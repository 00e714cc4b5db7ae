import LetLang.Workspace.Basic

/-!
# Commands

What can be done in a workspace: make an object, or act on a named one. Every command has a reply or
a fault, and leaves a workspace behind in which the next command runs.
-/

namespace LetLang

inductive Reply where
  | done
  | length (n : Nat)
  | token (t : Token)
  | tokens (ts : List Token)
  | text (s : String)
  | messages (ms : List String)
  | accepted (b : Bool)
  | statement (s : Option Statement)
  | statements (ss : List (Option Statement))
deriving DecidableEq, Repr

/-! ## Acting on one object -/

inductive CursorAction where
  | next
  | peek
  | take (n : Nat)
  | rest
  | tokenize
  | seek (offset : Int)
deriving DecidableEq, Repr

def CursorAction.run (c : Cursor) : CursorAction → Except SpanError (Reply × Cursor)
  | next => c.next.map fun (t, c₁) => (.token t, c₁)
  | peek => c.peek.map fun t => (.token t, c)
  | take n => (c.take n).map fun (ts, c₁) => (.tokens ts, c₁)
  | rest => c.rest.map fun (ts, c₁) => (.tokens ts, c₁)
  | tokenize => c.tokenize.map fun (ts, c₁) => (.tokens ts, c₁)
  | seek offset => .ok (.done, c.seek offset)

inductive SinkAction where
  | append (message : String)
  | report (template : String) (args : List String)
  | drain
  | messages
  | echo (suffix : String)
  | release
deriving DecidableEq, Repr

def SinkAction.run (s : Sink) : SinkAction → Except Fault (Reply × Sink)
  | append message => (s.append message).map fun s₁ => (.done, s₁)
  | report template args => (s.report template args).map fun s₁ => (.done, s₁)
  | drain => .ok (.text s.drain, s)
  | messages => .ok (.messages s.messages, s)
  | echo suffix => (s.echo suffix).map fun s₁ => (.done, s₁)
  | release => .ok (.done, s.release)

inductive SessionAction where
  | readBinding
  | readBindingTail
  | expect (found : TokenKind) (start stop : Int) (accepted : List TokenKind)
  | writeErrors
  | release
  | block (n : Nat) (fails : Bool)
deriving DecidableEq, Repr

def Session.Outcome.reply {α : Type} (f : α → Reply) (outcome : Session.Outcome α) :
    Session.Outcome Reply :=
  (outcome.1.map f, outcome.2)

def SessionAction.run (s : Session) : SessionAction → Session.Outcome Reply
  | readBinding => s.readBinding.reply .statement
  | readBindingTail => s.readBindingTail.reply .statement
  | expect found start stop accepted =>
      match Token.ofBounds found start stop with
      | .error e => (.error (.span e), s)
      | .ok t => (s.expect t accepted).reply .accepted
  | writeErrors => (.ok (.text s.sink.drain), s)
  | release => (.ok .done, s.release)
  | block n fails => (s.block n fails).reply .statements

/-! ## Commands in a workspace -/

inductive Command where
  | newSink (name : String)
  | newCursor (name : String) (source : Source)
  /-- The session has a sink of its own unless the name of one is given. -/
  | newSession (name : String) (source : Source) (sink : Option String)
  | onCursor (name : String) (action : CursorAction)
  | onSink (name : String) (action : SinkAction)
  | onSession (name : String) (action : SessionAction)
deriving Repr

/-- The name of the object that a command makes or acts on. -/
def Command.target : Command → String
  | newSink name => name
  | newCursor name _ => name
  | newSession name _ _ => name
  | onCursor name _ => name
  | onSink name _ => name
  | onSession name _ => name

namespace Workspace

/-- Makes a session for a source that has a buffer. -/
def addSession (w : Workspace) (name : String) (source : Source) (input : Bytes) :
    Option String → Except Fault Reply × Workspace
  | none =>
      (.ok (.length input.length),
        w.addSink.bind name (.session source { source := input } w.sinks.length))
  | some sink =>
      match w.sinkIndex? sink with
      | none => (.error (.unknownName sink), w)
      | some index =>
          (.ok (.length input.length), w.bind name (.session source { source := input } index))

/-- Carries out a command. An object that cannot be made leaves the workspace as it was. -/
def perform (w : Workspace) : Command → Except Fault Reply × Workspace
  | .newSink name => (.ok .done, w.addSink.bind name (.sink w.sinks.length))
  | .newCursor name source =>
      match source.buffer with
      | .error e => (.error (.source e), w)
      | .ok input =>
          (.ok (.length input.length), w.bind name (.cursor source { source := input }))
  | .newSession name source sink =>
      match source.buffer with
      | .error e => (.error (.source e), w)
      | .ok input => w.addSession name source input sink
  | .onCursor name action =>
      match w.cursor? name with
      | none => (.error (.unknownName name), w)
      | some c =>
          match action.run c with
          | .error e => (.error (.span e), w)
          | .ok (reply, c₁) => (.ok reply, w.setCursor name c₁)
  | .onSink name action =>
      match w.sinkIndex? name with
      | none => (.error (.unknownName name), w)
      | some index =>
          match w.sinks[index]? with
          | none => (.error (.unknownName name), w)
          | some s =>
              match action.run s with
              | .error e => (.error e, w)
              | .ok (reply, s₁) => (.ok reply, w.setSink index s₁)
  | .onSession name action =>
      match w.session? name with
      | none => (.error (.unknownName name), w)
      | some (s, index) =>
          let (outcome, s₁) := action.run s
          (outcome, w.setSession name index s₁)

end Workspace

end LetLang
