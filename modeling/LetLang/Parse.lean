import LetLang.Session

/-!
# Parsing a whole source

`Source.collect` reads bindings from the start of a source until no token is left, or until a limit
on the number of parse calls is reached, and gives the statements and diagnostics it met in source
order. `Source.parse` may be strict: a result with diagnostics is then rejected. Both return the log
of the run, also when there is no result.

A parse call pulls at least one token and a source has at most one token a byte, so as many calls as
the source has bytes are always enough.
-/

namespace LetLang

structure ParseResult where
  statements : List Statement := []
  diagnostics : List String := []
deriving DecidableEq, Repr

namespace ParseResult

def ok (r : ParseResult) : Bool := r.diagnostics.isEmpty

def writeErrors (r : ParseResult) : String := writeLines r.diagnostics

end ParseResult

/-- What a strict parse is refused with: every message of the parse. -/
structure Rejection where
  messages : List String
deriving DecidableEq, Repr

namespace Rejection

/-- The first message, or a general one if there is none. -/
def first (r : Rejection) : String := r.messages.headD "parse failed"

def text (r : Rejection) : String :=
  if 1 < r.messages.length then
    r.first ++ " (and " ++ toString (r.messages.length - 1) ++ " more)"
  else r.first

end Rejection

inductive ParseFailure where
  | fault (e : Fault)
  | rejected (r : Rejection)
deriving DecidableEq, Repr

/-- Whether the next token is the end of the input. -/
def Cursor.atEnd (c : Cursor) : Bool :=
  match c.peek with
  | .error _ => false
  | .ok t => t.kind = .endOfInput

/-- How many parse calls a source of the given length may take under a limit. -/
def callBound (limit : Option Int) (length : Nat) : Nat :=
  match limit with
  | none => length
  | some n => min n.toNat length

namespace Source

/-- What a source holds, up to the given number of parse calls, and the log of the run. -/
def collect (source : Source) (limit : Option Int) : Except Fault ParseResult × List LogRecord :=
  match source.buffer with
  | .error e => (.error (.source e), [])
  | .ok input =>
      let start := { Session.ofBytes input with log := [.started input.length] }
      match start.readWhileLeft (callBound limit input.length) with
      | (.error e, s) => (.error e, s.log)
      | (.ok outcomes, s) =>
          let statements := outcomes.reduceOption
          let diagnostics := s.sink.messages
          let stopped := if s.cursor.atEnd then [] else [.stopped outcomes.length]
          (.ok { statements, diagnostics },
            s.log ++ stopped
              ++ [.ended outcomes.length s.cursor.offset,
                .finished statements.length diagnostics.length])

/-- What a source holds, unless the parse is strict and there are diagnostics. -/
def parse (source : Source) (strict : Bool) (limit : Option Int) :
    Except ParseFailure ParseResult × List LogRecord :=
  match source.collect limit with
  | (.error e, log) => (.error (.fault e), log)
  | (.ok r, log) =>
      if strict && !r.ok then (.error (.rejected { messages := r.diagnostics }), log)
      else (.ok r, log)

/-- The statements that the given number of parse calls find. -/
def functionBody (source : Source) (n : Nat) : Except Fault FunctionBody :=
  match source.buffer with
  | .error e => .error (.source e)
  | .ok input =>
      match (Session.ofBytes input).readBindings n with
      | (.error e, _) => .error e
      | (.ok outcomes, _) => .ok { statements := outcomes.reduceOption }

end Source

end LetLang
