import LetLang.Log
import LetLang.Reading
import LetLang.Sink

/-!
# Sessions

A session reads bindings from a cursor, reports into a sink, and keeps a log. `readBinding` yields a
statement, or records one diagnostic about the first token that does not fit and yields nothing.
Tokens are never pushed back, so the call after a mismatch starts behind it.

Operations return an outcome together with the session as it stands afterwards, because some of what
they did remains when they fail: `readBindingTail` has moved the cursor by the time a released sink
refuses its diagnostic. `readBinding` looks at the sink first and changes nothing when it fails.
-/

namespace LetLang

structure Session where
  cursor : Cursor
  sink : Sink := ∅
  log : List LogRecord := []
deriving DecidableEq, Repr

namespace Session

def ofBytes (bytes : Bytes) : Session := { cursor := { source := bytes } }

/-- What an operation yields, and the session behind it. -/
abbrev Outcome (α : Type) := Except Fault α × Session

/-! ## One production -/

/-- Records that the token is none of the expected kinds. -/
def report (s : Session) (expected : List TokenKind) (found : Token) : Outcome Unit :=
  match found.span.position s.cursor.source with
  | .error e => (.error (.span e), s)
  | .ok position =>
      let diagnostic : Diagnostic := { expected, found := found.kind, position }
      match s.sink.append diagnostic.message with
      | .error e => (.error e, s)
      | .ok sink =>
          let entry := .mismatch found.span.start expected found.kind
          (.ok (), { s with sink, log := s.log ++ [entry] })

/-- Whether the token is of one of the accepted kinds; if it is not, that is recorded. -/
def expect (s : Session) (found : Token) (accepted : List TokenKind) : Outcome Bool :=
  if found.kind ∈ accepted then (.ok true, s)
  else
    match s.report accepted found with
    | (.error e, s₁) => (.error e, s₁)
    | (.ok (), s₁) => (.ok false, s₁)

/-- Reads a production for the statement that it makes, or records the mismatch. -/
def read (s : Session) (production : Production) : Outcome (Option Statement) :=
  match s.cursor.read production with
  | .error e => (.error (.span e), s)
  | .ok (.complete ts, cursor) => (.ok (Statement.ofTokens? ts), { s with cursor })
  | .ok (.mismatch _ expected found, cursor) =>
      match { s with cursor }.report expected found with
      | (.error e, s₁) => (.error e, s₁)
      | (.ok (), s₁) => (.ok none, s₁)

/-- Reads a binding behind its keyword, whether the sink is released or not. -/
def readBindingTail (s : Session) : Outcome (Option Statement) :=
  s.read Production.bindingTail

def readBinding (s : Session) : Outcome (Option Statement) :=
  if s.sink.isReleased then (.error .sessionReleased, s)
  else s.read Production.binding

/-! ## Many bindings -/

def readBindings : Nat → Session → Outcome (List (Option Statement))
  | 0, s => (.ok [], s)
  | n + 1, s =>
      match s.readBinding with
      | (.error e, s₁) => (.error e, s₁)
      | (.ok outcome, s₁) =>
          match readBindings n s₁ with
          | (.error e, s₂) => (.error e, s₂)
          | (.ok outcomes, s₂) => (.ok (outcome :: outcomes), s₂)

/-- Reads bindings while a token is left, but no more than the given number of times. -/
def readWhileLeft : Nat → Session → Outcome (List (Option Statement))
  | 0, s => (.ok [], s)
  | n + 1, s =>
      match s.cursor.peek with
      | .error e => (.error (.span e), s)
      | .ok t =>
          if t.kind = .endOfInput then (.ok [], s)
          else
            match s.readBinding with
            | (.error e, s₁) => (.error e, s₁)
            | (.ok outcome, s₁) =>
                match readWhileLeft n s₁ with
                | (.error e, s₂) => (.error e, s₂)
                | (.ok outcomes, s₂) => (.ok (outcome :: outcomes), s₂)

def release (s : Session) : Session := { s with sink := s.sink.release }

/--
Reads bindings and releases the sink at the end, whatever happened. The block may be told to fail
behind its last call; a call that fails comes first.
-/
def block (s : Session) (n : Nat) (fails : Bool) : Outcome (List (Option Statement)) :=
  match s.readBindings n with
  | (.error e, s₁) => (.error e, s₁.release)
  | (.ok outcomes, s₁) => (if fails then .error .blockFailed else .ok outcomes, s₁.release)

/-! ## Basic facts -/

@[simp] theorem cursor_release (s : Session) : s.release.cursor = s.cursor := rfl

@[simp] theorem sink_release (s : Session) : s.release.sink = .released := rfl

@[simp] theorem cursor_report (s : Session) (expected : List TokenKind) (found : Token) :
    (s.report expected found).2.cursor = s.cursor := by
  unfold report
  split
  · rfl
  · dsimp only
    split <;> rfl

theorem readBinding_of_isReleased {s : Session} (h : s.sink.isReleased = true) :
    s.readBinding = (.error .sessionReleased, s) := by
  simp [readBinding, h]

@[simp] theorem sink_block (s : Session) (n : Nat) (fails : Bool) :
    (s.block n fails).2.sink = .released := by
  unfold block
  split <;> rfl

end Session

end LetLang
