import LetLang.Source
import LetLang.Text.Template

/-!
# Faults

Every reason for which an operation of this library refuses to answer, in one type. A mismatch in
the source is none of them: it is a diagnostic, and parsing goes on behind it.
-/

namespace LetLang

inductive Fault where
  | source (e : SourceError)
  | span (e : SpanError)
  | template (e : TemplateError)
  /-- A message meets a released sink. -/
  | sinkReleased
  /-- A statement is asked for when the sink is released. -/
  | sessionReleased
  /-- A block of parse calls was told to fail at its end. -/
  | blockFailed
  /-- No object of the kind asked for has the name. -/
  | unknownName (name : String)
deriving DecidableEq, Repr

def Fault.message : Fault → String
  | source e => e.message
  | span e => e.message
  | template e => e.message
  | sinkReleased => "diagnostic sink used after release"
  | sessionReleased => "parser used after its session was released"
  | blockFailed => "block failed"
  | unknownName name => (Text.ofString name).quoted

namespace Span

def lexemeIn (s : Span) (source : Source) : Except Fault Lexeme :=
  match source.buffer with
  | .error e => .error (.source e)
  | .ok bytes =>
      match s.slice bytes with
      | .error e => .error (.span e)
      | .ok part => .ok (source.lexeme part)

def positionIn (s : Span) (source : Source) : Except Fault Position :=
  match source.buffer with
  | .error e => .error (.source e)
  | .ok bytes =>
      match s.position bytes with
      | .error e => .error (.span e)
      | .ok position => .ok position

end Span

end LetLang
