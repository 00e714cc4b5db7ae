import LetLang.Fault
import LetLang.Cursor

/-!
# The tokens of a source

Scanning and tokenizing a source of any form, through its buffer.
-/

namespace LetLang.Source

/-- The first token of a source from the given offset on. -/
def scan (source : Source) (offset : Int) : Except Fault Token :=
  match source.buffer with
  | .error e => .error (.source e)
  | .ok input =>
      match LetLang.scan input offset with
      | .error e => .error (.span e)
      | .ok t => .ok t

/-- The tokens of a source, the end of the input included. -/
def tokenize (source : Source) : Except Fault (List Token) :=
  match source.buffer with
  | .error e => .error (.source e)
  | .ok input =>
      match ({ source := input } : Cursor).tokenize with
      | .error e => .error (.span e)
      | .ok (ts, _) => .ok ts

end LetLang.Source
