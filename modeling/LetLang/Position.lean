import LetLang.Byte

/-!
# Positions

A position is a line and a column, both counted from one, columns in bytes. `Position.after` gives
the position that a run of bytes leads up to: one line more than the run has newlines, and one
column more than it has bytes behind its last newline.
-/

namespace LetLang

/-- A place in a source, as a reader counts it. -/
structure Position where
  line : Nat := 1
  column : Nat := 1
deriving DecidableEq, Repr

namespace Position

/-- The position of the byte that follows the given ones. -/
def after (bytes : Bytes) : Position where
  line := bytes.count Byte.newline + 1
  column := bytes.reverse.idxOf Byte.newline + 1

def text (p : Position) : String :=
  toString p.line ++ ":" ++ toString p.column

@[simp] theorem after_nil : after [] = {} := rfl

theorem after_append_newline (bytes : Bytes) :
    after (bytes ++ [Byte.newline]) = { line := (after bytes).line + 1, column := 1 } := by
  simp [after]

theorem after_append_of_ne {b : UInt8} (h : b ≠ Byte.newline) (bytes : Bytes) :
    after (bytes ++ [b]) = { (after bytes) with column := (after bytes).column + 1 } := by
  have hne : (b == Byte.newline) = false := beq_eq_false_iff_ne.mpr h
  simp [after, h, hne, List.idxOf_cons]

end Position

end LetLang
