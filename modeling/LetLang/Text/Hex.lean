import LetLang.Byte

/-!
# Hexadecimal text

Numbers and bytes in lower-case hexadecimal digits, of fixed width.
-/

namespace LetLang.Hex

/-- The last digits of a number, as many as asked for, with leading zeros. -/
def digits : Nat → Nat → List Char
  | 0, _ => []
  | width + 1, n => digits width (n / 16) ++ [Nat.digitChar (n % 16)]

def ofBytes (bytes : Bytes) : String :=
  String.ofList (bytes.flatMap fun b => digits 2 b.toNat)

@[simp] theorem length_digits (width n : Nat) : (digits width n).length = width := by
  induction width generalizing n with
  | zero => rfl
  | succ width ih => simp [digits, ih]

end LetLang.Hex
