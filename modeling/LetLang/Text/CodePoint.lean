/-!
# Text

A text is a list of Unicode code points. It may hold surrogates, which are no characters and have
no UTF-8 encoding; a text without them is a list of characters.
-/

namespace LetLang

/-- A Unicode code point: a character, or one of the 2048 surrogates from U+D800 on. -/
inductive CodePoint where
  | scalar (c : Char)
  | surrogate (index : Fin 0x800)
deriving DecidableEq, Repr

namespace CodePoint

def toNat : CodePoint → Nat
  | scalar c => c.toNat
  | surrogate index => 0xD800 + index.val

def ofNat? (n : Nat) : Option CodePoint :=
  if h : 0xD800 ≤ n ∧ n < 0xE000 then
    some (surrogate ⟨n - 0xD800, by omega⟩)
  else if n < 0x110000 then
    some (scalar (Char.ofNat n))
  else
    none

/-- The character that a code point is, if it is one. -/
def char? : CodePoint → Option Char
  | scalar c => some c
  | surrogate _ => none

def isSurrogate : CodePoint → Bool
  | scalar _ => false
  | surrogate _ => true

end CodePoint

abbrev Text := List CodePoint

namespace Text

/-- A string as a text; it holds no surrogate. -/
def ofString (s : String) : Text := s.toList.map .scalar

/-- The characters of a text, surrogates left out. -/
def chars (t : Text) : List Char := t.filterMap CodePoint.char?

@[simp] theorem chars_ofString (s : String) : chars (ofString s) = s.toList := by
  simp [chars, ofString, List.filterMap_map, Function.comp_def, CodePoint.char?]

end Text

end LetLang
