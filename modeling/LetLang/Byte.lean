/-!
# Bytes

Sources are scanned as lists of bytes. This file names the bytes and the byte classes that the
scanner looks at: blanks, word delimiters, decimal digits, the quote and the backslash.

Words stop at blanks and at the marks listed in `delimiters`. The bytes `-`, `*`, `/`, `%`, `<`,
`>`, `!` and the quote are not among them, so a word absorbs any of these that follows it.
-/

namespace LetLang

/-- A run of bytes: a source, a part of one, or a lexeme. -/
abbrev Bytes := List UInt8

namespace Byte

def newline : UInt8 := '\n'.toUInt8

/-- The space, also what a scan sees where a position holds no byte. -/
def space : UInt8 := ' '.toUInt8

/-- The byte that opens and closes a string literal. -/
def quote : UInt8 := '\"'.toUInt8

/-- The byte that keeps a directly following quote from closing a string literal. -/
def backslash : UInt8 := '\\'.toUInt8

/-- The byte that turns a simple comparison or assignment sign into a compound one. -/
def equals : UInt8 := '='.toUInt8

/-- Space, tab, carriage return and newline: skipped between tokens. -/
def blanks : List UInt8 :=
  [' ', '\t', '\r', '\n'].map Char.toUInt8

/-- The bytes at which a word stops: the blanks and twelve marks. -/
def delimiters : List UInt8 :=
  blanks ++ [';', '(', ')', '{', '}', '[', ']', ',', '.', ':', '+', '='].map Char.toUInt8

def isBlank (b : UInt8) : Bool := blanks.contains b

def isDelimiter (b : UInt8) : Bool := delimiters.contains b

/-- The ten ASCII digits, and no digit of another script. -/
def isDigit (b : UInt8) : Bool := '0'.toUInt8 ≤ b && b ≤ '9'.toUInt8

theorem isDelimiter_of_isBlank {b : UInt8} (h : isBlank b = true) : isDelimiter b = true := by
  simp only [isBlank, isDelimiter, delimiters, List.contains_eq_mem, List.mem_append,
    decide_eq_true_eq] at h ⊢
  exact Or.inl h

end Byte

end LetLang
