import LetLang.Text.Hex
import LetLang.Text.Printable

/-!
# Quoted text

A text in quotes, on one line and in printable characters only. The quotes are single, unless the
text holds a single quote and no double one. A backslash goes before the quote that is used and
before a backslash; newline, return and tab have escapes of one letter; any other code point that
is not printable is written by its number in two, four or eight hexadecimal digits.
-/

namespace LetLang.Text

def quoteFor (t : Text) : Char :=
  if .scalar '\'' ∈ t ∧ .scalar '\"' ∉ t then '\"' else '\''

/-- A code point by its number, in the shortest of the three escapes that hold it. -/
def escapeNumber (n : Nat) : List Char :=
  if n < 0x100 then '\\' :: 'x' :: Hex.digits 2 n
  else if n < 0x10000 then '\\' :: 'u' :: Hex.digits 4 n
  else '\\' :: 'U' :: Hex.digits 8 n

/-- What stands for a code point between the given quotes. -/
def escape (quote : Char) (p : CodePoint) : List Char :=
  match p with
  | .surrogate _ => escapeNumber p.toNat
  | .scalar c =>
      if c = quote ∨ c = '\\' then ['\\', c]
      else if c = '\n' then ['\\', 'n']
      else if c = '\r' then ['\\', 'r']
      else if c = '\t' then ['\\', 't']
      else if p.isPrintable then [c]
      else escapeNumber p.toNat

def quoted (t : Text) : String :=
  let quote := quoteFor t
  String.ofList (quote :: t.flatMap (escape quote) ++ [quote])

end LetLang.Text
