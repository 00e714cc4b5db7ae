import LetLang.Position
import LetLang.Token.Kind

/-!
# Diagnostics

A diagnostic says which kinds were expected, which kind was found instead, and where. Its message
is one line that names all three.
-/

namespace LetLang

/-- A mismatch between the kinds that a production accepts and the token at hand. -/
structure Diagnostic where
  expected : List TokenKind
  found : TokenKind
  position : Position
deriving DecidableEq, Repr

namespace Diagnostic

def alternatives (kinds : List TokenKind) : String :=
  " or ".intercalate (kinds.map TokenKind.describe)

def message (d : Diagnostic) : String :=
  "expected " ++ alternatives d.expected ++ " but got " ++ d.found.describe ++ " at "
    ++ d.position.text

end Diagnostic

def writeLines (messages : List String) : String :=
  String.join (messages.map (· ++ "\n"))

end LetLang
