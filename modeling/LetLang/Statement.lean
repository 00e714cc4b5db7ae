import LetLang.Token.Basic

/-!
# Statements

The one statement of the language binds an identifier to a literal: `let name = value;`. Syntax
trees keep tokens, so names and values stay spans of the source.
-/

namespace LetLang

/-- An integer or string token in the place of a value. -/
structure Literal where
  token : Token
deriving DecidableEq, Repr

/-- A binding of an identifier to a value. -/
structure Statement where
  ident : Token
  value : Literal
deriving DecidableEq, Repr

structure FunctionBody where
  statements : List Statement := []
deriving DecidableEq, Repr

/-- A production: for each token in turn, the kinds that it may have. -/
abbrev Production := List (List TokenKind)

namespace Production

def bindingTail : Production :=
  [[.identifier], [.symbol .assign], [.integer, .string], [.symbol .semicolon]]

def binding : Production := [.keyword .letKw] :: bindingTail

end Production

/-- The statement that the tokens of a binding make, with or without the leading keyword. -/
def Statement.ofTokens? : List Token → Option Statement
  | [ident, _, value, _] => some { ident, value := { token := value } }
  | [_, ident, _, value, _] => some { ident, value := { token := value } }
  | _ => none

end LetLang
