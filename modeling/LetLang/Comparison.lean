import LetLang.Parse
import LetLang.Tokenize

/-!
# Comparing sources

How much two sources share: their tokens as kinds and spans, their parse results, their statements,
and how many different tokens there are in both together.
-/

namespace LetLang

/-- What two sources have in common. -/
structure Comparison where
  sameTokens : Bool
  sameResults : Bool
  sameStatements : Bool
  distinctTokens : Nat
deriving DecidableEq, Repr

def Comparison.of (a b : Source) : Except Fault Comparison := do
  let s ← a.tokenize
  let t ← b.tokenize
  let x ← (a.collect none).1
  let y ← (b.collect none).1
  return {
    sameTokens := s == t
    sameResults := x == y
    sameStatements := x.statements == y.statements
    distinctTokens := (s ++ t).eraseDups.length }

end LetLang
