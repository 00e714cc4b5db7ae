import LetLang.Span
import LetLang.Token.Kind

/-!
# Tokens

A token is a kind together with the span of its lexeme. It holds no text: the lexeme is what the
span covers in the source that the token was scanned from.
-/

namespace LetLang

structure Token where
  kind : TokenKind
  span : Span
deriving DecidableEq, Repr

namespace Token

/-- The token of the given kind and bounds, if the bounds make a span. -/
def ofBounds (kind : TokenKind) (start stop : Int) : Except SpanError Token :=
  match Span.ofBounds start stop with
  | .error e => .error e
  | .ok span => .ok { kind, span }

theorem ofBounds_natCast (kind : TokenKind) {m n : Nat} (h : m ≤ n) :
    ofBounds kind m n = .ok { kind, span := { start := m, stop := n } } := by
  simp [ofBounds, Span.ofBounds_natCast h]

theorem kind_of_ofBounds {kind : TokenKind} {start stop : Int} {t : Token}
    (h : ofBounds kind start stop = .ok t) : t.kind = kind := by
  unfold ofBounds at h
  split at h
  · contradiction
  · cases h; rfl

end Token

end LetLang
