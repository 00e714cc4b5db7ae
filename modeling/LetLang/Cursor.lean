import LetLang.Token.Scan

/-!
# Cursors

A cursor is a source and an offset into it. Every operation that pulls tokens moves the offset to
the end of the last one pulled; `peek` leaves it alone. The offset may be set to any integer, and an
operation then fails exactly when its first scan does. An operation that fails returns no cursor, so
its caller still holds the one from before.

At the end of the input every further pull gives the same empty token.
-/

namespace LetLang

/-- A place in a source, from which tokens are pulled. -/
structure Cursor where
  source : Bytes
  offset : Int := 0
deriving DecidableEq, Repr

namespace Cursor

def peek (c : Cursor) : Except SpanError Token :=
  scan c.source c.offset

def next (c : Cursor) : Except SpanError (Token × Cursor) :=
  match c.peek with
  | .error e => .error e
  | .ok t => .ok (t, { c with offset := t.span.stop })

def seek (c : Cursor) (offset : Int) : Cursor := { c with offset }

/--
Pulls up to the given number of tokens. The end of the input is pulled when it is met, but it is
not among the tokens.
-/
def take : Nat → Cursor → Except SpanError (List Token × Cursor)
  | 0, c => .ok ([], c)
  | n + 1, c =>
      match c.next with
      | .error e => .error e
      | .ok (t, c₁) =>
          if t.kind = .endOfInput then .ok ([], c₁)
          else
            match take n c₁ with
            | .error e => .error e
            | .ok (ts, c₂) => .ok (t :: ts, c₂)

/--
Pulls every token that is left, and the end of the input behind them. A source has at most one token
a byte.
-/
def rest (c : Cursor) : Except SpanError (List Token × Cursor) :=
  c.take (c.source.length + 1)

/-- Pulls every token that is left, the end of the input included. -/
def tokenize (c : Cursor) : Except SpanError (List Token × Cursor) :=
  match c.rest with
  | .error e => .error e
  | .ok (ts, c₁) =>
      match c₁.next with
      | .error e => .error e
      | .ok (t, c₂) => .ok (ts ++ [t], c₂)

theorem next_eq_ok {c c₁ : Cursor} {t : Token} (h : c.next = .ok (t, c₁)) :
    c.peek = .ok t ∧ c₁ = { c with offset := t.span.stop } := by
  unfold next at h
  split at h
  · contradiction
  · rename_i u hu
    cases h
    exact ⟨hu, rfl⟩

@[simp] theorem source_seek (c : Cursor) (offset : Int) : (c.seek offset).source = c.source := rfl

theorem source_of_next {c c₁ : Cursor} {t : Token} (h : c.next = .ok (t, c₁)) :
    c₁.source = c.source := by
  rw [(next_eq_ok h).2]

theorem source_of_take {n : Nat} {c c₁ : Cursor} {ts : List Token}
    (h : c.take n = .ok (ts, c₁)) : c₁.source = c.source := by
  induction n generalizing c ts with
  | zero => cases h; rfl
  | succ n ih =>
      unfold take at h
      split at h
      · contradiction
      · rename_i t c₂ hn
        split at h
        · cases h; exact source_of_next hn
        · split at h
          · contradiction
          · rename_i us c₃ ht
            cases h
            rw [ih ht, source_of_next hn]

end Cursor

end LetLang
