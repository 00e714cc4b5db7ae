import LetLang.Cursor
import LetLang.Statement

/-!
# Readings

A cursor reads a production token by token, and stops at the first token of a kind that the
production does not accept there. That token is pulled all the same: a reading never pushes a token
back, so the next one starts behind the mismatch.
-/

namespace LetLang

/-- What came of reading a production. -/
inductive Reading where
  | complete (tokens : List Token)
  /-- Behind the accepted tokens comes one that is none of the kinds expected in its place. -/
  | mismatch (accepted : List Token) (expected : List TokenKind) (found : Token)
deriving DecidableEq, Repr

namespace Reading

def cons (t : Token) : Reading → Reading
  | complete ts => complete (t :: ts)
  | mismatch ts expected found => mismatch (t :: ts) expected found

/-- The tokens that were pulled, in order. -/
def pulled : Reading → List Token
  | complete ts => ts
  | mismatch ts _ found => ts ++ [found]

@[simp] theorem cons_complete (t : Token) (ts : List Token) :
    (complete ts).cons t = complete (t :: ts) := rfl

@[simp] theorem cons_mismatch (t : Token) (ts : List Token) (expected : List TokenKind)
    (found : Token) :
    (mismatch ts expected found).cons t = mismatch (t :: ts) expected found := rfl

@[simp] theorem pulled_cons (t : Token) (reading : Reading) :
    (reading.cons t).pulled = t :: reading.pulled := by
  cases reading <;> rfl

end Reading

namespace Cursor

def read : Production → Cursor → Except SpanError (Reading × Cursor)
  | [], c => .ok (.complete [], c)
  | expected :: more, c =>
      match c.next with
      | .error e => .error e
      | .ok (t, c₁) =>
          if t.kind ∈ expected then
            match read more c₁ with
            | .error e => .error e
            | .ok (reading, c₂) => .ok (reading.cons t, c₂)
          else .ok (.mismatch [] expected t, c₁)

/-- A complete reading has one token for each place of the production. -/
theorem length_of_read {production : Production} {c c₁ : Cursor} {ts : List Token}
    (h : c.read production = .ok (.complete ts, c₁)) : ts.length = production.length := by
  induction production generalizing c ts with
  | nil => cases h; rfl
  | cons expected more ih =>
      unfold read at h
      split at h
      · contradiction
      · rename_i t c₂ hn
        split at h
        · split at h
          · contradiction
          · rename_i reading c₃ hr
            cases reading with
            | complete us => cases h; simp [ih hr]
            | mismatch us e f => simp at h
        · simp at h

theorem source_of_read {production : Production} {c c₁ : Cursor} {reading : Reading}
    (h : c.read production = .ok (reading, c₁)) : c₁.source = c.source := by
  induction production generalizing c reading with
  | nil => cases h; rfl
  | cons expected more ih =>
      unfold read at h
      split at h
      · contradiction
      · rename_i t c₂ hn
        split at h
        · split at h
          · contradiction
          · rename_i r c₃ hr
            cases h
            rw [ih hr, source_of_next hn]
        · cases h; exact source_of_next hn

end Cursor

end LetLang
