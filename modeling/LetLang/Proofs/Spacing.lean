import LetLang.Proofs.Stream

/-!
# Which blanks may be left out

Written down with blanks between them, tokens are scanned back as they are. Where two tokens stand
next to each other, three things can go wrong: a word takes in a first byte that is no delimiter, a
simple operator takes in an `=`, and a string that never ends takes in all there is.

Main statement: `tokenize_layout_iff`. These are the only three, for any tokens and any blanks.
-/

namespace LetLang

/-- The first piece stays as it is although the second one follows. -/
structure Piece.Apart (p q : Piece) : Prop where
  word : q.gap = [] → p.kind.isWord = true →
    ∃ b, q.lexeme.head? = some b ∧ Byte.isDelimiter b = true
  operator : q.gap = [] → p.kind.isOperator = true → q.lexeme.head? ≠ some Byte.equals
  closed : p.kind ≠ .illegal

/-- Neighbours are apart, and behind a string that never ends there is nothing. -/
structure Layout.Spaced (l : Layout) : Prop where
  apart : l.pieces.IsChain Piece.Apart
  closed : ∀ p, l.pieces.getLast? = some p → p.kind = .illegal → l.tail = []

/-! ## One boundary -/

theorem isBlank_equals : Byte.isBlank Byte.equals = false := by decide

/-- A blank ends every lexeme but a string that never ends. -/
theorem TokenKind.stopsBefore_blank_iff {kind : TokenKind} {b : UInt8} {rest : Bytes}
    (hb : Byte.isBlank b = true) : kind.StopsBefore (b :: rest) ↔ kind ≠ .illegal := by
  constructor
  · intro h hi
    exact List.cons_ne_nil b rest (h.illegal hi)
  · intro hi
    refine ⟨fun _ c hc => ?_, fun _ he => ?_, fun h => absurd h hi⟩
    · cases hc
      exact Byte.isDelimiter_of_isBlank hb
    · cases he
      rw [isBlank_equals] at hb
      contradiction

theorem TokenKind.stopsBefore_isGap_iff {kind : TokenKind} {gap : Bytes} (h : IsGap gap) :
    kind.StopsBefore gap ↔ (kind = .illegal → gap = []) := by
  cases gap with
  | nil => exact ⟨fun _ _ => rfl, fun _ => kind.stopsBefore_nil⟩
  | cons b rest =>
      rw [stopsBefore_blank_iff (h b List.mem_cons_self)]
      simp

theorem Piece.stopsBefore_bytes_iff {p q : Piece} {rest : Bytes} :
    p.kind.StopsBefore (q.bytes ++ rest) ↔ p.Apart q := by
  rcases q.spells.exists_head with ⟨c, lexeme, hlexeme, -⟩
  cases hgap : q.gap with
  | cons b gap =>
      have hb : Byte.isBlank b = true := q.isGap b (by simp [hgap])
      have hbytes : q.bytes ++ rest = b :: (gap ++ q.lexeme ++ rest) := by
        simp [Piece.bytes, hgap]
      rw [hbytes, TokenKind.stopsBefore_blank_iff hb]
      have hne : ¬ q.gap = [] := by simp [hgap]
      exact ⟨fun hi => ⟨fun h => absurd h hne, fun h => absurd h hne, hi⟩, fun h => h.closed⟩
  | nil =>
      have hbytes : q.bytes ++ rest = c :: (lexeme ++ rest) := by
        simp [Piece.bytes, hgap, hlexeme]
      have hhead : q.lexeme.head? = some c := by simp [hlexeme]
      rw [hbytes]
      constructor
      · intro h
        refine ⟨fun _ hw => ⟨c, hhead, h.word hw c rfl⟩, fun _ ho => ?_, fun hi => ?_⟩
        · rw [hhead]
          exact h.operator ho
        · exact List.cons_ne_nil _ _ (h.illegal hi)
      · intro h
        refine ⟨fun hw b hb => ?_, fun ho => ?_, fun hi => absurd hi h.closed⟩
        · rcases h.word hgap hw with ⟨d, hd, hdelimiter⟩
          rw [hhead] at hd
          cases hd
          cases hb
          exact hdelimiter
        · rw [List.head?_cons, ← hhead]
          exact h.operator hgap ho

/-! ## All boundaries -/

theorem Piece.settled_cons_cons {p q : Piece} {tail : Bytes} {pieces : List Piece} :
    Settled tail (p :: q :: pieces) ↔ p.Apart q ∧ Settled tail (q :: pieces) := by
  have hbytes : join (q :: pieces) ++ tail = q.bytes ++ (join pieces ++ tail) := by
    simp [bytes]
  rw [Settled, hbytes, stopsBefore_bytes_iff]

theorem Layout.settled_iff_spaced (l : Layout) : l.Settled ↔ l.Spaced := by
  rcases l with ⟨pieces, tail, hgap⟩
  induction pieces with
  | nil => exact ⟨fun _ => ⟨.nil, by simp⟩, fun _ => trivial⟩
  | cons p pieces ih =>
      cases pieces with
      | nil =>
          -- The last piece meets the blanks at the end.
          have hlast : (Layout.mk [p] tail hgap).Settled ↔ (p.kind = .illegal → tail = []) := by
            rw [← TokenKind.stopsBefore_isGap_iff hgap]
            exact and_iff_left trivial
          rw [hlast]
          constructor
          · intro hstop
            refine ⟨.singleton p, ?_⟩
            intro q hq
            cases hq
            exact hstop
          · intro h
            exact h.closed p rfl
      | cons q pieces =>
          have hcons : (Layout.mk (p :: q :: pieces) tail hgap).Settled ↔
              p.Apart q ∧ (Layout.mk (q :: pieces) tail hgap).Settled := Piece.settled_cons_cons
          rw [hcons, ih]
          constructor
          · rintro ⟨hpq, h⟩
            refine ⟨List.isChain_cons_cons.mpr ⟨hpq, h.apart⟩, ?_⟩
            rw [List.getLast?_cons_cons]
            exact h.closed
          · intro h
            rcases List.isChain_cons_cons.mp h.apart with ⟨hpq, hchain⟩
            have hclosed := h.closed
            rw [List.getLast?_cons_cons] at hclosed
            exact ⟨hpq, ⟨hchain, hclosed⟩⟩

/--
Tokens written down with any blanks between them are scanned back, each in its place, exactly if
they are spaced.
-/
theorem tokenize_layout_iff {source : Source} {l : Layout} (h : source.buffer = .ok l.bytes) :
    source.tokenize = .ok (Piece.tokens 0 l.pieces ++ [Token.endOf l.bytes]) ↔ l.Spaced := by
  rw [Source.tokenize_eq_iff h, ahead_tokens_iff (Nat.zero_le _) List.drop_zero,
    l.settled_iff_spaced]

/-- A word that holds a quote and a minus, operators side by side, and a string without an end. -/
def Layout.crowded : Layout where
  pieces :=
    [ { gap := [Byte.newline]
        kind := .identifier
        lexeme := "a\"-1".toList.map Char.toUInt8
        isGap := by decide
        spells := by decide },
      { gap := []
        kind := .symbol .equal
        lexeme := "==".toList.map Char.toUInt8
        isGap := by decide
        spells := by decide },
      { gap := []
        kind := .symbol .assign
        lexeme := "=".toList.map Char.toUInt8
        isGap := by decide
        spells := by decide },
      { gap := [Byte.space]
        kind := .illegal
        lexeme := "\"=\\\";".toList.map Char.toUInt8
        isGap := by decide
        spells := by decide } ]
  tail := []
  isGap := by decide

theorem tokenize_crowded_iff :
    (Source.bytes Layout.crowded.bytes).buffer = .ok Layout.crowded.bytes ∧
      ((Source.bytes Layout.crowded.bytes).tokenize =
          .ok (Piece.tokens 0 Layout.crowded.pieces ++ [Token.endOf Layout.crowded.bytes]) ↔
        Layout.crowded.Spaced) :=
  ⟨rfl, tokenize_layout_iff rfl⟩

end LetLang
