import LetLang.Proofs.Munch

/-!
# Layouts

A piece is a lexeme with the blanks in front of it, and a layout is a list of pieces with the blanks
behind the last one. A layout is one way to write bytes down; it is settled if no lexeme runs into
what follows it.

Main statements: any bytes have a settled layout (`exists_layout`), and a scan finds the token of a
piece exactly if its lexeme stops before what follows (`scan_eq_token_iff`).
-/

namespace LetLang

/-- A run of blanks. -/
def IsGap (gap : Bytes) : Prop := ∀ b ∈ gap, Byte.isBlank b = true

instance (gap : Bytes) : Decidable (IsGap gap) :=
  decidable_of_iff (gap.all Byte.isBlank = true) List.all_eq_true

/-- A lexeme of a kind, and the blanks in front of it. -/
structure Piece where
  gap : Bytes
  kind : TokenKind
  lexeme : Bytes
  isGap : IsGap gap
  spells : kind.Spells lexeme

namespace Piece

/-- The bytes of a piece. -/
def bytes (p : Piece) : Bytes := p.gap ++ p.lexeme

/-- The bytes of pieces, end to end. -/
def join (pieces : List Piece) : Bytes := pieces.flatMap bytes

/-- The token of a piece whose first byte is at the given offset. -/
def token (offset : Nat) (p : Piece) : Token where
  kind := p.kind
  span :=
    { start := offset + p.gap.length
      stop := offset + p.gap.length + p.lexeme.length }

/-- The tokens of pieces, the first of which starts at the given offset. -/
def tokens : Nat → List Piece → List Token
  | _, [] => []
  | offset, p :: pieces => p.token offset :: tokens (offset + p.bytes.length) pieces

/-- Every lexeme stops before the bytes that follow it, of which the last are `tail`. -/
def Settled (tail : Bytes) : List Piece → Prop
  | [] => True
  | p :: pieces => p.kind.StopsBefore (join pieces ++ tail) ∧ Settled tail pieces

@[simp] theorem join_nil : join [] = [] := rfl

@[simp] theorem join_cons (p : Piece) (pieces : List Piece) :
    join (p :: pieces) = p.gap ++ (p.lexeme ++ join pieces) := by
  simp [join, bytes]

@[simp] theorem length_bytes (p : Piece) : p.bytes.length = p.gap.length + p.lexeme.length := by
  simp [bytes]

@[simp] theorem kind_token (offset : Nat) (p : Piece) : (p.token offset).kind = p.kind := rfl

@[simp] theorem start_token (offset : Nat) (p : Piece) :
    (p.token offset).span.start = offset + p.gap.length := rfl

@[simp] theorem stop_token (offset : Nat) (p : Piece) :
    (p.token offset).span.stop = offset + p.bytes.length := by
  simp [token, Nat.add_assoc]

@[simp] theorem length_tokens (offset : Nat) (pieces : List Piece) :
    (tokens offset pieces).length = pieces.length := by
  induction pieces generalizing offset with
  | nil => rfl
  | cons p pieces ih => simp [tokens, ih]

theorem lexeme_length_pos (p : Piece) : 0 < p.lexeme.length := by
  rcases p.spells.exists_head with ⟨b, rest, h, -⟩
  simp [h]

theorem kind_ne_endOfInput (p : Piece) : p.kind ≠ .endOfInput := by
  intro h
  have hs := p.spells
  rw [h] at hs
  exact hs

theorem length_le_length_join (pieces : List Piece) : pieces.length ≤ (join pieces).length := by
  induction pieces with
  | nil => simp
  | cons p pieces ih =>
      have hp := p.lexeme_length_pos
      simp only [List.length_cons, join_cons, List.length_append]
      omega

theorem kind_ne_of_mem_tokens {offset : Nat} {pieces : List Piece} {t : Token}
    (h : t ∈ tokens offset pieces) : t.kind ≠ .endOfInput := by
  induction pieces generalizing offset with
  | nil => simp [tokens] at h
  | cons p pieces ih =>
      rcases List.mem_cons.mp h with rfl | h
      · exact p.kind_ne_endOfInput
      · exact ih h

end Piece

/-- Pieces, and the blanks behind the last one. -/
structure Layout where
  pieces : List Piece
  tail : Bytes
  isGap : IsGap tail

namespace Layout

/-- The bytes of a layout. -/
def bytes (l : Layout) : Bytes := Piece.join l.pieces ++ l.tail

/-- No lexeme of the layout runs into what follows it. -/
def Settled (l : Layout) : Prop := Piece.Settled l.tail l.pieces

/-- A layout with one more piece in front. -/
def cons (p : Piece) (l : Layout) : Layout := { l with pieces := p :: l.pieces }

@[simp] theorem bytes_cons (p : Piece) (l : Layout) : (l.cons p).bytes = p.bytes ++ l.bytes := by
  simp [cons, bytes, Piece.bytes]

theorem settled_cons {p : Piece} {l : Layout} :
    (l.cons p).Settled ↔ p.kind.StopsBefore l.bytes ∧ l.Settled := Iff.rfl

end Layout

/-! ## Where the tokens of pieces stand -/

namespace Piece

variable {k : Nat} {t : Token} {pieces : List Piece}

theorem join_append (pieces more : List Piece) :
    join (pieces ++ more) = join pieces ++ join more := by
  simp [join]

theorem tokens_append (k : Nat) (pieces more : List Piece) :
    tokens k (pieces ++ more) = tokens k pieces ++ tokens (k + (join pieces).length) more := by
  induction pieces generalizing k with
  | nil => simp [tokens]
  | cons p pieces ih =>
      have hlen : k + p.bytes.length + (join pieces).length =
          k + (join (p :: pieces)).length := by
        simp only [length_bytes, join_cons, List.length_append]
        omega
      rw [List.cons_append, tokens, tokens, ih, hlen, List.cons_append]

theorem exists_of_tokens_eq_append {ts us : List Token} (h : tokens k pieces = ts ++ us) :
    ∃ before after, pieces = before ++ after ∧ tokens k before = ts ∧
      tokens (k + (join before).length) after = us := by
  have hlen := congrArg List.length h
  rw [length_tokens, List.length_append] at hlen
  have hsplit := pieces.take_append_drop ts.length
  have happend := tokens_append k (pieces.take ts.length) (pieces.drop ts.length)
  rw [hsplit, h] at happend
  have htake : ts.length = (tokens k (pieces.take ts.length)).length := by
    rw [length_tokens, List.length_take]
    omega
  rcases List.append_inj happend htake with ⟨hts, hus⟩
  exact ⟨_, _, hsplit.symm, hts.symm, hus.symm⟩

/-- Each token belongs to the piece in the same place, and stands behind the pieces before it. -/
theorem exists_of_getElem?_tokens {i : Nat} (h : (tokens k pieces)[i]? = some t) :
    ∃ before p after, pieces = before ++ p :: after ∧ before.length = i ∧
      t = p.token (k + (join before).length) := by
  induction pieces generalizing k i with
  | nil => simp [tokens] at h
  | cons p pieces ih =>
      cases i with
      | zero =>
          rw [tokens, List.getElem?_cons_zero, Option.some.injEq] at h
          exact ⟨[], p, pieces, rfl, rfl, h.symm⟩
      | succ i =>
          rw [tokens, List.getElem?_cons_succ] at h
          rcases ih h with ⟨before, q, after, rfl, rfl, rfl⟩
          refine ⟨p :: before, q, after, rfl, rfl, ?_⟩
          rw [join_cons, ← List.append_assoc, ← bytes, List.length_append, Nat.add_assoc]

theorem exists_of_mem_tokens (h : t ∈ tokens k pieces) :
    ∃ before p after, pieces = before ++ p :: after ∧ t = p.token (k + (join before).length) := by
  rcases List.mem_iff_getElem?.mp h with ⟨i, hi⟩
  rcases exists_of_getElem?_tokens hi with ⟨before, p, after, hp, -, ht⟩
  exact ⟨before, p, after, hp, ht⟩

theorem le_start_of_mem_tokens (h : t ∈ tokens k pieces) : k ≤ t.span.start := by
  rcases exists_of_mem_tokens h with ⟨before, p, after, -, rfl⟩
  rw [start_token]
  omega

theorem settled_append {tail : Bytes} {before after : List Piece} {p : Piece}
    (h : Settled tail (before ++ p :: after)) : p.kind.StopsBefore (join after ++ tail) := by
  induction before with
  | nil => exact h.1
  | cons q before ih => exact ih h.2

theorem start_lt_stop (k : Nat) (p : Piece) : (p.token k).span.start < (p.token k).span.stop := by
  have hp := p.lexeme_length_pos
  rw [start_token, stop_token, length_bytes]
  omega

theorem isChain_tokens (k : Nat) (pieces : List Piece) :
    (tokens k pieces).IsChain fun t u => t.span.stop ≤ u.span.start := by
  induction pieces generalizing k with
  | nil => exact .nil
  | cons p pieces ih =>
      rw [tokens, List.isChain_cons]
      refine ⟨fun u hu => ?_, ih _⟩
      rw [stop_token]
      exact le_start_of_mem_tokens (List.mem_of_mem_head? hu)

theorem isBlank_of_not_mem_tokens {tail : Bytes} (htail : IsGap tail) {i : Nat} {b : UInt8}
    (hb : (join pieces ++ tail)[i]? = some b)
    (hi : ∀ t ∈ tokens k pieces, ¬ (t.span.start ≤ k + i ∧ k + i < t.span.stop)) :
    Byte.isBlank b = true := by
  induction pieces generalizing k i with
  | nil => exact htail b (List.mem_of_getElem? hb)
  | cons p pieces ih =>
      have hbytes : join (p :: pieces) ++ tail = p.bytes ++ (join pieces ++ tail) := by
        simp [bytes]
      rw [hbytes] at hb
      have hp := hi (p.token k) List.mem_cons_self
      rw [start_token, stop_token] at hp
      by_cases hgap : i < p.gap.length
      · rw [bytes, List.append_assoc, List.getElem?_append_left hgap] at hb
        exact p.isGap b (List.mem_of_getElem? hb)
      · -- The byte is behind the blanks, and not in the lexeme, so it is behind the piece.
        have hlen : p.bytes.length ≤ i := by omega
        rw [List.getElem?_append_right hlen] at hb
        apply ih hb
        intro t ht
        have hnot := hi t (List.mem_cons_of_mem _ ht)
        have he : k + p.bytes.length + (i - p.bytes.length) = k + i := by omega
        rwa [he]

theorem drop_start_token {bytes before rest : Bytes} {p : Piece}
    (h : bytes = before ++ (p.bytes ++ rest)) :
    bytes.drop (p.token before.length).span.start = p.lexeme ++ rest := by
  rw [h, start_token, ← List.drop_drop, List.drop_left, Piece.bytes, List.append_assoc,
    List.drop_left]

theorem slice_token {bytes before rest : Bytes} {p : Piece}
    (h : bytes = before ++ (p.bytes ++ rest)) :
    (p.token before.length).span.slice bytes = .ok p.lexeme := by
  have hle : (p.token before.length).span.stop ≤ bytes.length := by
    rw [h, stop_token, List.length_append, List.length_append]
    omega
  have hwidth : (p.token before.length).span.width = p.lexeme.length := by
    rw [Span.width, start_token, stop_token, length_bytes]
    omega
  rw [Span.slice_of_le hle, drop_start_token h, hwidth, List.take_left]

theorem forall₂_slice_tokens {bytes : Bytes} (tail before : Bytes)
    (h : bytes = before ++ (join pieces ++ tail)) :
    List.Forall₂ (fun p t => t.kind = p.kind ∧ t.span.slice bytes = .ok p.lexeme) pieces
      (tokens before.length pieces) := by
  induction pieces generalizing before with
  | nil => exact .nil
  | cons p pieces ih =>
      have hp : bytes = before ++ (p.bytes ++ (join pieces ++ tail)) := by
        rw [h, join_cons, Piece.bytes]
        simp only [List.append_assoc]
      refine .cons ⟨rfl, slice_token hp⟩ ?_
      have hrest := ih (before ++ p.bytes) (by rw [hp, List.append_assoc])
      rwa [List.length_append] at hrest

end Piece

theorem Layout.bytes_of_pieces (l : Layout) {before after : List Piece} {p : Piece}
    (h : l.pieces = before ++ p :: after) :
    l.bytes = Piece.join before ++ (p.bytes ++ (Piece.join after ++ l.tail)) := by
  rw [bytes, h, Piece.join_append, Piece.join_cons, Piece.bytes]
  simp only [List.append_assoc]

/-! ## Any bytes have a settled layout -/

theorem isGap_takeWhile (bytes : Bytes) : IsGap (bytes.takeWhile Byte.isBlank) :=
  fun _ hb => List.mem_takeWhile_imp hb

theorem exists_piece (gap : Bytes) (hgap : IsGap gap) {b : UInt8} (rest : Bytes)
    (hb : Byte.isBlank b = false) :
    ∃ p : Piece, ∃ tail, gap ++ b :: rest = p.bytes ++ tail ∧ p.kind.StopsBefore tail := by
  rcases munch_spells hb rest with ⟨hs, ht⟩
  refine ⟨⟨gap, _, _, hgap, hs⟩, _, ?_, ht⟩
  rw [Piece.bytes, List.append_assoc, List.take_append_drop]

/-- Any bytes are pieces and blanks, with every lexeme as long as it can be. -/
theorem exists_layout (bytes : Bytes) : ∃ l : Layout, l.bytes = bytes ∧ l.Settled := by
  -- Induction on the length: what is left behind the first piece is shorter.
  induction hn : bytes.length using Nat.strong_induction_on generalizing bytes with
  | _ n ih =>
      have hgap := isGap_takeWhile bytes
      have hbytes : bytes.takeWhile Byte.isBlank ++ bytes.dropWhile Byte.isBlank = bytes :=
        List.takeWhile_append_dropWhile
      cases hrest : bytes.dropWhile Byte.isBlank with
      | nil =>
          rw [hrest, List.append_nil] at hbytes
          exact ⟨⟨[], bytes, hbytes ▸ hgap⟩, rfl, trivial⟩
      | cons b rest =>
          have hb : Byte.isBlank b = false := by
            have hnot := List.head?_dropWhile_not Byte.isBlank bytes
            rw [hrest] at hnot
            simpa using hnot
          rcases exists_piece _ hgap rest hb with ⟨p, tail, hp, hstop⟩
          rw [hrest, hp] at hbytes
          have hlt : tail.length < n := by
            have hpos := p.lexeme_length_pos
            rw [← hn, ← hbytes, List.length_append, Piece.length_bytes]
            omega
          rcases ih tail.length hlt tail rfl with ⟨l, rfl, hsettled⟩
          refine ⟨l.cons p, ?_, Layout.settled_cons.mpr ⟨hstop, hsettled⟩⟩
          rw [Layout.bytes_cons, hbytes]

/-! ## Scanning a layout -/

theorem takeWhile_gap {gap tail : Bytes} (hgap : IsGap gap)
    (ht : ∀ b, tail.head? = some b → Byte.isBlank b = false) :
    (gap ++ tail).takeWhile Byte.isBlank = gap ∧ (gap ++ tail).dropWhile Byte.isBlank = tail := by
  rw [List.takeWhile_append_of_pos hgap, List.dropWhile_append_of_pos hgap]
  cases tail with
  | nil => simp
  | cons b rest => simp [ht b rfl]

/-- The token that stands for the end of the given source. -/
def Token.endOf (bytes : Bytes) : Token where
  kind := .endOfInput
  span := { start := bytes.length, stop := bytes.length }

/-- Where only blanks are left, a scan finds the end of the input. -/
theorem scan_of_isGap {bytes : Bytes} {k : Nat} (hk : k ≤ bytes.length)
    (h : IsGap (bytes.drop k)) : scan bytes k = .ok (Token.endOf bytes) := by
  have htape := @takeWhile_gap (bytes.drop k) [] h (by simp)
  rw [List.append_nil] at htape
  have hlen : (k : Int) + ((bytes.drop k).length : Nat) = (bytes.length : Nat) := by
    rw [List.length_drop]
    omega
  simp only [scan, Tape.ofOffset_natCast, Tape.skipBlanks, Tape.token, htape.1, htape.2, hlen]
  exact Token.ofBounds_natCast _ (Nat.le_refl _)

theorem scan_of_munch {bytes gap rest : Bytes} {k width : Nat} {b : UInt8} {kind : TokenKind}
    (hgap : IsGap gap) (hb : Byte.isBlank b = false) (h : bytes.drop k = gap ++ b :: rest)
    (hm : munch b rest = (kind, width)) :
    scan bytes k =
      .ok
        { kind
          span :=
            { start := k + gap.length
              stop := k + gap.length + width } } := by
  have htape := @takeWhile_gap gap (b :: rest) hgap (by simpa using hb)
  rw [← h] at htape
  simp only [scan, Tape.ofOffset_natCast, Tape.skipBlanks, Tape.token, htape.1, htape.2, hm]
  rw [← Int.natCast_add, ← Int.natCast_add]
  exact Token.ofBounds_natCast _ (Nat.le_add_right _ _)

/-- A scan finds the token of the piece that comes next exactly if the piece is settled. -/
theorem scan_eq_token_iff {bytes tail : Bytes} {k : Nat} {p : Piece}
    (h : bytes.drop k = p.bytes ++ tail) :
    scan bytes k = .ok (p.token k) ↔ p.kind.StopsBefore tail := by
  rcases p.spells.exists_head with ⟨b, rest, hl, hb⟩
  have hbytes : bytes.drop k = p.gap ++ b :: (rest ++ tail) := by
    rw [h, Piece.bytes, hl]
    simp only [List.append_assoc, List.cons_append]
  have hcons : b :: (rest ++ tail) = p.lexeme ++ tail := by
    rw [hl, List.cons_append]
  have hmunch := @munch_eq_iff p.kind _ _ _ _ hb hcons
  constructor
  · intro he
    rw [scan_of_munch p.isGap hb hbytes rfl] at he
    have ht := Except.ok.inj he
    have hkind : (munch b (rest ++ tail)).1 = p.kind := congrArg Token.kind ht
    have hstop : k + p.gap.length + (munch b (rest ++ tail)).2 =
        k + p.gap.length + p.lexeme.length := congrArg (fun t => t.span.stop) ht
    have hwidth : (munch b (rest ++ tail)).2 = p.lexeme.length := by omega
    exact (hmunch.mp (Prod.ext hkind hwidth)).2
  · intro hstop
    exact scan_of_munch p.isGap hb hbytes (hmunch.mpr ⟨p.spells, hstop⟩)

end LetLang
