import LetLang.Proofs.Layout
import LetLang.Tokenize

/-!
# The tokens ahead of a cursor

`Ahead bytes k ts` says that a cursor at offset `k` of the bytes has exactly the tokens `ts` in front
of it, and then the end of the input for ever. There is always one such list (`exists_ahead`,
`Ahead.unique`), and it is the tokens of a settled layout of what is left (`ahead_iff_layout`).

Main statement: `Source.tokenize_eq_iff`. Tokenizing a source gives the tokens ahead of its start,
followed by the end of the input once. What pulls tokens from a cursor needs nothing else.
-/

namespace LetLang

/-- The cursor at offset `k` has exactly these tokens in front of it. -/
def Ahead (bytes : Bytes) : Nat → List Token → Prop
  | k, [] => scan bytes k = .ok (Token.endOf bytes)
  | k, t :: ts => scan bytes k = .ok t ∧ t.kind ≠ .endOfInput ∧ Ahead bytes t.span.stop ts

namespace Ahead

variable {bytes : Bytes} {k : Nat} {t : Token} {ts us : List Token}

theorem unique (h : Ahead bytes k ts) (h' : Ahead bytes k us) : ts = us := by
  induction ts generalizing k us with
  | nil =>
      cases us with
      | nil => rfl
      | cons u us =>
          have he := Except.ok.inj (h'.1.symm.trans h)
          exact absurd (congrArg Token.kind he) h'.2.1
  | cons t ts ih =>
      cases us with
      | nil =>
          have he := Except.ok.inj (h.1.symm.trans h')
          exact absurd (congrArg Token.kind he) h.2.1
      | cons u us =>
          obtain rfl := Except.ok.inj (h.1.symm.trans h'.1)
          rw [ih h.2.2 h'.2.2]

theorem kind_ne (h : Ahead bytes k ts) (ht : t ∈ ts) : t.kind ≠ .endOfInput := by
  induction ts generalizing k with
  | nil => simp at ht
  | cons u us ih =>
      rcases List.mem_cons.mp ht with rfl | ht
      · exact h.2.1
      · exact ih h.2.2 ht

end Ahead

/-- At the end of the bytes nothing is ahead. -/
theorem ahead_length (bytes : Bytes) : Ahead bytes bytes.length [] := by
  apply scan_of_isGap (Nat.le_refl _)
  simp [IsGap]

/-- The tokens of a layout of what is left are ahead exactly if the layout is settled. -/
theorem ahead_tokens_iff {bytes : Bytes} {k : Nat} {l : Layout} (hk : k ≤ bytes.length)
    (h : bytes.drop k = l.bytes) : Ahead bytes k (Piece.tokens k l.pieces) ↔ l.Settled := by
  rcases l with ⟨pieces, tail, hgap⟩
  induction pieces generalizing k with
  | nil =>
      have hend : scan bytes k = .ok (Token.endOf bytes) := scan_of_isGap hk (h ▸ hgap)
      exact ⟨fun _ => trivial, fun _ => hend⟩
  | cons p pieces ih =>
      have hp : bytes.drop k = p.bytes ++ (Layout.mk pieces tail hgap).bytes :=
        h.trans (Layout.bytes_cons p ⟨pieces, tail, hgap⟩)
      have hrest : bytes.drop (k + p.bytes.length) = (Layout.mk pieces tail hgap).bytes := by
        rw [← List.drop_drop, hp, List.drop_left]
      have hle : k + p.bytes.length ≤ bytes.length := by
        have hlen := congrArg List.length hp
        rw [List.length_drop, List.length_append] at hlen
        omega
      have hscan := scan_eq_token_iff hp
      have ih' := ih hle hrest
      simp only [Piece.tokens, Ahead, Piece.kind_token, Piece.stop_token, hscan, ih']
      exact ⟨fun hs => ⟨hs.1, hs.2.2⟩, fun hs => ⟨hs.1, p.kind_ne_endOfInput, hs.2⟩⟩

theorem ahead_iff_layout {bytes : Bytes} {k : Nat} {ts : List Token} (hk : k ≤ bytes.length) :
    Ahead bytes k ts ↔
      ∃ l : Layout, bytes.drop k = l.bytes ∧ l.Settled ∧ ts = Piece.tokens k l.pieces := by
  constructor
  · intro h
    rcases exists_layout (bytes.drop k) with ⟨l, hl, hs⟩
    exact ⟨l, hl.symm, hs, h.unique ((ahead_tokens_iff hk hl.symm).mpr hs)⟩
  · rintro ⟨l, hl, hs, rfl⟩
    exact (ahead_tokens_iff hk hl).mpr hs

theorem exists_ahead {bytes : Bytes} {k : Nat} (hk : k ≤ bytes.length) :
    ∃ ts, Ahead bytes k ts := by
  rcases exists_layout (bytes.drop k) with ⟨l, hl, hs⟩
  exact ⟨_, (ahead_tokens_iff hk hl.symm).mpr hs⟩

/-! ## Bounds -/

theorem scan_of_length_le {bytes : Bytes} {k : Nat} (h : bytes.length ≤ k) :
    scan bytes k = .ok { kind := .endOfInput, span := { start := k, stop := k } } := by
  have hdrop : bytes.drop k = [] := List.drop_eq_nil_of_le h
  simp only [scan, Tape.ofOffset_natCast, Tape.skipBlanks, Tape.token, hdrop, List.takeWhile_nil,
    List.dropWhile_nil, List.length_nil, Int.ofNat_zero, Int.add_zero]
  exact Token.ofBounds_natCast _ (Nat.le_refl _)

namespace Ahead

variable {bytes : Bytes} {k : Nat} {t : Token} {ts : List Token}

/-- Past the end of the bytes, a scan does not find the end of the input where it is. -/
theorem le_length (h : Ahead bytes k ts) : k ≤ bytes.length := by
  by_contra hlt
  have hscan := @scan_of_length_le bytes k (by omega)
  cases ts with
  | nil =>
      have hend := Except.ok.inj (hscan.symm.trans h)
      have hstart : k = bytes.length := congrArg (fun t => t.span.start) hend
      omega
  | cons t ts =>
      have ht := Except.ok.inj (hscan.symm.trans h.1)
      exact h.2.1 (ht ▸ rfl)

theorem length_le (h : Ahead bytes k ts) : k + ts.length ≤ bytes.length := by
  have hk := h.le_length
  rcases (ahead_iff_layout hk).mp h with ⟨l, hl, -, rfl⟩
  have hlen := congrArg List.length hl
  have hp := Piece.length_le_length_join l.pieces
  rw [List.length_drop, Layout.bytes, List.length_append] at hlen
  rw [Piece.length_tokens]
  omega

theorem stop_le (h : Ahead bytes k ts) (ht : t ∈ ts) : t.span.stop ≤ bytes.length := by
  induction ts generalizing k with
  | nil => simp at ht
  | cons u us ih =>
      rcases List.mem_cons.mp ht with rfl | ht
      · exact h.2.2.le_length
      · exact ih h.2.2 ht

theorem le_start (h : Ahead bytes k ts) (ht : t ∈ ts) : k ≤ t.span.start := by
  obtain ⟨l, -, -, rfl⟩ := (ahead_iff_layout h.le_length).mp h
  exact Piece.le_start_of_mem_tokens ht

theorem start_lt_stop (h : Ahead bytes k ts) (ht : t ∈ ts) : t.span.start < t.span.stop := by
  obtain ⟨l, -, -, rfl⟩ := (ahead_iff_layout h.le_length).mp h
  obtain ⟨before, p, after, -, rfl⟩ := Piece.exists_of_mem_tokens ht
  exact Piece.start_lt_stop _ p

end Ahead

/-! ## Pulling tokens -/

namespace Cursor

variable {bytes : Bytes} {k : Nat} {ts : List Token}

theorem peek_of_ahead (h : Ahead bytes k ts) :
    (Cursor.mk bytes k).peek = .ok (ts.headD (Token.endOf bytes)) := by
  cases ts with
  | nil => exact h
  | cons t ts => exact h.1

theorem next_of_ahead (h : Ahead bytes k ts) :
    let t := ts.headD (Token.endOf bytes)
    (Cursor.mk bytes k).next = .ok (t, Cursor.mk bytes t.span.stop) ∧
      Ahead bytes t.span.stop ts.tail := by
  refine ⟨?_, ?_⟩
  · rw [next, peek_of_ahead h]
  · cases ts with
    | nil => exact ahead_length bytes
    | cons t ts => exact h.2.2

/-- Asked for more tokens than are ahead, a cursor gives all of them and ends at the end. -/
theorem take_of_ahead {n : Nat} (h : Ahead bytes k ts) (hn : ts.length < n) :
    (Cursor.mk bytes k).take n = .ok (ts, Cursor.mk bytes bytes.length) := by
  induction ts generalizing k n with
  | nil =>
      rcases Nat.exists_eq_succ_of_ne_zero (Nat.ne_of_gt hn) with ⟨n, rfl⟩
      have hnext := (next_of_ahead h).1
      simp only [List.headD_nil] at hnext
      rw [take, hnext]
      rfl
  | cons t ts ih =>
      rcases Nat.exists_eq_succ_of_ne_zero (Nat.ne_of_gt (Nat.zero_lt_of_lt hn)) with ⟨n, rfl⟩
      have hnext := (next_of_ahead h).1
      simp only [List.headD_cons] at hnext
      have hlen : ts.length < n := by simpa using hn
      rw [take, hnext]
      simp only [if_neg h.2.1, ih h.2.2 hlen]

theorem tokenize_of_ahead (h : Ahead bytes k ts) :
    (Cursor.mk bytes k).tokenize =
      .ok (ts ++ [Token.endOf bytes], Cursor.mk bytes bytes.length) := by
  have hlen := h.length_le
  have htake := take_of_ahead (n := bytes.length + 1) h (by omega)
  have hnext := (next_of_ahead (ahead_length bytes)).1
  simp only [List.headD_nil] at hnext
  rw [tokenize, rest, htake]
  simp only [hnext]
  rfl

end Cursor

/-- Tokenizing gives the tokens ahead of the start, and the end of the input once. -/
theorem Source.tokenize_eq_iff {source : Source} {bytes : Bytes} {ts : List Token}
    (h : source.buffer = .ok bytes) :
    source.tokenize = .ok (ts ++ [Token.endOf bytes]) ↔ Ahead bytes 0 ts := by
  rcases exists_ahead (Nat.zero_le bytes.length) with ⟨us, hus⟩
  have ht := Cursor.tokenize_of_ahead hus
  have hsource : source.tokenize = .ok (us ++ [Token.endOf bytes]) := by
    rw [tokenize, h]
    simp only [Int.ofNat_zero] at ht
    simp only [ht]
  rw [hsource]
  constructor
  · intro he
    have heq := List.append_cancel_right (Except.ok.inj he)
    exact heq ▸ hus
  · intro hts
    rw [hts.unique hus]

end LetLang
