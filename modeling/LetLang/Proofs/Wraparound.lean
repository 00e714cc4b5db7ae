import Mathlib.Data.Int.LeastGreatest
import LetLang.Proofs.LeastIndex
import LetLang.Proofs.Pulling
import LetLang.Proofs.Refusal

/-!
# Scanning from any integer

A cursor may stand at any integer. Past the end there is nothing but the end of the input. A
negative index counts from the end of the bytes, but index `-1` holds none (`Wrapped.at?`), and
behind it the bytes start again. A tape shows just this (`Tape.Shows`), so a scan from a negative
offset is a scan of the cells of a tape, and where its token stops can be said by least indices
again, now of integers (`Wrapped.StopsAt`).

Main statement: `scan_from_any_integer`. A scan is refused exactly if a byte that is no blank comes
before index `-1`, and then the refusal names the bounds that the token would have. What pulls
tokens from a cursor ends, and it is refused exactly if its first scan is.
-/

namespace LetLang

/-! ## What an integer index holds -/

namespace Wrapped

/--
The byte that a slice of width one holds, if it holds one. A negative index counts from the end, but
the slice at `-1` ends where the bytes begin, so the last byte cannot be reached in this way.
-/
def at? (bytes : Bytes) (i : Int) : Option UInt8 :=
  if 0 ≤ i then bytes[i.toNat]?
  else if -bytes.length ≤ i ∧ i ≤ -2 then bytes[(bytes.length + i).toNat]?
  else none

/-- From the offset on, the negative index holds a byte that is not blank. -/
def VisibleAt (bytes : Bytes) (offset p : Int) : Prop :=
  max offset (-bytes.length) ≤ p ∧ p ≤ -2 ∧
    ∃ b, at? bytes p = some b ∧ Byte.isBlank b = false

/-- The index holds a delimiter, or no byte. -/
def DelimitedAt (bytes : Bytes) (i : Int) : Prop :=
  ∀ b, at? bytes i = some b → Byte.isDelimiter b = true

/-- The index is before the end and holds a quote, and the one before it holds no backslash. -/
def ClosedAt (bytes : Bytes) (i : Int) : Prop :=
  i < bytes.length ∧ at? bytes i = some Byte.quote ∧ at? bytes (i - 1) ≠ some Byte.backslash

/-- Where the token that starts at the index stops. -/
inductive StopsAt (bytes : Bytes) (p : Int) : Int → Prop
  | mark {c : Char} {s : Symbol} (hmark : (c, s) ∈ marks) (hp : at? bytes p = some c.toUInt8) :
      StopsAt bytes p (p + 1)
  | simple {c : Char} {simple compound : Symbol} (hmark : (c, simple, compound) ∈ openMarks)
      (hp : at? bytes p = some c.toUInt8) (hnext : at? bytes (p + 1) ≠ some Byte.equals) :
      StopsAt bytes p (p + 1)
  | compound {c : Char} {simple compound : Symbol} (hmark : (c, simple, compound) ∈ openMarks)
      (hp : at? bytes p = some c.toUInt8) (hnext : at? bytes (p + 1) = some Byte.equals) :
      StopsAt bytes p (p + 2)
  | string {i : Int} (hp : at? bytes p = some Byte.quote)
      (hi : IsLeast {j | p < j ∧ ClosedAt bytes j} i) : StopsAt bytes p (i + 1)
  | illegal (hp : at? bytes p = some Byte.quote) (hopen : ∀ j, p < j → ¬ ClosedAt bytes j) :
      StopsAt bytes p bytes.length
  | word {b : UInt8} {stop : Int} (hp : at? bytes p = some b) (hb : b ∉ Byte.marked)
      (hstop : IsLeast {j | p < j ∧ DelimitedAt bytes j} stop) : StopsAt bytes p stop

theorem at?_natCast (bytes : Bytes) (i : Nat) : at? bytes i = bytes[i]? := by
  rw [at?, if_pos (by omega), Int.toNat_natCast]

theorem at?_neg_one (bytes : Bytes) : at? bytes (-1) = none := by
  rw [at?, if_neg (by omega), if_neg (by omega)]

theorem at?_of_le_neg_two {bytes : Bytes} {i : Int} (hlow : -bytes.length ≤ i) (hhigh : i ≤ -2) :
    at? bytes i = bytes[(bytes.length + i).toNat]? := by
  rw [at?, if_neg (by omega), if_pos ⟨hlow, hhigh⟩]

theorem le_of_at?_eq_some {bytes : Bytes} {i : Int} {b : UInt8} (h : at? bytes i = some b)
    (hneg : i < 0) : -bytes.length ≤ i ∧ i ≤ -2 := by
  by_contra hout
  rw [at?, if_neg (by omega), if_neg hout] at h
  contradiction

theorem mem_marked_of_mem_marks : ∀ mark ∈ marks, mark.1.toUInt8 ∈ Byte.marked := by
  decide

theorem mem_marked_of_mem_openMarks : ∀ mark ∈ openMarks, mark.1.toUInt8 ∈ Byte.marked := by
  decide

/-- A word that starts in the negative part stops there. -/
theorem StopsAt.le_neg_one {bytes : Bytes} {p stop : Int} {b : UInt8} (h : StopsAt bytes p stop)
    (hp : at? bytes p = some b) (hb : b ∉ Byte.marked) (hneg : p ≤ -2) : stop ≤ -1 := by
  cases h with
  | mark hmark hc =>
      obtain rfl := Option.some.inj (hp.symm.trans hc)
      exact absurd (mem_marked_of_mem_marks _ hmark) hb
  | simple hmark hc =>
      obtain rfl := Option.some.inj (hp.symm.trans hc)
      exact absurd (mem_marked_of_mem_openMarks _ hmark) hb
  | compound hmark hc =>
      obtain rfl := Option.some.inj (hp.symm.trans hc)
      exact absurd (mem_marked_of_mem_openMarks _ hmark) hb
  | string hc =>
      obtain rfl := Option.some.inj (hp.symm.trans hc)
      exact absurd (by decide) hb
  | illegal hc =>
      obtain rfl := Option.some.inj (hp.symm.trans hc)
      exact absurd (by decide) hb
  | word _ _ hstop =>
      -- Index `-1` holds nothing, which counts as a delimiter.
      refine hstop.2 ⟨show p < -1 by omega, fun c hc => ?_⟩
      rw [at?_neg_one] at hc
      contradiction

end Wrapped

/-! ## What a tape shows -/

/-- The cells of a tape are what the indices from its start on hold, with a blank at index `-1`. -/
structure Tape.Shows (tape : Tape) (bytes : Bytes) : Prop where
  blank : ∀ q : Nat, tape.start + q = -1 → tape.cells[q]? = some Byte.space
  byte : ∀ q : Nat, tape.start + q ≠ -1 → tape.cells[q]? = Wrapped.at? bytes (tape.start + q)
  stop : tape.start + tape.cells.length = bytes.length

/-- The negative part of a tape starts at the offset, or with the bytes if there are fewer. -/
theorem Tape.shows_ofOffset_negSucc (bytes : Bytes) (k : Nat) :
    (ofOffset bytes (Int.negSucc k)).Shows bytes := by
  set wrapped := (bytes.drop (bytes.length - (k + 1))).dropLast with hwrapped
  have htape : ofOffset bytes (Int.negSucc k) =
      { start := -(wrapped.length + 1), cells := wrapped ++ Byte.space :: bytes } := rfl
  have hlength : wrapped.length = min (k + 1) bytes.length - 1 := by
    rw [hwrapped, List.length_dropLast, List.length_drop]
    omega
  have hget : ∀ q < wrapped.length, wrapped[q]? = bytes[bytes.length - (k + 1) + q]? := by
    intro q hq
    rw [hwrapped, List.getElem?_dropLast, List.length_drop, if_pos (by omega), List.getElem?_drop]
  rw [htape]
  constructor
  case blank =>
    intro q hq
    obtain rfl : q = wrapped.length := by
      simp only at hq
      omega
    simp
  case byte =>
    intro q hq
    simp only at hq ⊢
    by_cases hlt : q < wrapped.length
    · rw [List.getElem?_append_left hlt, hget q hlt,
        Wrapped.at?_of_le_neg_two (by omega) (by omega)]
      congr 1
      omega
    · obtain ⟨i, rfl⟩ : ∃ i, q = wrapped.length + (i + 1) := ⟨q - wrapped.length - 1, by omega⟩
      have hindex : -((wrapped.length : Int) + 1) + (wrapped.length + (i + 1) : Nat) = i := by
        omega
      rw [hindex, Wrapped.at?_natCast, List.getElem?_append_right (by omega),
        Nat.add_sub_cancel_left, List.getElem?_cons_succ]
  case stop =>
    simp only [List.length_append, List.length_cons]
    omega

/-- The negative part begins at the offset, or with the bytes if there are fewer. -/
theorem Tape.start_ofOffset_negSucc {bytes : Bytes} (hne : bytes ≠ []) (k : Nat) :
    (ofOffset bytes (Int.negSucc k)).start = max (Int.negSucc k) (-bytes.length) := by
  have hpos := List.length_pos_iff.mpr hne
  have hoffset : Int.negSucc k = -(k + 1) := Int.negSucc_eq k
  rw [ofOffset, hoffset]
  simp only [List.length_dropLast, List.length_drop]
  omega

namespace Tape.Shows

variable {tape : Tape} {bytes : Bytes} {q : Nat}

theorem cells_cases (h : tape.Shows bytes) (q : Nat) :
    tape.cells[q]? = Wrapped.at? bytes (tape.start + q) ∨
      tape.cells[q]? = some Byte.space ∧ Wrapped.at? bytes (tape.start + q) = none := by
  by_cases hq : tape.start + q = -1
  · exact Or.inr ⟨h.blank q hq, by rw [hq, Wrapped.at?_neg_one]⟩
  · exact Or.inl (h.byte q hq)

/-- No byte but the space is shown where there is none. -/
theorem cells_eq_some_iff (h : tape.Shows bytes) {b : UInt8} (hb : b ≠ Byte.space) (q : Nat) :
    tape.cells[q]? = some b ↔ Wrapped.at? bytes (tape.start + q) = some b := by
  rcases h.cells_cases q with heq | ⟨hspace, hnone⟩
  · rw [heq]
  · rw [hspace, hnone]
    simp [hb.symm]

theorem delimitedAt_iff (h : tape.Shows bytes) (q : Nat) :
    DelimitedAt tape.cells q ↔ Wrapped.DelimitedAt bytes (tape.start + q) := by
  rw [DelimitedAt, Wrapped.DelimitedAt]
  rcases h.cells_cases q with heq | ⟨hspace, hnone⟩
  · rw [heq]
  · have hdelimiter : Byte.isDelimiter Byte.space = true := by decide
    simp [hspace, hnone, hdelimiter]

theorem closedAt_iff (h : tape.Shows bytes) (hq : 0 < q) :
    ClosedAt tape.cells q ↔ Wrapped.ClosedAt bytes (tape.start + q) := by
  have hprevious : tape.start + q - 1 = tape.start + (q - 1 : Nat) := by omega
  rw [ClosedAt, Wrapped.ClosedAt, hprevious, h.cells_eq_some_iff (by decide),
    Ne, h.cells_eq_some_iff (by decide)]
  constructor
  · rintro ⟨hquote, hopen⟩
    have hcell := (h.cells_eq_some_iff (by decide) q).mpr hquote
    obtain ⟨hlt, -⟩ := List.getElem?_eq_some_iff.mp hcell
    have hstop := h.stop
    exact ⟨by omega, hquote, hopen⟩
  · exact fun hclosed => hclosed.2

end Tape.Shows

/-- A least index of a tape's cells is a least integer, moved by where the tape starts. -/
theorem isLeast_add_iff {P : Int → Prop} {Q : Nat → Prop} {start : Int} {q : Nat}
    (h : ∀ j : Nat, q < j → (Q j ↔ P (start + j))) {m : Nat} :
    IsLeast {j | start + q < j ∧ P j} (start + m) ↔ IsLeast {j | q < j ∧ Q j} m := by
  constructor
  · rintro ⟨⟨hlt, hm⟩, hleast⟩
    have hqm : q < m := by omega
    refine ⟨⟨hqm, (h m hqm).mpr hm⟩, ?_⟩
    rintro j ⟨hqj, hj⟩
    have hle := hleast ⟨show start + q < start + j by omega, (h j hqj).mp hj⟩
    omega
  · rintro ⟨⟨hqm, hm⟩, hleast⟩
    refine ⟨⟨by omega, (h m hqm).mp hm⟩, ?_⟩
    rintro j ⟨hlt, hj⟩
    obtain ⟨i, rfl⟩ : ∃ i : Nat, j = start + i := ⟨(j - start).toNat, by omega⟩
    have hqi : q < i := by omega
    have hle := hleast ⟨hqi, (h i hqi).mpr hj⟩
    omega

/-- Past the start of a tape, a least integer is a least index of its cells. -/
theorem exists_isLeast_of_add {P : Int → Prop} {start i : Int} {q : Nat}
    (hi : IsLeast {j | start + q < j ∧ P j} i) : ∃ m : Nat, i = start + m := by
  have hlt := hi.1.1
  exact ⟨(i - start).toNat, by omega⟩

namespace Tape.Shows

variable {tape : Tape} {bytes : Bytes} {q : Nat}

/-- What is described at a cell is what is described at its index. -/
theorem stopsAt_of_tokenAt (h : tape.Shows bytes) (hq : tape.start + q ≠ -1) {kind : TokenKind}
    {stop : Nat} (ht : TokenAt tape.cells q kind stop) (hend : q < tape.cells.length) :
    Wrapped.StopsAt bytes (tape.start + q) (tape.start + stop) := by
  have hcell := h.byte q hq
  cases ht with
  | endOfInput hlength => omega
  | mark hmark hp =>
      rw [Int.natCast_add, ← Int.add_assoc]
      exact .mark hmark (hcell ▸ hp)
  | simple hmark hp hnext =>
      rw [Int.natCast_add, ← Int.add_assoc]
      refine .simple hmark (hcell ▸ hp) ?_
      rwa [Ne, h.cells_eq_some_iff (by decide), Int.natCast_add, ← Int.add_assoc] at hnext
  | compound hmark hp hnext =>
      rw [Int.natCast_add, ← Int.add_assoc]
      refine .compound hmark (hcell ▸ hp) ?_
      rwa [h.cells_eq_some_iff (by decide), Int.natCast_add, ← Int.add_assoc] at hnext
  | string hp hi =>
      rw [Int.natCast_add, ← Int.add_assoc]
      exact .string (hcell ▸ hp)
        ((isLeast_add_iff fun j hj => h.closedAt_iff (Nat.zero_lt_of_lt hj)).mpr hi)
  | illegal hp hopen =>
      rw [h.stop]
      refine .illegal (hcell ▸ hp) fun j hj hclosed => ?_
      obtain ⟨i, rfl⟩ : ∃ i : Nat, j = tape.start + i := ⟨(j - tape.start).toNat, by omega⟩
      have hqi : q < i := by omega
      exact hopen i hqi ((h.closedAt_iff (Nat.zero_lt_of_lt hqi)).mpr hclosed)
  | word hp hb hstop hkind =>
      exact .word (hcell ▸ hp) hb ((isLeast_add_iff fun j _ => h.delimitedAt_iff j).mpr hstop)

/-- What is described at an index is what is described at its cell. -/
theorem exists_tokenAt_of_stopsAt (h : tape.Shows bytes) (hq : tape.start + q ≠ -1) {stop : Int}
    (hs : Wrapped.StopsAt bytes (tape.start + q) stop) :
    ∃ kind, ∃ m : Nat, stop = tape.start + m ∧ TokenAt tape.cells q kind m := by
  have hcell := h.byte q hq
  cases hs with
  | mark hmark hp => exact ⟨_, q + 1, by omega, .mark hmark (hcell.trans hp)⟩
  | simple hmark hp hnext =>
      refine ⟨_, q + 1, by omega, .simple hmark (hcell.trans hp) ?_⟩
      rwa [Ne, h.cells_eq_some_iff (by decide), Int.natCast_add, ← Int.add_assoc]
  | compound hmark hp hnext =>
      refine ⟨_, q + 2, by omega, .compound hmark (hcell.trans hp) ?_⟩
      rwa [h.cells_eq_some_iff (by decide), Int.natCast_add, ← Int.add_assoc]
  | string hp hi =>
      obtain ⟨m, rfl⟩ := exists_isLeast_of_add hi
      refine ⟨_, m + 1, by omega, .string (hcell.trans hp) ?_⟩
      exact (isLeast_add_iff fun j hj => h.closedAt_iff (Nat.zero_lt_of_lt hj)).mp hi
  | illegal hp hopen =>
      refine ⟨_, tape.cells.length, h.stop.symm, .illegal (hcell.trans hp) fun j hj hclosed => ?_⟩
      exact hopen _ (by omega) ((h.closedAt_iff (Nat.zero_lt_of_lt hj)).mp hclosed)
  | word hp hb hstop =>
      obtain ⟨m, rfl⟩ := exists_isLeast_of_add hstop
      refine ⟨_, m, rfl, .word (hcell.trans hp) hb ?_ (classifies_wordKind _)⟩
      exact (isLeast_add_iff fun j _ => h.delimitedAt_iff j).mp hstop

/-- Where a scan of the cells stops is where a token stops that starts at the index. -/
theorem stopsAt_iff (h : tape.Shows bytes) (hq : tape.start + q ≠ -1) {b : UInt8} {rest : Bytes}
    (hdrop : tape.cells.drop q = b :: rest) (hb : Byte.isBlank b = false) {stop : Int} :
    Wrapped.StopsAt bytes (tape.start + q) stop ↔ stop = tape.start + q + (munch b rest).2 := by
  constructor
  · intro hs
    obtain ⟨kind, m, rfl, ht⟩ := h.exists_tokenAt_of_stopsAt hq hs
    obtain ⟨-, rfl⟩ := ht.munch_eq hdrop hb
    omega
  · rintro rfl
    have hlength := length_of_drop hdrop
    rw [Int.add_assoc, ← Int.natCast_add]
    exact h.stopsAt_of_tokenAt hq (tokenAt_munch hdrop hb) (by omega)

end Tape.Shows

/-! ## Scans from a negative offset -/

theorem Wrapped.visibleAt_iff (bytes : Bytes) (k q : Nat) :
    let tape := Tape.ofOffset bytes (Int.negSucc k)
    VisibleAt bytes (Int.negSucc k) (tape.start + q) ↔
      tape.start + q ≤ -2 ∧ ∃ b, tape.cells[q]? = some b ∧ Byte.isBlank b = false := by
  intro tape
  have hshows : tape.Shows bytes := Tape.shows_ofOffset_negSucc bytes k
  constructor
  · rintro ⟨-, hhigh, b, hb, hblank⟩
    exact ⟨hhigh, b, (hshows.byte q (by omega)).trans hb, hblank⟩
  · rintro ⟨hhigh, b, hb, hblank⟩
    rw [hshows.byte q (by omega)] at hb
    have hlow := (le_of_at?_eq_some hb (by omega)).1
    have hne : bytes ≠ [] := by
      rintro rfl
      simp only [List.length_nil] at hlow
      omega
    have hstart : tape.start = max (Int.negSucc k) (-bytes.length) :=
      Tape.start_ofOffset_negSucc hne k
    exact ⟨by omega, hhigh, b, hb, hblank⟩

/-- What is visible in the negative part has a cell on the tape. -/
theorem Wrapped.VisibleAt.exists_cell {bytes : Bytes} {k : Nat} {p : Int}
    (h : VisibleAt bytes (Int.negSucc k) p) :
    ∃ q : Nat, p = (Tape.ofOffset bytes (Int.negSucc k)).start + q := by
  obtain ⟨hlow, hhigh, b, hb, -⟩ := h
  have hne : bytes ≠ [] := by
    rintro rfl
    simp only [List.length_nil] at hlow
    omega
  have hstart := Tape.start_ofOffset_negSucc hne k
  exact ⟨(p - (Tape.ofOffset bytes (Int.negSucc k)).start).toNat, by omega⟩

theorem Wrapped.exists_isLeast {bytes : Bytes} {offset : Int} (h : ∃ p, VisibleAt bytes offset p) :
    ∃ p, IsLeast {p | VisibleAt bytes offset p} p := by
  obtain ⟨p, hp, hleast⟩ := Int.exists_least_of_bdd ⟨offset, fun p hp => (max_le_iff.mp hp.1).1⟩ h
  exact ⟨p, hp, hleast⟩

variable {bytes : Bytes} {offset p : Int}

theorem scan_of_not_visibleAt (hneg : offset < 0)
    (h : ∀ p, ¬ Wrapped.VisibleAt bytes offset p) : scan bytes offset = scan bytes 0 := by
  obtain ⟨k, rfl⟩ := Int.eq_negSucc_of_lt_zero hneg
  apply scan_negSucc_of_isGap
  intro b hb
  by_contra hvisible
  obtain ⟨q, hq⟩ := List.mem_iff_getElem?.mp hb
  obtain ⟨hlt, -⟩ := List.getElem?_eq_some_iff.mp hq
  refine h _ ((Wrapped.visibleAt_iff bytes k q).mpr ⟨?_, b, ?_, by simpa using hvisible⟩)
  · show -(((bytes.drop (bytes.length - (k + 1))).dropLast.length : Int) + 1) + q ≤ -2
    omega
  · exact (List.getElem?_append_left hlt).trans hq

/-- In front of the least index that is visible, a tape has nothing but blanks. -/
theorem isGap_take_of_isLeast {k q : Nat}
    (h : IsLeast {p | Wrapped.VisibleAt bytes (Int.negSucc k) p}
      ((Tape.ofOffset bytes (Int.negSucc k)).start + q)) :
    IsGap ((Tape.ofOffset bytes (Int.negSucc k)).cells.take q) := by
  intro c hc
  by_contra hvisible
  obtain ⟨i, hi⟩ := List.mem_iff_getElem?.mp hc
  have hlt : i < q := by
    obtain ⟨hlt, -⟩ := List.getElem?_eq_some_iff.mp hi
    rw [List.length_take] at hlt
    omega
  rw [List.getElem?_take_of_lt hlt] at hi
  have hhigh := h.1.2.1
  have hle := h.2 ((Wrapped.visibleAt_iff bytes k i).mpr
    ⟨by omega, c, hi, by simpa using hvisible⟩)
  omega

/-- The first byte that is no blank starts a token, but not one that has a span. -/
theorem scan_of_isLeast (h : IsLeast {p | Wrapped.VisibleAt bytes offset p} p) :
    ∃ stop, scan bytes offset = .error (.invalid p stop) ∧
      ∀ s, Wrapped.StopsAt bytes p s ↔ s = stop := by
  have hneg : offset < 0 := by
    have hlow := h.1.1
    have hhigh := h.1.2.1
    omega
  obtain ⟨k, rfl⟩ := Int.eq_negSucc_of_lt_zero hneg
  obtain ⟨q, rfl⟩ := h.1.exists_cell
  have hgap := isGap_take_of_isLeast h
  have hshows := Tape.shows_ofOffset_negSucc bytes k
  obtain ⟨hhigh, b, hcell, hb⟩ := (Wrapped.visibleAt_iff bytes k q).mp h.1
  rw [scan]
  generalize Tape.ofOffset bytes (Int.negSucc k) = tape at hgap hshows hhigh hcell ⊢
  have hdrop : tape.cells.drop q = b :: tape.cells.drop (q + 1) := drop_of_getElem? hcell
  obtain ⟨hq, -⟩ := List.getElem?_eq_some_iff.mp hcell
  have hlength : (tape.cells.take q).length = q := List.length_take_of_le (Nat.le_of_lt hq)
  have hskip := @takeWhile_gap _ (tape.cells.drop q) hgap (by simpa [hdrop] using hb)
  rw [List.take_append_drop, hdrop] at hskip
  refine ⟨tape.start + q + (munch b (tape.cells.drop (q + 1))).2, ?_, fun s => ?_⟩
  · rw [Tape.skipBlanks, hskip.1, hskip.2, hlength]
    simp only [Tape.token, Token.ofBounds, Span.ofBounds]
    rw [dif_neg (by omega)]
  · exact hshows.stopsAt_iff (by omega) hdrop hb

/-! ## Pulling from any integer -/

namespace Cursor

/-- Pulled until it meets the end of the input, a cursor gives these tokens, and then this end. -/
structure Drains (c : Cursor) (ts : List Token) (last : Token) (c' : Cursor) : Prop where
  pulls : c.Pulls (ts ++ [last]) c'
  not_end : ∀ t ∈ ts, t.kind ≠ .endOfInput
  is_end : last.kind = .endOfInput
  take : ∀ n, ∃ c₁, c.take n = .ok (ts.take n, c₁)
  rest : c.rest = .ok (ts, c')
  tokenize : c.tokenize = .ok (ts ++ [last], c')

variable {c d c' : Cursor} {ts : List Token} {last : Token}

theorem take_congr (h : c.next = d.next) (n : Nat) : c.take (n + 1) = d.take (n + 1) := by
  rw [Cursor.take, Cursor.take, h]

theorem Pulls.congr {pulled : List Token} (h : d.Pulls pulled c') (hne : pulled ≠ [])
    (hnext : c.next = d.next) : c.Pulls pulled c' := by
  cases pulled with
  | nil => contradiction
  | cons t pulled =>
      obtain ⟨c₁, hfirst, hmore⟩ := h
      exact ⟨c₁, hnext.trans hfirst, hmore⟩

/-- Only what is pulled first depends on where the cursor stands. -/
theorem Drains.congr (h : d.Drains ts last c') (hsource : c.source = d.source)
    (hpeek : c.peek = d.peek) : c.Drains ts last c' := by
  have hnext : c.next = d.next := next_congr hsource hpeek
  have hrest : c.rest = d.rest := by
    rw [Cursor.rest, Cursor.rest, hsource, take_congr hnext]
  constructor
  case pulls => exact h.pulls.congr (by simp) hnext
  case not_end => exact h.not_end
  case is_end => exact h.is_end
  case take =>
    intro n
    cases n with
    | zero => exact ⟨c, rfl⟩
    | succ n =>
        rw [take_congr hnext]
        exact h.take (n + 1)
  case rest => rw [hrest, h.rest]
  case tokenize => rw [Cursor.tokenize, hrest, ← Cursor.tokenize, h.tokenize]

theorem drains_of_ahead {bytes : Bytes} {k : Nat} (h : Ahead bytes k ts) :
    (Cursor.mk bytes k).Drains ts (Token.endOf bytes) (Cursor.mk bytes bytes.length) := by
  have hlength := h.length_le
  have hrest : (Cursor.mk bytes k).rest = .ok (ts, Cursor.mk bytes bytes.length) :=
    take_of_ahead h (show ts.length < bytes.length + 1 by omega)
  exact
    { pulls := drawn_all_of_ahead h ▸ pulls_take hrest
      not_end := fun t ht => h.kind_ne ht
      is_end := rfl
      take := fun n => take_min_of_ahead n h
      rest := hrest
      tokenize := tokenize_of_ahead h }

/-- Past the end, there is only the end of the input, again and again. -/
theorem drains_of_length_lt {bytes : Bytes} {k : Nat} (hk : bytes.length < k) :
    (Cursor.mk bytes k).Drains [] (Token.endAt k) (Cursor.mk bytes k) := by
  have hnext := next_of_length_lt hk
  have htake : ∀ n, (Cursor.mk bytes k).take n = .ok ([], Cursor.mk bytes k) := by
    intro n
    cases n with
    | zero => rfl
    | succ n =>
        rw [take, hnext]
        rfl
  exact
    { pulls := Pulls.single hnext
      not_end := by simp
      is_end := rfl
      take := fun n => ⟨_, by rw [htake, List.take_nil]⟩
      rest := htake _
      tokenize := by rw [tokenize, rest, htake]; simp only [hnext, List.nil_append] }

/-- A cursor whose first scan finds a token comes to the end of the input. -/
theorem exists_drains {t : Token} (h : c.peek = .ok t) : ∃ ts last c', c.Drains ts last c' := by
  rcases c.exists_ahead_or with ⟨k, ts, hts, hpeek⟩ | ⟨k, hk, hoffset⟩ | ⟨-, e, hpeek⟩
  · exact ⟨_, _, _, (drains_of_ahead hts).congr rfl hpeek⟩
  · obtain ⟨bytes, offset⟩ := c
    obtain rfl : offset = k := hoffset
    exact ⟨_, _, _, drains_of_length_lt hk⟩
  · rw [hpeek] at h
    contradiction

end Cursor

namespace CursorAction

/-- Whether an action scans at all. -/
def scans : CursorAction → Bool
  | take n => n != 0
  | seek _ => false
  | _ => true

variable {action : CursorAction} {c : Cursor} {e : SpanError}

theorem run_of_peek_error (hscans : action.scans = true) (h : c.peek = .error e) :
    action.run c = .error e := by
  have hnext : c.next = .error e := by rw [Cursor.next, h]
  have htake : ∀ n, c.take (n + 1) = .error e := fun n => by rw [Cursor.take, hnext]
  cases action with
  | next => rw [run, hnext]; rfl
  | peek => rw [run, h]; rfl
  | take n =>
      obtain ⟨n, rfl⟩ := Nat.exists_eq_succ_of_ne_zero (by simpa [scans] using hscans)
      rw [run, htake]
      rfl
  | rest => rw [run, Cursor.rest, htake]; rfl
  | tokenize => rw [run, Cursor.tokenize, Cursor.rest, htake]; rfl
  | seek offset => contradiction

theorem exists_run_of_peek_ok {t : Token} (h : c.peek = .ok t) (action : CursorAction) :
    ∃ reply c', action.run c = .ok (reply, c') := by
  obtain ⟨ts, last, c', hdrains⟩ := Cursor.exists_drains h
  cases action with
  | next => exact ⟨_, _, by rw [run, Cursor.next, h]; rfl⟩
  | peek => exact ⟨_, _, by rw [run, h]; rfl⟩
  | take n =>
      obtain ⟨c₁, htake⟩ := hdrains.take n
      exact ⟨_, _, by rw [run, htake]; rfl⟩
  | rest => exact ⟨_, _, by rw [run, hdrains.rest]; rfl⟩
  | tokenize => exact ⟨_, _, by rw [run, hdrains.tokenize]; rfl⟩
  | seek offset => exact ⟨_, _, rfl⟩

/-- An action that scans is refused exactly if its first scan is. -/
theorem run_eq_error_iff (hscans : action.scans = true) :
    action.run c = .error e ↔ c.peek = .error e := by
  constructor
  · intro h
    cases hpeek : c.peek with
    | error e' =>
        obtain rfl := Except.error.inj (h.symm.trans (run_of_peek_error hscans hpeek))
        rfl
    | ok t =>
        obtain ⟨reply, c', hrun⟩ := exists_run_of_peek_ok hpeek action
        rw [hrun] at h
        contradiction
  · exact run_of_peek_error hscans

end CursorAction

/-! ## Any integer -/

/-- What a scan finds from an integer offset. -/
structure ScansFrom (source : Source) (bytes : Bytes) (offset : Int) : Prop where
  beyond : ∀ k : Nat, offset = k → bytes.length < k →
    source.scan offset = .ok (Token.endAt k)
  within : 0 ≤ offset → offset ≤ bytes.length →
    ∃ t, source.scan offset = .ok t ∧ offset ≤ t.span.start ∧ t.span.start ≤ t.span.stop ∧
      t.span.stop ≤ bytes.length
  /-- Nothing but blanks is in the negative part. -/
  passed : offset < 0 → (∀ p, ¬ Wrapped.VisibleAt bytes offset p) →
    source.scan offset = source.scan 0
  /-- Something else is, and the first of it has no span. -/
  refused : offset < 0 → (∃ p, Wrapped.VisibleAt bytes offset p) →
    ∃ p stop, IsLeast {p | Wrapped.VisibleAt bytes offset p} p ∧
      source.scan offset = .error (.span (.invalid p stop)) ∧
      (Fault.span (.invalid p stop)).message =
        "invalid span [" ++ toString p ++ ", " ++ toString stop ++ ")" ∧
      (∀ s, Wrapped.StopsAt bytes p s ↔ s = stop) ∧
      ∀ b, Wrapped.at? bytes p = some b → b ∉ Byte.marked → stop ≤ -1

/-- What can be pulled from a cursor, and when that is refused. -/
structure Cursor.AllOrNothing (c : Cursor) : Prop where
  drains : ∀ t, scan c.source c.offset = .ok t → ∃ ts last c', c.Drains ts last c'
  refused : ∀ (action : CursorAction) (e : SpanError), action.scans = true →
    (action.run c = .error e ↔ scan c.source c.offset = .error e)
  kept : ∀ (w : Workspace) (name : String) (action : CursorAction) (e : SpanError),
    w.cursor? name = some c → action.run c = .error e →
      w.perform (.onCursor name action) = (.error (.span e), w)

theorem Source.scan_eq_mapError {source : Source} (h : source.buffer = .ok bytes) (offset : Int) :
    source.scan offset = (LetLang.scan bytes offset).mapError Fault.span := by
  simp only [scan, h]
  cases LetLang.scan bytes offset <;> rfl

theorem SpanError.message_invalid (start stop : Int) :
    (invalid start stop).message =
      "invalid span [" ++ toString start ++ ", " ++ toString stop ++ ")" := by
  have hopen : "invalid span [" = "invalid span " ++ "[" := rfl
  rw [hopen, message, bounds]
  simp only [String.append_assoc]

theorem exists_scan_of_le {k : Nat} (hk : k ≤ bytes.length) :
    ∃ t, scan bytes k = .ok t ∧ k ≤ t.span.start ∧ t.span.stop ≤ bytes.length := by
  obtain ⟨ts, hts⟩ := exists_ahead hk
  cases ts with
  | nil => exact ⟨_, hts, hk, Nat.le_refl _⟩
  | cons t ts =>
      exact ⟨t, hts.1, hts.le_start List.mem_cons_self, hts.stop_le List.mem_cons_self⟩

theorem scansFrom {source : Source} (h : source.buffer = .ok bytes) (offset : Int) :
    ScansFrom source bytes offset := by
  have hscan := source.scan_eq_mapError h
  constructor
  case beyond =>
    rintro k rfl hk
    rw [hscan, scan_of_length_le (Nat.le_of_lt hk)]
    rfl
  case within =>
    intro hneg hle
    obtain ⟨k, rfl⟩ := Int.eq_ofNat_of_zero_le hneg
    obtain ⟨t, ht, hstart, hstop⟩ := @exists_scan_of_le bytes k (by omega)
    refine ⟨t, ?_, by omega, t.span.start_le_stop, hstop⟩
    rw [hscan, ht]
    rfl
  case passed =>
    intro hneg hno
    rw [hscan, hscan, scan_of_not_visibleAt hneg hno]
  case refused =>
    intro hneg hvisible
    obtain ⟨p, hp⟩ := Wrapped.exists_isLeast hvisible
    obtain ⟨stop, hfault, hstop⟩ := scan_of_isLeast hp
    refine ⟨p, stop, hp, ?_, SpanError.message_invalid p stop, hstop, ?_⟩
    · rw [hscan, hfault]
      rfl
    · intro b hb hmarked
      exact ((hstop stop).mpr rfl).le_neg_one hb hmarked hp.1.2.1

/--
A scan from past the end finds the end of the input there, and one from within the bytes a token
within. From a negative offset it finds what it finds from the start, unless a byte that is no blank
comes before index `-1`: then it is refused for the first of these and for where its token stops.
Whatever pulls tokens from a cursor comes to an end. It is refused exactly if its first scan is, and
then nothing has changed.
-/
theorem scan_from_any_integer {source : Source} (h : source.buffer = .ok bytes) :
    (∀ offset, ScansFrom source bytes offset) ∧
      ∀ offset, Cursor.AllOrNothing { source := bytes, offset } := by
  refine ⟨scansFrom h, fun offset => ?_⟩
  constructor
  case drains => exact fun t ht => Cursor.exists_drains ht
  case refused => exact fun action e hscans => CursorAction.run_eq_error_iff hscans
  case kept =>
    intro w name action e hcursor hrun
    simp only [Workspace.perform, hcursor, hrun]

/-- Two bytes before the end a string begins, which a quote behind the start of the bytes closes. -/
theorem scan_from_any_integer_quoted :
    let bytes := "x\"y".toList.map Char.toUInt8
    (Source.bytes bytes).buffer = .ok bytes ∧
      (Source.bytes bytes).scan (-2) = .error (.span (.invalid (-2) 2)) ∧
      IsLeast {p | Wrapped.VisibleAt bytes (-2) p} (-2) ∧ Wrapped.StopsAt bytes (-2) 2 ∧
      Cursor.AllOrNothing { source := bytes, offset := -2 } := by
  intro bytes
  obtain ⟨hscans, hcursor⟩ := @scan_from_any_integer bytes (.bytes bytes) rfl
  have hvisible : Wrapped.VisibleAt bytes (-2) (-2) :=
    ⟨by decide, by decide, Byte.quote, by decide, by decide⟩
  have hscan : (Source.bytes bytes).scan (-2) = .error (.span (.invalid (-2) 2)) := by rfl
  obtain ⟨p, stop, hp, hrefused, -, hstop, -⟩ := (hscans (-2)).refused (by decide) ⟨-2, hvisible⟩
  rw [hscan] at hrefused
  cases hrefused
  exact ⟨rfl, hscan, hp, (hstop 2).mpr rfl, hcursor (-2)⟩

end LetLang
