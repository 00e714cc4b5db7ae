import Mathlib.Data.List.Basic
import LetLang.Diagnostic

/-!
# Positions and the messages that name them

Bytes in front of a source move its positions down, and those on its first line to the right
(`Position.behind`, `Position.after_append`). A later offset of a source has a later position
(`Position.after_take_lt`), and no two positions have one text (`Position.text_inj`).

Main statement: `Says.position_unique`. A message says of one position only that something was found
there, so the messages of a parse can be told apart by the offsets that they are about.
-/

namespace LetLang

namespace Position

/--
The position with the bytes in front of it. Their newlines come on top of its line, and on the first
line the bytes behind the last of them come on top of its column.
-/
def behind (front : Bytes) (p : Position) : Position where
  line := p.line + front.count Byte.newline
  column := if 1 < p.line then p.column else p.column + front.reverse.idxOf Byte.newline

theorem one_lt_line_after_iff {bytes : Bytes} :
    1 < (after bytes).line ↔ Byte.newline ∈ bytes := by
  rw [after, ← List.count_pos_iff]
  exact Nat.lt_add_left_iff_pos

theorem after_append (front bytes : Bytes) :
    after (front ++ bytes) = behind front (after bytes) := by
  have hline : (front ++ bytes).count Byte.newline + 1 =
      bytes.count Byte.newline + 1 + front.count Byte.newline := by
    rw [List.count_append]
    omega
  have hcolumn : (front ++ bytes).reverse.idxOf Byte.newline + 1 =
      if 1 < (after bytes).line then bytes.reverse.idxOf Byte.newline + 1
      else bytes.reverse.idxOf Byte.newline + 1 + front.reverse.idxOf Byte.newline := by
    rw [List.reverse_append]
    by_cases h : Byte.newline ∈ bytes
    · rw [if_pos (one_lt_line_after_iff.mpr h), List.idxOf_append_of_mem (List.mem_reverse.mpr h)]
    · have hnot : Byte.newline ∉ bytes.reverse := mt List.mem_reverse.mp h
      rw [if_neg (mt one_lt_line_after_iff.mp h), List.idxOf_append_of_notMem hnot,
        List.idxOf_eq_length hnot]
      omega
  rw [behind, after, hline, hcolumn]
  rfl

/-- Lines come first, and on one line the column decides. -/
instance : LT Position where
  lt p q := p.line < q.line ∨ p.line = q.line ∧ p.column < q.column

theorem lt_iff {p q : Position} :
    p < q ↔ p.line < q.line ∨ p.line = q.line ∧ p.column < q.column := Iff.rfl

theorem ne_of_lt {p q : Position} (h : p < q) : p ≠ q := by
  rintro rfl
  rw [lt_iff] at h
  omega

/-- More bytes lead to a later position. -/
theorem after_lt_after_append (front : Bytes) {bytes : Bytes} (h : bytes ≠ []) :
    after front < after (front ++ bytes) := by
  have hfront : after front =
      { line := front.count Byte.newline + 1
        column := front.reverse.idxOf Byte.newline + 1 } := rfl
  rw [after_append, behind, hfront, lt_iff]
  dsimp only
  by_cases hline : 1 < (after bytes).line
  · left
    omega
  · -- No newline comes in between, so all the bytes count as columns.
    have hnot : Byte.newline ∉ bytes.reverse :=
      mt List.mem_reverse.mp (mt one_lt_line_after_iff.mpr hline)
    have hpos : 0 < bytes.length := List.length_pos_iff.mpr h
    have hfirst : (after bytes).line = bytes.count Byte.newline + 1 := rfl
    have hcolumn : (after bytes).column = bytes.reverse.idxOf Byte.newline + 1 := rfl
    rw [List.idxOf_eq_length hnot, List.length_reverse] at hcolumn
    rw [if_neg hline]
    right
    omega

theorem after_take_lt {bytes : Bytes} {i j : Nat} (hij : i < j) (hj : j ≤ bytes.length) :
    after (bytes.take i) < after (bytes.take j) := by
  have hsplit : bytes.take i ++ (bytes.drop i).take (j - i) = bytes.take j := by
    rw [← List.take_add, Nat.add_sub_cancel' (Nat.le_of_lt hij)]
  have hne : (bytes.drop i).take (j - i) ≠ [] := by
    apply List.ne_nil_of_length_pos
    rw [List.length_take, List.length_drop]
    omega
  rw [← hsplit]
  exact after_lt_after_append _ hne

/-- No position in a source is behind its end. -/
theorem not_after_lt_after_take (bytes : Bytes) (i : Nat) :
    ¬ after bytes < after (bytes.take i) := by
  intro h
  by_cases hi : i < bytes.length
  · have hlt := after_take_lt hi (Nat.le_refl _)
    rw [List.take_length] at hlt
    rw [lt_iff] at h hlt
    omega
  · rw [List.take_of_length_le (Nat.le_of_not_lt hi)] at h
    exact ne_of_lt h rfl

theorem after_take_inj {bytes : Bytes} {i j : Nat} (hi : i ≤ bytes.length)
    (hj : j ≤ bytes.length) (h : after (bytes.take i) = after (bytes.take j)) : i = j := by
  rcases Nat.lt_trichotomy i j with hlt | heq | hgt
  · exact absurd h (ne_of_lt (after_take_lt hlt hj))
  · exact heq
  · exact absurd h.symm (ne_of_lt (after_take_lt hgt hi))

/-! ## The text of a position -/

theorem toList_text (p : Position) :
    p.text.toList = Nat.toDigits 10 p.line ++ ':' :: Nat.toDigits 10 p.column := by
  simp [text]

theorem isDigit_or_colon_of_mem_text {p : Position} {c : Char} (h : c ∈ p.text.toList) :
    c.isDigit = true ∨ c = ':' := by
  rw [toList_text, List.mem_append, List.mem_cons] at h
  rcases h with h | rfl | h
  · exact Or.inl (Nat.isDigit_of_mem_toDigits (by decide) (by decide) h)
  · exact Or.inr rfl
  · exact Or.inl (Nat.isDigit_of_mem_toDigits (by decide) (by decide) h)

theorem colon_not_mem_toDigits (n : Nat) : ':' ∉ Nat.toDigits 10 n := by
  intro h
  have hdigit := Nat.isDigit_of_mem_toDigits (by decide) (by decide) h
  exact absurd hdigit (by decide)

theorem toDigits_inj {m n : Nat} (h : Nat.toDigits 10 m = Nat.toDigits 10 n) : m = n := by
  have hvalue := congrArg (fun digits => Nat.ofDigitChars 10 digits 0) h
  simpa only [Nat.ofDigitChars_ten_toDigits] using hvalue

theorem text_inj {p q : Position} (h : p.text = q.text) : p = q := by
  have hlist := congrArg String.toList h
  rw [toList_text, toList_text, List.append_cons_inj_of_notMem (colon_not_mem_toDigits _)
    (colon_not_mem_toDigits _)] at hlist
  obtain ⟨hline, -, hcolumn⟩ := hlist
  cases p
  cases q
  obtain rfl := toDigits_inj hline
  obtain rfl := toDigits_inj hcolumn
  rfl

end Position

/-! ## Messages -/

/-- The message ends with the words that the kind was found at the position. -/
def Says (message : String) (kind : TokenKind) (p : Position) : Prop :=
  ∃ before, message = before ++ " but got " ++ kind.describe ++ " at " ++ p.text

theorem Diagnostic.says_message (d : Diagnostic) : Says d.message d.found d.position :=
  ⟨"expected " ++ alternatives d.expected, rfl⟩

/-- A message in full: what was expected, what was found, and where. -/
theorem Diagnostic.message_eq (d : Diagnostic) :
    d.message = "expected " ++ " or ".intercalate (d.expected.map TokenKind.describe) ++
      " but got " ++ d.found.describe ++ " at " ++ toString d.position.line ++ ":" ++
      toString d.position.column := by
  simp only [message, alternatives, Position.text, String.append_assoc]

theorem splitOn_append_cons {α : Type} [BEq α] [LawfulBEq α] (front : List α) (a : α)
    (rest : List α) : (front ++ a :: rest).splitOn a = front.splitOn a ++ rest.splitOn a := by
  simp only [List.splitOn_eq_splitOnP]
  exact List.splitOnP_append_cons front rest (beq_self_eq_true a)

/-- What stands behind the last blank. -/
theorem takeWhile_reverse_append {front back : List Char} (h : ' ' ∉ back) :
    ((front ++ ' ' :: back).reverse.takeWhile (· != ' ')).reverse = back := by
  have hback : ∀ c ∈ back.reverse, (c != ' ') = true := by
    intro c hc
    rw [bne_iff_ne]
    rintro rfl
    exact h (List.mem_reverse.mp hc)
  rw [List.reverse_append, List.reverse_cons, List.append_assoc,
    List.takeWhile_append_of_pos hback]
  simp

/-- A text that ends with a position behind a blank ends so with no other one. -/
theorem Position.eq_of_append_text {before before' : String} {p q : Position}
    (h : before ++ " at " ++ p.text = before' ++ " at " ++ q.text) : p = q := by
  have hblank : ∀ r : Position, ' ' ∉ r.text.toList := by
    intro r hr
    rcases isDigit_or_colon_of_mem_text hr with hdigit | hcolon
    · exact absurd hdigit (by decide)
    · exact absurd hcolon (by decide)
  have hlist : ∀ (s : String) (r : Position),
      (s ++ " at " ++ r.text).toList = (s.toList ++ [' ', 'a', 't']) ++ ' ' :: r.text.toList := by
    intro s r
    simp
  have hlast := congrArg (fun s => (s.toList.reverse.takeWhile (· != ' ')).reverse) h
  simp only [hlist] at hlast
  rw [takeWhile_reverse_append (hblank p), takeWhile_reverse_append (hblank q)] at hlast
  exact text_inj (String.toList_inj.mp hlast)

theorem Says.position_unique {message : String} {kind kind' : TokenKind} {p q : Position}
    (h : Says message kind p) (h' : Says message kind' q) : p = q := by
  obtain ⟨before, hp⟩ := h
  obtain ⟨before', hq⟩ := h'
  exact Position.eq_of_append_text (hp.symm.trans hq)

end LetLang
