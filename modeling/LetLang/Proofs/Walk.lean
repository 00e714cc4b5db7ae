import Mathlib.Data.List.Induction
import LetLang.Fault
import LetLang.Proofs.Place

/-!
# Positions, byte by byte

A position is found by a count and a search. Walking over the bytes one at a time, with a new line
behind each newline, leads to the same place (`Position.after_eq_walk`). And a position leads back:
the bytes in front of it are the lines above it and what its column counts of its own line
(`Position.exists_eq_firstLines_append`).

Main statement: `position_by_walking`. It says where each span of a source is, in which order the
positions of spans come, how an offset is computed from its position, and which spans have none.
-/

namespace LetLang

namespace Position

/-! ## Walking -/

/-- The position behind one more byte. -/
def advance (p : Position) (b : UInt8) : Position :=
  if b = Byte.newline then { line := p.line + 1, column := 1 }
  else { line := p.line, column := p.column + 1 }

/-- The position that a walk over the bytes ends at. -/
def walk (bytes : Bytes) : Position := bytes.foldl advance { line := 1, column := 1 }

theorem walk_append_singleton (bytes : Bytes) (b : UInt8) :
    walk (bytes ++ [b]) = (walk bytes).advance b := by
  simp [walk]

theorem after_eq_walk (bytes : Bytes) : after bytes = walk bytes := by
  -- A walk takes its last step at the end of the bytes, so the induction is from there.
  induction bytes using List.reverseRecOn with
  | nil => rfl
  | append_singleton bytes b ih =>
      rw [walk_append_singleton, ← ih]
      by_cases hb : b = Byte.newline
      · subst hb
        rw [after_append_newline]
        rfl
      · rw [after_append_of_ne hb, advance, if_neg hb]

/-! ## Lines -/

/-- The first so many lines of the bytes, with their newlines. -/
def firstLines (n : Nat) (bytes : Bytes) : Bytes :=
  ((bytes.splitOn Byte.newline).take n).flatMap (· ++ [Byte.newline])

theorem length_splitOn_newline (bytes : Bytes) :
    (bytes.splitOn Byte.newline).length = bytes.count Byte.newline + 1 := by
  induction bytes with
  | nil => rfl
  | cons b bytes ih =>
      rw [List.splitOn_eq_splitOnP] at ih ⊢
      rw [List.splitOnP_cons_eq_if_modifyHead, List.count_cons]
      split
      · rw [List.length_cons, ih]
      · rw [List.length_modifyHead, ih]

/-- Newlines behind all lines are newlines between them, and one more. -/
theorem flatMap_append_newline (line : Bytes) (lines : List Bytes) :
    (line :: lines).flatMap (· ++ [Byte.newline]) =
      [Byte.newline].intercalate (line :: lines) ++ [Byte.newline] := by
  induction lines generalizing line with
  | nil => simp
  | cons next lines ih =>
      rw [List.flatMap_cons, ih, List.intercalate_cons_cons, List.append_assoc, List.append_assoc,
        List.append_assoc]

theorem firstLines_append_newline (front rest : Bytes) :
    firstLines (front.count Byte.newline + 1) (front ++ Byte.newline :: rest) =
      front ++ [Byte.newline] := by
  rw [firstLines, splitOn_append_cons, ← length_splitOn_newline, List.take_left]
  have hwhole := @List.intercalate_splitOn _ front _ _ Byte.newline
  cases hlines : front.splitOn Byte.newline with
  | nil => exact absurd hlines (List.splitOn_ne_nil _ _)
  | cons line lines =>
      rw [hlines] at hwhole
      rw [flatMap_append_newline, hwhole]

/-- The bytes in front of a position are the lines above it and a part of its own line, which ends
before its column. -/
theorem exists_eq_firstLines_append (front rest : Bytes) :
    ∃ part, front = firstLines ((after front).line - 1) (front ++ rest) ++ part ∧
      (after front).column = part.length + 1 := by
  have hline : (after front).line - 1 = front.count Byte.newline := rfl
  have hcolumn : (after front).column = front.reverse.idxOf Byte.newline + 1 := rfl
  rw [hline, hcolumn]
  by_cases hmem : Byte.newline ∈ front
  · -- The part is what stands behind the last newline.
    obtain ⟨part, above, hfront, hpart⟩ := List.eq_append_cons_of_mem (List.mem_reverse.mpr hmem)
    have hidx : front.reverse.idxOf Byte.newline = part.length := by
      rw [hfront, List.idxOf_append_of_notMem hpart, List.idxOf_cons_self, Nat.add_zero]
    obtain rfl : front = above.reverse ++ Byte.newline :: part.reverse := by
      rw [← List.reverse_reverse front, hfront]
      simp
    have hcount : (above.reverse ++ Byte.newline :: part.reverse).count Byte.newline =
        above.reverse.count Byte.newline + 1 := by
      rw [List.count_append, List.count_cons_self,
        List.count_eq_zero_of_not_mem (mt List.mem_reverse.mp hpart)]
    refine ⟨part.reverse, ?_, ?_⟩
    · rw [hcount, List.append_assoc, List.cons_append, firstLines_append_newline]
      simp
    · rw [hidx, List.length_reverse]
  · refine ⟨front, ?_, ?_⟩
    · rw [List.count_eq_zero_of_not_mem hmem]
      rfl
    · rw [List.idxOf_eq_length (mt List.mem_reverse.mp hmem), List.length_reverse]

end Position

/-! ## Spans of a source -/

/-- How the spans of a source and their positions belong together. -/
structure Source.HasPositions (source : Source) (bytes : Bytes) : Prop where
  /-- A span is where the bytes in front of it lead to. -/
  walked : ∀ s : Span, s.stop ≤ bytes.length →
    s.positionIn source = .ok (Position.walk (bytes.take s.start))
  increasing : ∀ (s t : Span) (p q : Position), s.positionIn source = .ok p →
    t.positionIn source = .ok q → s.start < t.start → p < q
  injective : ∀ (s t : Span) (p : Position), s.positionIn source = .ok p →
    t.positionIn source = .ok p → s.start = t.start
  /-- The lines above a position are in the source, and with its column they give the offset. -/
  recovered : ∀ (s : Span) (p : Position), s.positionIn source = .ok p →
    1 ≤ p.line ∧ 1 ≤ p.column ∧ Position.firstLines (p.line - 1) bytes <+: bytes ∧
      s.start = (Position.firstLines (p.line - 1) bytes).length + p.column - 1
  refused : ∀ s : Span, bytes.length < s.stop →
    s.positionIn source = .error (.span (.beyond s.start s.stop bytes.length))

namespace Span

variable {source : Source} {bytes : Bytes} {s : Span} {p : Position}

theorem positionIn_of_le (h : source.buffer = .ok bytes) (hs : s.stop ≤ bytes.length) :
    s.positionIn source = .ok (Position.after (bytes.take s.start)) := by
  rw [positionIn, h]
  simp only [position_of_le hs]

theorem positionIn_of_lt (h : source.buffer = .ok bytes) (hs : bytes.length < s.stop) :
    s.positionIn source = .error (.span (.beyond s.start s.stop bytes.length)) := by
  rw [positionIn, h]
  simp only [position, check, if_neg (Nat.not_le.mpr hs)]

/-- A span that has a position ends in the source, and the position is that of its start. -/
theorem positionIn_eq_ok (h : source.buffer = .ok bytes) (hp : s.positionIn source = .ok p) :
    s.stop ≤ bytes.length ∧ p = Position.after (bytes.take s.start) := by
  by_cases hs : s.stop ≤ bytes.length
  · rw [positionIn_of_le h hs] at hp
    exact ⟨hs, (Except.ok.inj hp).symm⟩
  · rw [positionIn_of_lt h (Nat.not_le.mp hs)] at hp
    contradiction

end Span

/--
In a source that has a buffer, the position of a span is where a walk over the bytes in front of it
ends. Positions are ordered as the offsets are, and the lines above a position together with its
column give the offset back. A span that goes beyond the end of the source has no position.
-/
theorem position_by_walking {source : Source} {bytes : Bytes} (h : source.buffer = .ok bytes) :
    source.HasPositions bytes := by
  constructor
  case walked =>
    intro s hs
    rw [Span.positionIn_of_le h hs, Position.after_eq_walk]
  case increasing =>
    intro s t p q hp hq hlt
    obtain ⟨-, rfl⟩ := Span.positionIn_eq_ok h hp
    obtain ⟨ht, rfl⟩ := Span.positionIn_eq_ok h hq
    exact Position.after_take_lt hlt (Nat.le_trans t.start_le_stop ht)
  case injective =>
    intro s t p hp hq
    obtain ⟨hs, rfl⟩ := Span.positionIn_eq_ok h hp
    obtain ⟨ht, heq⟩ := Span.positionIn_eq_ok h hq
    exact Position.after_take_inj (Nat.le_trans s.start_le_stop hs)
      (Nat.le_trans t.start_le_stop ht) heq
  case recovered =>
    intro s p hp
    obtain ⟨hs, rfl⟩ := Span.positionIn_eq_ok h hp
    obtain ⟨part, hfront, hcolumn⟩ :=
      Position.exists_eq_firstLines_append (bytes.take s.start) (bytes.drop s.start)
    rw [List.take_append_drop] at hfront
    have hlength := congrArg List.length hfront
    rw [List.length_take_of_le (Nat.le_trans s.start_le_stop hs), List.length_append] at hlength
    refine ⟨Nat.le_add_left 1 _, Nat.le_add_left 1 _, ?_, by omega⟩
    exact (hfront ▸ List.prefix_append _ _).trans (List.take_prefix _ _)
  case refused =>
    intro s hs
    exact Span.positionIn_of_lt h hs

/-- A text with a wide character and an empty line: its last byte is the first of the third line. -/
theorem position_by_walking_lines :
    let source := Source.ofString "é\n\nb"
    let bytes := Utf8.encode ['é', '\n', '\n', 'b']
    let s : Span := { start := 4, stop := 5 }
    source.buffer = .ok bytes ∧ source.HasPositions bytes ∧ s.stop ≤ bytes.length ∧
      s.positionIn source = .ok { line := 3, column := 1 } := by
  intro source bytes s
  have hbuffer : source.buffer = .ok bytes := Source.buffer_ofString "é\n\nb"
  have hpositions := position_by_walking hbuffer
  have hs : s.stop ≤ bytes.length := by decide
  exact ⟨hbuffer, hpositions, hs, hpositions.walked s hs⟩

end LetLang
