import LetLang.Proofs.Locality
import LetLang.Proofs.Transcript

/-!
# Parsing a source that goes on

Bytes behind a source can change its last token, and hence the last reading of it. They change no
earlier reading, nor the last one if it is complete: a binding ends with a semicolon, which nothing
extends (`transcript_append`).

Main statement: `parse_append`. What the calls of a parse yield comes first in what they yield for
any longer source, but for a last diagnostic.
-/

namespace LetLang

/-! ## Tokens that nothing behind them can change -/

namespace Ahead

variable {bytes : Bytes} {k : Nat} {ts us : List Token}

theorem of_append (h : Ahead bytes k (ts ++ us)) : Ahead bytes (Token.lastStop k ts) us := by
  induction ts generalizing k with
  | nil => exact h
  | cons t ts ih => exact ih h.2.2

/-- A token before another one is firm, and so is the last one if its kind is closed. -/
theorem firm_of_append (h : Ahead bytes k (ts ++ us))
    (hlast : us = [] → ∀ t, ts.getLast? = some t → t.kind.IsClosed) :
    ∀ t ∈ ts, t.Firm bytes := by
  induction ts generalizing k with
  | nil => simp
  | cons t ts ih =>
      have hrest : us = [] → ∀ u, ts.getLast? = some u → u.kind.IsClosed := by
        intro hnil u hu
        refine hlast hnil u ?_
        rw [List.getLast?_cons, hu]
        rfl
      refine List.forall_mem_cons.mpr ⟨?_, ih h.2.2 hrest⟩
      rcases hsplit : ts ++ us with - | ⟨u, more⟩
      · obtain ⟨rfl, rfl⟩ := List.append_eq_nil_iff.mp hsplit
        exact Or.inr ⟨h.2.2.le_length, hlast rfl t rfl⟩
      · have hbehind := h.2.2
        have hmem : u ∈ ts ++ us := hsplit ▸ List.mem_cons_self
        have hle := hbehind.le_start hmem
        have hlt := hbehind.start_lt_stop hmem
        have hstop := hbehind.stop_le hmem
        exact Or.inl (by omega)

end Ahead

namespace Production

variable {stop : Token} {ts us : List Token}

theorem accepts_of_mem_readings (h : .complete us ∈ readings stop ts) : binding.Accepts us := by
  induction ts using readings.induct stop with
  | case1 => simp [readings_nil] at h
  | case2 t ts ih =>
      rw [readings_cons, List.mem_cons] at h
      rcases h with hfirst | hrest
      · exact readFrom_complete hfirst.symm
      · exact ih hrest

/-- A binding ends with a token that nothing extends. -/
theorem exists_closed_of_accepts (h : binding.Accepts us) :
    ∃ front last, us = front ++ [last] ∧ last.kind.IsClosed := by
  obtain ⟨keyword, ident, assign, value, semicolon, rfl, -, -, -, -, hsemicolon⟩ :=
    exists_of_accepts_binding h
  refine ⟨[keyword, ident, assign, value], semicolon, rfl, ?_⟩
  intro tail
  rw [hsemicolon]
  exact ⟨nofun, nofun, nofun⟩

/-- If nothing is left behind settled readings, the last token is closed. -/
theorem closed_of_getLast?_pulled {rs : List Reading} {t : Token} (h : readings stop ts = rs)
    (hsettled : Reading.Settled rs [])
    (ht : (rs.flatMap Reading.pulled).getLast? = some t) : t.kind.IsClosed := by
  rcases List.eq_nil_or_concat' rs with rfl | ⟨init, r, rfl⟩
  · contradiction
  · obtain ⟨us, rfl⟩ := hsettled rfl r List.getLast?_concat
    have hmem : .complete us ∈ readings stop ts := by
      rw [h]
      exact List.mem_concat_self
    obtain ⟨front, last, rfl, hclosed⟩ := exists_closed_of_accepts (accepts_of_mem_readings hmem)
    rw [List.flatMap_append, List.flatMap_singleton, Reading.pulled, ← List.append_assoc,
      List.getLast?_concat] at ht
    exact Option.some.inj ht ▸ hclosed

end Production

/--
The first readings of a source yield what they did when bytes follow it, if the last of all readings
is not among them or is complete. Then comes what is yielded for the tokens behind them.
-/
theorem transcript_append {bytes more : Bytes} {ts us : List Token} {rs rest : List Reading}
    {ys zs : List Yield} (h : Ahead bytes 0 ts)
    (hreadings : Production.readings (Token.endOf bytes) ts = rs ++ rest)
    (hsettled : Reading.Settled rs rest)
    (hys : List.Forall₂ (Reading.Yields bytes) rs ys)
    (hus : Ahead (bytes ++ more) (Token.lastStop 0 (rs.flatMap Reading.pulled)) us)
    (hzs : List.Forall₂ (Reading.Yields (bytes ++ more))
      (Production.readings (Token.endOf (bytes ++ more)) us) zs) :
    Transcript (bytes ++ more) (ys ++ zs) := by
  obtain ⟨hwhole, left, rfl, hleft⟩ :=
    Production.exists_of_readings_eq_append rfl hreadings hsettled
  have hfirm : ∀ t ∈ rs.flatMap Reading.pulled, t.Firm bytes := by
    refine h.firm_of_append fun hnil t ht => ?_
    rw [hnil, Production.readings_nil] at hleft
    have hsettled' : Reading.Settled rs [] := fun _ => hsettled hleft.symm
    rw [← hleft, List.append_nil] at hreadings
    exact Production.closed_of_getLast?_pulled hreadings hsettled' ht
  have hshared : List.Forall₂ (Reading.Yields (bytes ++ more)) rs ys := by
    refine ((List.forall₂_and_left _ _).mpr ⟨fun r hr t ht => ?_, hys⟩).imp
      fun r y hr => Reading.Yields.append hr.2 hr.1 more
    have hstop := (hfirm t (List.mem_flatMap.mpr ⟨r, hr, ht⟩)).stop_le
    have hordered := t.span.start_le_stop
    omega
  have hahead : Ahead (bytes ++ []) 0 (rs.flatMap Reading.pulled ++ left) := by
    rwa [List.append_nil]
  refine transcript_of_ahead (hahead.replace hfirm hus) ?_
  rw [Production.readings_append hwhole]
  exact List.rel_append hshared hzs

/-- Readings are settled if the last of them yields a statement. -/
theorem settled_of_getLast? {bytes : Bytes} {rs : List Reading} {ys : List Yield}
    {s : Statement} (h : List.Forall₂ (Reading.Yields bytes) rs ys)
    (hs : ys.getLast? = some (.statement s)) :
    Reading.Settled rs [] := by
  intro hnil r hlast
  induction h with
  | nil => contradiction
  | @cons r y rs ys hr hrest ih =>
      cases hrest with
      | nil =>
          obtain rfl := Option.some.inj hs
          obtain rfl := Option.some.inj hlast
          cases hr with
          | statement => exact ⟨_, rfl⟩
      | cons =>
          rw [List.getLast?_cons_cons] at hs hlast
          exact ih hs hlast

/-- What settled readings of a source yield comes first in every longer source. -/
theorem isPrefix_of_settled {bytes more : Bytes} {ts : List Token} {rs rest : List Reading}
    {ys zs : List Yield} (h : Ahead bytes 0 ts)
    (hreadings : Production.readings (Token.endOf bytes) ts = rs ++ rest)
    (hsettled : Reading.Settled rs rest)
    (hys : List.Forall₂ (Reading.Yields bytes) rs ys) (hzs : Transcript (bytes ++ more) zs) :
    ys <+: zs := by
  obtain ⟨-, left, rfl, -⟩ := Production.exists_of_readings_eq_append rfl hreadings hsettled
  have hle : Token.lastStop 0 (rs.flatMap Reading.pulled) ≤ (bytes ++ more).length := by
    have hbehind := h.of_append.le_length
    rw [List.length_append]
    omega
  obtain ⟨us, hus⟩ := exists_ahead hle
  obtain ⟨vs, hvs⟩ := Production.exists_yields (bytes ++ more) (Token.endOf (bytes ++ more)) us
  have htranscript := transcript_append h hreadings hsettled hys hus hvs
  exact ⟨vs, htranscript.unique hzs⟩

/-! ## What the result shares with a longer one -/

section

variable {ys zs : List Yield} (hinit : ys.dropLast <+: zs)
  (hall : ∀ s, ys.getLast? = some (.statement s) → ys <+: zs)

include hinit hall

/-- What does not come first in the longer list can only be a last message. -/
theorem Yield.isPrefix_or_eq_concat :
    ys <+: zs ∨ ∃ init text, ys = init ++ [.message text] ∧ init <+: zs := by
  rcases List.eq_nil_or_concat' ys with rfl | ⟨init, y, rfl⟩
  · exact Or.inl List.nil_prefix
  · rw [List.dropLast_concat] at hinit
    rw [List.getLast?_concat] at hall
    cases y with
    | statement s => exact Or.inl (hall s rfl)
    | message text => exact Or.inr ⟨init, text, rfl, hinit⟩

theorem ParseResult.statements_isPrefix :
    (ofYields ys).statements <+: (ofYields zs).statements := by
  rcases Yield.isPrefix_or_eq_concat hinit hall with h | ⟨init, text, rfl, h⟩
  · exact h.filterMap Yield.statement?
  · have hsame : (ofYields (init ++ [.message text])).statements =
        init.filterMap Yield.statement? := by
      simp [ofYields, Yield.statement?]
    rw [hsame]
    exact h.filterMap Yield.statement?

theorem ParseResult.diagnostics_dropLast_isPrefix :
    (ofYields ys).diagnostics.dropLast <+: (ofYields zs).diagnostics := by
  rcases Yield.isPrefix_or_eq_concat hinit hall with h | ⟨init, text, rfl, h⟩
  · exact (List.dropLast_prefix _).trans (h.filterMap Yield.message?)
  · have hsame : (ofYields (init ++ [.message text])).diagnostics.dropLast =
        init.filterMap Yield.message? := by
      simp [ofYields, Yield.message?]
    rw [hsame]
    exact h.filterMap Yield.message?

end

/--
What the calls yield is settled but for the last call, and for that one too if it yields a
statement: bytes behind the source leave it as it is. So the statements of the source come first in
those of the longer one, and the diagnostics come first in its diagnostics but for the last one. A
source that starts one without diagnostics has at most one.
-/
theorem parse_append (s t : Bytes) :
    ∃ ys zs, Transcript s ys ∧ Transcript (s ++ t) zs ∧
      ys.dropLast <+: zs ∧ (∀ statement, ys.getLast? = some (.statement statement) → ys <+: zs) ∧
      (ParseResult.ofYields ys).statements <+: (ParseResult.ofYields zs).statements ∧
      (ParseResult.ofYields ys).diagnostics.dropLast <+: (ParseResult.ofYields zs).diagnostics ∧
      ((ParseResult.ofYields zs).diagnostics = [] →
        (ParseResult.ofYields ys).diagnostics.length ≤ 1) := by
  obtain ⟨ts, hts⟩ := exists_ahead (Nat.zero_le s.length)
  obtain ⟨ys, hys⟩ := Production.exists_yields s (Token.endOf s) ts
  obtain ⟨zs, hzs⟩ := exists_transcript (s ++ t)
  have hinit : ys.dropLast <+: zs := by
    rcases List.eq_nil_or_concat' ys with rfl | ⟨init, y, rfl⟩
    · exact List.nil_prefix
    · have hlength := hys.length_eq
      rw [List.length_append, List.length_singleton] at hlength
      rw [List.dropLast_concat]
      -- The last reading is left out, so the others are settled whatever it is.
      have hsettled : Reading.Settled ((Production.readings (Token.endOf s) ts).take init.length)
          ((Production.readings (Token.endOf s) ts).drop init.length) := by
        intro hnil
        have hle := List.drop_eq_nil_iff.mp hnil
        omega
      exact isPrefix_of_settled hts (List.take_append_drop init.length _).symm hsettled
        (List.forall₂_take_append _ _ _ hys) hzs
  have hall : ∀ statement, ys.getLast? = some (.statement statement) → ys <+: zs := by
    intro statement hlast
    exact isPrefix_of_settled hts (List.append_nil _).symm (settled_of_getLast? hys hlast) hys hzs
  have hdiagnostics := ParseResult.diagnostics_dropLast_isPrefix hinit hall
  refine ⟨ys, zs, transcript_of_ahead hts hys, hzs, hinit, hall,
    ParseResult.statements_isPrefix hinit hall, hdiagnostics, fun hnil => ?_⟩
  have hlength := hdiagnostics.length_le
  rw [hnil, List.length_dropLast, List.length_nil] at hlength
  omega

end LetLang
