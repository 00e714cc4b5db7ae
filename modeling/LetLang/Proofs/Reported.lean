import Mathlib.Data.List.Nodup
import Mathlib.Data.List.Perm.Basic
import LetLang.Proofs.Place
import LetLang.Proofs.Run

/-!
# Accepted and reported tokens

A call accepts the tokens that fit, and reports the one that does not. Between them the calls of a
parse accept or report every token, none twice (`Production.nodup_accepted_append_found`). The
keyword that begins a binding is reported where a call that began before pulls it; only then is the
binding lost (`Production.complete_or_found`).

Main statement: `reportedOnce_iff`. Of the diagnostics of a parse, exactly one names a token that was
reported and its place, and none names another token there.
-/

namespace LetLang

/-! ## Accepted and reported tokens -/

namespace Reading

def accepted : Reading → List Token
  | complete ts => ts
  | mismatch ts _ _ => ts

def found? : Reading → Option Token
  | complete _ => none
  | mismatch _ _ found => some found

theorem pulled_eq (r : Reading) : r.pulled = r.accepted ++ r.found?.toList := by
  cases r with
  | complete ts => exact (List.append_nil ts).symm
  | mismatch ts expected found => rfl

theorem accepted_append_found_perm (rs : List Reading) :
    (rs.flatMap accepted ++ rs.filterMap found?).Perm (rs.flatMap pulled) := by
  have hpulled : pulled = fun r => r.accepted ++ r.found?.toList := funext pulled_eq
  rw [hpulled, List.filterMap_eq_flatMap_toList]
  exact List.flatMap_append_perm rs accepted fun r => r.found?.toList

/-- What readings find instead of other tokens, they pull, in the same order. -/
theorem found_sublist_pulled (rs : List Reading) :
    (rs.filterMap found?).Sublist (rs.flatMap pulled) := by
  rw [List.filterMap_eq_flatMap_toList]
  induction rs with
  | nil => exact List.Sublist.slnil
  | cons r rs ih =>
      rw [List.flatMap_cons, List.flatMap_cons, pulled_eq]
      exact (List.sublist_append_right r.accepted _).append ih

end Reading

namespace Production

variable {stop t : Token} {ts : List Token}

/-- The readings pull all tokens, and perhaps the one behind them. -/
theorem readings_pulled_between (hstop : stop.kind = .endOfInput) :
    ts <+: (readings stop ts).flatMap Reading.pulled ∧
      (readings stop ts).flatMap Reading.pulled <+: ts ++ [stop] := by
  rcases @readings_pulled stop ts hstop with hall | ⟨earlier, first, more, expected, hshort, hts, -⟩
  · rw [hall]
    exact ⟨List.prefix_rfl, List.prefix_append _ _⟩
  · have hpulled : (readings stop ts).flatMap Reading.pulled = ts ++ [stop] := by
      rw [hshort, List.flatMap_append, List.flatMap_singleton, Reading.pulled, ← List.append_assoc,
        hts]
    rw [hpulled]
    exact ⟨List.prefix_append _ _, List.prefix_rfl⟩

theorem mem_accepted_or_found (hstop : stop.kind = .endOfInput) (ht : t ∈ ts) :
    t ∈ (readings stop ts).flatMap Reading.accepted ∨
      t ∈ (readings stop ts).filterMap Reading.found? := by
  have hpulled := (readings_pulled_between hstop).1.subset ht
  rwa [← (Reading.accepted_append_found_perm _).mem_iff, List.mem_append] at hpulled

theorem nodup_accepted_append_found (hstop : stop.kind = .endOfInput)
    (h : (ts ++ [stop]).Nodup) :
    ((readings stop ts).flatMap Reading.accepted ++
      (readings stop ts).filterMap Reading.found?).Nodup := by
  rw [(Reading.accepted_append_found_perm _).nodup_iff]
  exact h.sublist (readings_pulled_between hstop).2.sublist

/-- The tokens that are found instead of others are those of the source, in order. -/
theorem found_sublist (hstop : stop.kind = .endOfInput) (ts : List Token) :
    ((readings stop ts).filterMap Reading.found?).Sublist (ts ++ [stop]) :=
  (Reading.found_sublist_pulled _).trans (readings_pulled_between hstop).2.sublist

theorem mem_of_mem_found (hstop : stop.kind = .endOfInput)
    (ht : t ∈ (readings stop ts).filterMap Reading.found?) : t ∈ ts ++ [stop] :=
  (found_sublist hstop ts).subset ht

/-- What a reading accepts is accepted in turn by the first places of the production. -/
theorem accepts_accepted (stop : Token) (production : Production) (ts : List Token) :
    ∃ matched more, production = matched ++ more ∧
      matched.Accepts (production.readFrom stop ts).1.accepted := by
  cases hr : (production.readFrom stop ts).1 with
  | complete us => exact ⟨production, [], (List.append_nil _).symm, readFrom_complete hr⟩
  | mismatch accepted expected found =>
      obtain ⟨matched, more, hproduction, haccepted, -⟩ := readFrom_mismatch hr
      exact ⟨matched, expected :: more, hproduction, haccepted⟩

theorem exists_mem_of_accepts {production : Production} (h : production.Accepts ts) (ht : t ∈ ts) :
    ∃ expected ∈ production, t.kind ∈ expected := by
  induction h with
  | nil => simp at ht
  | @cons expected u more us hu _ ih =>
      rcases List.mem_cons.mp ht with rfl | ht
      · exact ⟨expected, List.mem_cons_self, hu⟩
      · obtain ⟨e, he, hkind⟩ := ih ht
        exact ⟨e, List.mem_cons_of_mem _ he, hkind⟩

theorem exists_mem_of_mem_accepted (h : t ∈ (readings stop ts).flatMap Reading.accepted) :
    ∃ expected ∈ binding, t.kind ∈ expected := by
  induction ts using readings.induct stop with
  | case1 => simp [readings_nil] at h
  | case2 u us ih =>
      rw [readings_cons, List.flatMap_cons, List.mem_append] at h
      rcases h with hfirst | hrest
      · obtain ⟨matched, more, hbinding, haccepts⟩ := accepts_accepted stop binding (u :: us)
        obtain ⟨expected, hexpected, hkind⟩ := exists_mem_of_accepts haccepts hfirst
        exact ⟨expected, hbinding ▸ List.mem_append_left more hexpected, hkind⟩
      · exact ih hrest

/-- The keyword that begins a binding is accepted in the first place only. -/
theorem kind_ne_let_of_mem_tail {matched more : Production} (hbinding : binding = matched ++ more)
    (h : matched.Accepts ts) (ht : t ∈ ts.tail) : t.kind ≠ .keyword .letKw := by
  have hnot : ∀ expected ∈ bindingTail, TokenKind.keyword .letKw ∉ expected := by decide
  cases h with
  | nil => simp at ht
  | @cons first u rest us hu hus =>
      have htail : bindingTail = rest ++ more := congrArg List.tail hbinding
      obtain ⟨expected, hexpected, hkind⟩ := exists_mem_of_accepts hus ht
      intro hlet
      rw [hlet] at hkind
      exact hnot expected (htail ▸ List.mem_append_left more hexpected) hkind

/-- A reading that pulls the keyword behind its first token reports it. -/
theorem found?_of_mem_pulled_tail (h : t ∈ (binding.readFrom stop ts).1.pulled.tail)
    (ht : t.kind = .keyword .letKw) : (binding.readFrom stop ts).1.found? = some t := by
  obtain ⟨matched, more, hbinding, haccepts⟩ := accepts_accepted stop binding ts
  cases hr : (binding.readFrom stop ts).1 with
  | complete us =>
      rw [hr] at h haccepts
      exact absurd ht (kind_ne_let_of_mem_tail hbinding haccepts h)
  | mismatch accepted expected found =>
      rw [hr] at h haccepts
      cases accepted with
      | nil => simp [Reading.pulled] at h
      | cons first more =>
          rw [Reading.pulled, List.cons_append, List.tail_cons, List.mem_append,
            List.mem_singleton] at h
          rcases h with haccepted | rfl
          · exact absurd ht (kind_ne_let_of_mem_tail hbinding haccepts haccepted)
          · rfl

/-- A reading leaves a token behind its first one, and all behind it, or it pulls that token. -/
theorem left_or_mem_pulled_tail (hstop : stop.kind = .endOfInput) (first : Token)
    (before more : List Token) :
    let result := binding.readFrom stop (first :: before ++ t :: more)
    (∃ between, result.2 = between ++ t :: more) ∨ t ∈ result.1.pulled.tail := by
  intro result
  rcases readFrom_binding_pulled hstop (first :: before ++ t :: more) with
    hpulled | ⟨expected, hshort⟩
  · rcases List.append_eq_append_iff.mp hpulled with ⟨between, -, hleft⟩ | ⟨back, hfront, hback⟩
    · exact Or.inl ⟨between, hleft⟩
    · cases back with
      | nil => exact Or.inl ⟨[], hback.symm⟩
      | cons u back =>
          obtain ⟨rfl, -⟩ := List.cons_eq_cons.mp hback
          right
          rw [hfront]
          simp
  · right
    have hresult : result = (.mismatch (first :: before ++ t :: more) expected stop, []) := hshort
    rw [hresult]
    simp [Reading.pulled]

/-- The tokens of a binding are read as such, or the keyword that begins them is reported. -/
theorem complete_or_found {keyword : Token} {before rest after : List Token}
    (hstop : stop.kind = .endOfInput) (h : binding.Accepts (keyword :: rest))
    (hts : ts = before ++ keyword :: (rest ++ after)) :
    .complete (keyword :: rest) ∈ readings stop ts ∨
      keyword ∈ (readings stop ts).filterMap Reading.found? := by
  have hlet : keyword.kind = .keyword .letKw := by
    cases h with
    | cons hkeyword _ => exact List.mem_singleton.mp hkeyword
  induction ts using readings.induct stop generalizing before with
  | case1 => simp at hts
  | case2 t ts ih =>
      cases before with
      | nil =>
          rw [hts, List.nil_append, ← List.cons_append, readings_of_accepts h]
          exact Or.inl List.mem_cons_self
      | cons first before =>
          rw [readings_cons, List.mem_cons, List.filterMap_cons]
          rw [hts] at ih ⊢
          rcases left_or_mem_pulled_tail hstop first before (rest ++ after) with
            ⟨between, hleft⟩ | hpulled
          · rcases ih hleft with hcomplete | hfound
            · exact Or.inl (Or.inr hcomplete)
            · right
              split
              · exact hfound
              · exact List.mem_cons_of_mem _ hfound
          · right
            rw [found?_of_mem_pulled_tail hpulled hlet]
            exact List.mem_cons_self

end Production

/-! ## The diagnostic about a token -/

/-- The position of the first byte of the token. -/
def Token.place (bytes : Bytes) (t : Token) : Position := Position.after (bytes.take t.span.start)

namespace Ahead

variable {bytes : Bytes} {k : Nat} {ts : List Token} {t u : Token}

/-- Each token starts behind those before it, and the end of the input behind all of them. -/
theorem pairwise_start_lt (h : Ahead bytes k ts) :
    (ts ++ [Token.endOf bytes]).Pairwise fun t u => t.span.start < u.span.start := by
  induction ts generalizing k with
  | nil => simp
  | cons t ts ih =>
      rw [List.cons_append, List.pairwise_cons]
      refine ⟨?_, ih h.2.2⟩
      intro u hu
      have hlt := h.start_lt_stop List.mem_cons_self
      have hle : t.span.stop ≤ u.span.start := by
        rcases List.mem_append.mp hu with hu | hu
        · exact h.2.2.le_start hu
        · rw [List.mem_singleton.mp hu]
          exact h.2.2.le_length
      omega

theorem nodup_starts (h : Ahead bytes k ts) :
    ((ts ++ [Token.endOf bytes]).map fun t => t.span.start).Nodup := by
  apply List.pairwise_map.mpr
  exact h.pairwise_start_lt.imp Nat.ne_of_lt

theorem nodup (h : Ahead bytes k ts) : (ts ++ [Token.endOf bytes]).Nodup :=
  List.Nodup.of_map _ h.nodup_starts

/-- No token ends behind the bytes, the end of the input included. -/
theorem stop_le_of_mem_append (h : Ahead bytes k ts) (ht : t ∈ ts ++ [Token.endOf bytes]) :
    t.span.stop ≤ bytes.length := by
  rcases List.mem_append.mp ht with ht | ht
  · exact h.stop_le ht
  · rw [List.mem_singleton.mp ht]
    exact Nat.le_refl _

theorem start_le (h : Ahead bytes k ts) (ht : t ∈ ts ++ [Token.endOf bytes]) :
    t.span.start ≤ bytes.length :=
  Nat.le_trans t.span.start_le_stop (h.stop_le_of_mem_append ht)

/-- No two tokens are at one place. -/
theorem eq_of_place_eq (h : Ahead bytes k ts) (ht : t ∈ ts ++ [Token.endOf bytes])
    (hu : u ∈ ts ++ [Token.endOf bytes]) (hplace : t.place bytes = u.place bytes) : t = u := by
  apply List.inj_on_of_nodup_map h.nodup_starts ht hu
  exact Position.after_take_inj (h.start_le ht) (h.start_le hu) hplace

end Ahead

/-- Exactly one diagnostic says that the token was found where it starts. -/
def ReportedOnce (bytes : Bytes) (result : ParseResult) (t : Token) : Prop :=
  ∃ p, t.span.position bytes = .ok p ∧
    ∃! j : Nat, ∃ message, result.diagnostics[j]? = some message ∧ Says message t.kind p

/-- The messages are about the tokens that were found instead of others, in order. -/
theorem Reading.forall₂_messages (bytes : Bytes) (rs : List Reading) :
    List.Forall₂ (fun t message => Says message t.kind (t.place bytes)) (rs.filterMap found?)
      (messages bytes rs) := by
  induction rs with
  | nil => exact .nil
  | cons r rs ih =>
      cases r with
      | complete ts => exact ih
      | mismatch accepted expected found => exact .cons (Diagnostic.says_message _) ih

/-- The message at an index is about the token that was found at that index. -/
theorem says_getElem?_iff {bytes : Bytes} {found : List Token} {messages : List String} {t : Token}
    (h : List.Forall₂ (fun t message => Says message t.kind (t.place bytes)) found messages)
    (hplace : ∀ u ∈ found, u.place bytes = t.place bytes → u = t) (j : Nat) :
    (∃ message, messages[j]? = some message ∧ Says message t.kind (t.place bytes)) ↔
      found[j]? = some t := by
  induction h generalizing j with
  | nil => simp
  | @cons u message found messages habout _ ih =>
      cases j with
      | zero =>
          constructor
          · rintro ⟨message', hmessage, ht⟩
            obtain rfl := Option.some.inj hmessage
            exact congrArg some (hplace u List.mem_cons_self (habout.position_unique ht))
          · intro hu
            obtain rfl := Option.some.inj hu
            exact ⟨message, rfl, habout⟩
      | succ j => exact ih (fun v hv => hplace v (List.mem_cons_of_mem u hv)) j

/-- A token is reported once if it was found instead of another, and else it is not. -/
theorem reportedOnce_iff {bytes : Bytes} {ts : List Token} {t : Token} {result : ParseResult}
    (h : Ahead bytes 0 ts) (ht : t ∈ ts)
    (hresult : result.diagnostics =
      Reading.messages bytes (Production.readings (Token.endOf bytes) ts)) :
    ReportedOnce bytes result t ↔
      t ∈ (Production.readings (Token.endOf bytes) ts).filterMap Reading.found? := by
  let found := (Production.readings (Token.endOf bytes) ts).filterMap Reading.found?
  have hnodup : found.Nodup := h.nodup.sublist (Production.found_sublist rfl ts)
  have hplace : ∀ u ∈ found, u.place bytes = t.place bytes → u = t := fun u hu =>
    h.eq_of_place_eq (Production.mem_of_mem_found rfl hu) (List.mem_append_left _ ht)
  have habout := says_getElem?_iff (Reading.forall₂_messages bytes _) hplace
  rw [← hresult] at habout
  have hspan : t.span.position bytes = .ok (t.place bytes) := Span.position_of_le (h.stop_le ht)
  constructor
  · rintro ⟨p, hp, j, hj, -⟩
    obtain rfl := Except.ok.inj (hspan.symm.trans hp)
    exact List.mem_of_getElem? ((habout j).mp hj)
  · intro hfound
    obtain ⟨j, hj⟩ := List.mem_iff_getElem?.mp hfound
    refine ⟨t.place bytes, hspan, j, (habout j).mpr hj, ?_⟩
    intro i hi
    have hlt : j < found.length := (List.getElem?_eq_some_iff.mp hj).1
    exact ((List.getElem?_inj hlt hnodup).mp (hj.trans ((habout i).mp hi).symm)).symm

end LetLang
