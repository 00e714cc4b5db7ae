import LetLang.Proofs.Stream
import LetLang.Reading

/-!
# Reading a production off a list of tokens

`Production.readFrom` reads a production off the tokens that are left, behind which one last token
comes for ever. A cursor with these tokens ahead reads the same (`Cursor.read_of_ahead`), so what a
reading pulls and where it stops can be shown on lists.

Main statements: a reading stops at the first token that is not accepted in its place
(`readFrom_complete`, `readFrom_mismatch`). A production that never accepts the last token pulls it
only behind all others (`readFrom_pulled`), and so do readings of bindings one after another
(`readings_pulled`).
-/

namespace LetLang

/-- The end of the last token, or the given offset if there is none. -/
def Token.lastStop (offset : Nat) : List Token → Nat
  | [] => offset
  | t :: ts => lastStop t.span.stop ts

theorem Token.lastStop_append (offset : Nat) (ts us : List Token) :
    lastStop offset (ts ++ us) = lastStop (lastStop offset ts) us := by
  induction ts generalizing offset with
  | nil => rfl
  | cons t ts ih => exact ih t.span.stop

theorem Token.lastStop_eq (offset : Nat) (ts : List Token) :
    lastStop offset ts = (ts.getLast?.map fun t => t.span.stop).getD offset := by
  induction ts generalizing offset with
  | nil => rfl
  | cons t ts ih =>
      rw [lastStop, ih, List.getLast?_cons]
      cases ts.getLast? <;> rfl

namespace Production

variable {stop : Token} {production : Production} {ts : List Token}

/-- What a production reads off the tokens, and what it leaves; `stop` comes behind them. -/
def readFrom (stop : Token) : Production → List Token → Reading × List Token
  | [], ts => (.complete [], ts)
  | expected :: more, ts =>
      let t := ts.headD stop
      if t.kind ∈ expected then
        let result := readFrom stop more ts.tail
        (result.1.cons t, result.2)
      else (.mismatch [] expected t, ts.tail)

theorem readFrom_of_mem {expected : List TokenKind} {more : Production}
    (h : (ts.headD stop).kind ∈ expected) :
    readFrom stop (expected :: more) ts =
      ((readFrom stop more ts.tail).1.cons (ts.headD stop), (readFrom stop more ts.tail).2) := by
  rw [readFrom]
  exact if_pos h

theorem readFrom_of_not_mem {expected : List TokenKind} {more : Production}
    (h : (ts.headD stop).kind ∉ expected) :
    readFrom stop (expected :: more) ts = (.mismatch [] expected (ts.headD stop), ts.tail) := by
  rw [readFrom]
  exact if_neg h

/-! ## What is pulled, and what is left -/

theorem length_readFrom_le (stop : Token) (production : Production) (ts : List Token) :
    (production.readFrom stop ts).2.length ≤ ts.length := by
  induction production generalizing ts with
  | nil => exact Nat.le_refl _
  | cons expected more ih =>
      have htail : ts.tail.length ≤ ts.length := by simp
      by_cases h : (ts.headD stop).kind ∈ expected
      · rw [readFrom_of_mem h]
        exact Nat.le_trans (ih ts.tail) htail
      · rw [readFrom_of_not_mem h]
        exact htail

theorem length_readFrom_lt (stop : Token) (expected : List TokenKind) (more : Production)
    (t : Token) (ts : List Token) :
    (readFrom stop (expected :: more) (t :: ts)).2.length < (t :: ts).length := by
  by_cases h : ((t :: ts).headD stop).kind ∈ expected
  · rw [readFrom_of_mem h]
    exact Nat.lt_succ_of_le (length_readFrom_le stop more ts)
  · rw [readFrom_of_not_mem h]
    exact Nat.lt_succ_self _

/-- The last token is pulled only once all others are accepted, and then nothing is left. -/
theorem readFrom_pulled (hstop : ∀ expected ∈ production, stop.kind ∉ expected) :
    (production.readFrom stop ts).1.pulled ++ (production.readFrom stop ts).2 = ts ∨
      ∃ expected, production.readFrom stop ts = (.mismatch ts expected stop, []) := by
  induction production generalizing ts with
  | nil => exact Or.inl rfl
  | cons expected more ih =>
      have hmore := fun e he => hstop e (List.mem_cons_of_mem _ he)
      cases ts with
      | nil =>
          have hne : (([] : List Token).headD stop).kind ∉ expected :=
            hstop expected List.mem_cons_self
          exact Or.inr ⟨expected, readFrom_of_not_mem hne⟩
      | cons t ts =>
          by_cases h : ((t :: ts).headD stop).kind ∈ expected
          · rw [readFrom_of_mem h]
            rcases @ih ts hmore with hleft | ⟨e, he⟩
            · left
              rw [Reading.pulled_cons]
              exact congrArg (t :: ·) hleft
            · right
              refine ⟨e, ?_⟩
              rw [List.tail_cons, he]
              rfl
          · rw [readFrom_of_not_mem h]
            exact Or.inl rfl

theorem mem_of_mem_pulled {stop t : Token} {production : Production} {ts : List Token}
    (h : t ∈ (production.readFrom stop ts).1.pulled) : t ∈ ts ∨ t = stop := by
  induction production generalizing ts with
  | nil => simp [readFrom, Reading.pulled] at h
  | cons expected more ih =>
      have hhead : ts.headD stop ∈ ts ∨ ts.headD stop = stop := by
        cases ts with
        | nil => exact Or.inr rfl
        | cons u us => exact Or.inl List.mem_cons_self
      by_cases hu : (ts.headD stop).kind ∈ expected
      · rw [readFrom_of_mem hu, Reading.pulled_cons] at h
        rcases List.mem_cons.mp h with rfl | h
        · exact hhead
        · rcases ih h with ht | ht
          · exact Or.inl (List.mem_of_mem_tail ht)
          · exact Or.inr ht
      · rw [readFrom_of_not_mem hu] at h
        obtain rfl := List.mem_singleton.mp h
        exact hhead

theorem endOfInput_not_mem_binding : ∀ expected ∈ binding, TokenKind.endOfInput ∉ expected := by
  decide

theorem readFrom_binding_pulled (hstop : stop.kind = .endOfInput) (ts : List Token) :
    (binding.readFrom stop ts).1.pulled ++ (binding.readFrom stop ts).2 = ts ∨
      ∃ expected, binding.readFrom stop ts = (.mismatch ts expected stop, []) := by
  apply readFrom_pulled
  rw [hstop]
  exact endOfInput_not_mem_binding

/-! ## Where a reading stops -/

/-- Each token has one of the kinds that are accepted in its place. -/
abbrev Accepts (production : Production) (ts : List Token) : Prop :=
  List.Forall₂ (fun expected t => t.kind ∈ expected) production ts

/-- A binding is five tokens. -/
theorem exists_of_accepts_binding {us : List Token} (h : binding.Accepts us) :
    ∃ keyword ident assign value semicolon, us = [keyword, ident, assign, value, semicolon] ∧
      keyword.kind = .keyword .letKw ∧ ident.kind = .identifier ∧
      assign.kind = .symbol .assign ∧ (value.kind = .integer ∨ value.kind = .string) ∧
      semicolon.kind = .symbol .semicolon := by
  simp only [Accepts, binding, bindingTail, List.forall₂_cons_left_iff, List.forall₂_nil_left_iff,
    List.mem_singleton] at h
  obtain ⟨keyword, _, hkeyword, ⟨ident, _, hident, ⟨assign, _, hassign, ⟨value, _, hvalue,
    ⟨semicolon, _, hsemicolon, rfl, rfl⟩, rfl⟩, rfl⟩, rfl⟩, rfl⟩ := h
  exact ⟨keyword, ident, assign, value, semicolon, rfl, hkeyword, hident, hassign,
    by simpa using hvalue, hsemicolon⟩

theorem readFrom_complete {us : List Token}
    (h : (production.readFrom stop ts).1 = .complete us) : production.Accepts us := by
  induction production generalizing ts us with
  | nil =>
      cases h
      exact .nil
  | cons expected more ih =>
      by_cases ht : (ts.headD stop).kind ∈ expected
      · rw [readFrom_of_mem ht] at h
        cases hr : (readFrom stop more ts.tail).1 with
        | complete vs =>
            rw [hr, Reading.cons_complete] at h
            cases h
            exact .cons ht (ih hr)
        | mismatch vs e found => simp [hr] at h
      · rw [readFrom_of_not_mem ht] at h
        contradiction

/-- A complete reading splits the tokens, unless it accepts the one behind them. -/
theorem eq_append_of_readFrom_complete {us : List Token}
    (hstop : ∀ expected ∈ production, stop.kind ∉ expected)
    (h : (production.readFrom stop ts).1 = .complete us) :
    ts = us ++ (production.readFrom stop ts).2 := by
  rcases @readFrom_pulled stop production ts hstop with hpulled | ⟨expected, hshort⟩
  · rw [h] at hpulled
    exact hpulled.symm
  · rw [hshort] at h
    contradiction

theorem readFrom_of_accepts {us : List Token} (h : production.Accepts us) (ts : List Token) :
    production.readFrom stop (us ++ ts) = (.complete us, ts) := by
  induction h with
  | nil => rfl
  | @cons expected t more us ht hmore ih =>
      have hhead : ((t :: us ++ ts).headD stop).kind ∈ expected := ht
      rw [readFrom_of_mem hhead]
      simp only [List.cons_append, List.tail_cons, List.headD_cons, ih, Reading.cons_complete]

/-- The reading stops at the first token that is not accepted in its place. -/
theorem readFrom_mismatch {accepted : List Token} {expected : List TokenKind} {found : Token}
    (h : (production.readFrom stop ts).1 = .mismatch accepted expected found) :
    ∃ matched more, production = matched ++ expected :: more ∧
      Accepts matched accepted ∧ found.kind ∉ expected := by
  induction production generalizing ts accepted with
  | nil => contradiction
  | cons first rest ih =>
      by_cases ht : (ts.headD stop).kind ∈ first
      · rw [readFrom_of_mem ht] at h
        cases hr : (readFrom stop rest ts.tail).1 with
        | complete vs => simp [hr] at h
        | mismatch vs e f =>
            rw [hr, Reading.cons_mismatch] at h
            cases h
            rcases ih hr with ⟨matched, more, rfl, hmatched, hfound⟩
            exact ⟨first :: matched, more, rfl, .cons ht hmatched, hfound⟩
      · rw [readFrom_of_not_mem ht] at h
        cases h
        exact ⟨[], rest, rfl, .nil, ht⟩

/-! ## Reading bindings until no token is left -/

/-- The readings of bindings off the tokens until none is left. -/
def readings (stop : Token) : List Token → List Reading
  | [] => []
  | t :: ts =>
      (binding.readFrom stop (t :: ts)).1 ::
        readings stop (binding.readFrom stop (t :: ts)).2
termination_by ts => ts.length
decreasing_by exact length_readFrom_lt stop _ _ t ts

theorem readings_nil (stop : Token) : readings stop [] = [] := by
  rw [readings]

theorem readings_cons (stop t : Token) (ts : List Token) :
    readings stop (t :: ts) =
      (binding.readFrom stop (t :: ts)).1 ::
        readings stop (binding.readFrom stop (t :: ts)).2 := by
  rw [readings]

theorem readings_eq_nil_iff {stop : Token} {ts : List Token} : readings stop ts = [] ↔ ts = [] := by
  cases ts with
  | nil => simp [readings_nil]
  | cons t ts => simp [readings_cons]

theorem length_readings_le (stop : Token) (ts : List Token) :
    (readings stop ts).length ≤ ts.length := by
  induction ts using readings.induct stop with
  | case1 => simp [readings_nil]
  | case2 t ts ih =>
      have hlt : (binding.readFrom stop (t :: ts)).2.length < (t :: ts).length :=
        length_readFrom_lt stop _ _ t ts
      rw [readings_cons, List.length_cons]
      omega

theorem readings_of_accepts {stop : Token} {us : List Token}
    (h : binding.Accepts us) (ts : List Token) :
    readings stop (us ++ ts) = .complete us :: readings stop ts := by
  have hread := @readFrom_of_accepts stop binding us h ts
  cases h with
  | cons ht hmore =>
      rw [List.cons_append] at hread ⊢
      rw [readings_cons, hread]

/-- The last token comes into no binding before all others, and then it cuts the binding short. -/
theorem readings_pulled {stop : Token} {ts : List Token}
    (hstop : stop.kind = .endOfInput) :
    (readings stop ts).flatMap Reading.pulled = ts ∨
      ∃ earlier first more expected,
        readings stop ts = earlier ++ [.mismatch (first :: more) expected stop] ∧
        earlier.flatMap Reading.pulled ++ first :: more = ts ∧ first.kind = .keyword .letKw := by
  induction ts using readings.induct stop with
  | case1 =>
      left
      rw [readings_nil]
      rfl
  | case2 t ts ih =>
      rw [readings_cons]
      rcases readFrom_binding_pulled hstop (t :: ts) with hpulled | ⟨expected, hread⟩
      · rcases ih with hrest | ⟨earlier, first, more, expected, hrest, hts, hfirst⟩
        · left
          rw [List.flatMap_cons, hrest, hpulled]
        · right
          refine ⟨(binding.readFrom stop (t :: ts)).1 :: earlier, first, more, expected, ?_, ?_,
            hfirst⟩
          · rw [hrest]
            rfl
          · rw [List.flatMap_cons, List.append_assoc, hts, hpulled]
      · right
        obtain ⟨matched, rest, hbinding, hmatched, -⟩ := readFrom_mismatch (congrArg Prod.fst hread)
        refine ⟨[], t, ts, expected, ?_, rfl, ?_⟩
        · rw [hread, readings_nil]
          rfl
        · cases hmatched with
          | cons ht _ =>
              rcases List.cons_eq_cons.mp hbinding with ⟨rfl, -⟩
              exact List.mem_singleton.mp ht

end Production

/-! ## Cursors -/

/-- A cursor reads what the tokens ahead of it give, and ends behind the last token it pulls. -/
theorem Cursor.read_of_ahead {bytes : Bytes} {k : Nat} {ts : List Token}
    (production : Production) (h : Ahead bytes k ts) :
    let result := production.readFrom (Token.endOf bytes) ts
    let offset := Token.lastStop k result.1.pulled
    (Cursor.mk bytes k).read production = .ok (result.1, Cursor.mk bytes offset) ∧
      Ahead bytes offset result.2 := by
  induction production generalizing k ts with
  | nil => exact ⟨rfl, h⟩
  | cons expected more ih =>
      rcases next_of_ahead h with ⟨hnext, htail⟩
      by_cases ht : (ts.headD (Token.endOf bytes)).kind ∈ expected
      · rcases ih htail with ⟨hread, hrest⟩
        rw [Production.readFrom_of_mem ht]
        refine ⟨?_, ?_⟩
        · simp only [read, hnext, if_pos ht, hread, Reading.pulled_cons]
          rfl
        · simp only [Reading.pulled_cons]
          exact hrest
      · rw [Production.readFrom_of_not_mem ht]
        refine ⟨?_, htail⟩
        simp only [read, hnext, if_neg ht]
        rfl

end LetLang
