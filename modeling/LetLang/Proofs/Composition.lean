import LetLang.Proofs.Extension
import LetLang.Proofs.Place

/-!
# Parsing one source behind another

What a production reads depends on the kinds of the tokens alone, so tokens that are moved are read
as before (`Production.readings_map`). Behind a source whose last call yields a statement only blanks
are left. So a parse of two sources in a row yields what the first one yields, and then what the
second one yields on its own, moved behind the first (`parse_append_of_finished`).
-/

namespace LetLang

/-! ## Reading moved tokens -/

def Reading.map (f : Token → Token) : Reading → Reading
  | complete ts => complete (ts.map f)
  | mismatch accepted expected found => mismatch (accepted.map f) expected (f found)

theorem Reading.map_cons (f : Token → Token) (t : Token) (r : Reading) :
    (r.cons t).map f = (r.map f).cons (f t) := by
  cases r <;> rfl

namespace Production

variable {f : Token → Token}

/-- Only the kinds of the tokens say what is read. -/
theorem readFrom_map (hf : ∀ t, (f t).kind = t.kind) (stop : Token) (production : Production)
    (ts : List Token) :
    production.readFrom (f stop) (ts.map f) =
      ((production.readFrom stop ts).1.map f, (production.readFrom stop ts).2.map f) := by
  induction production generalizing ts with
  | nil => rfl
  | cons expected more ih =>
      have hhead : (ts.map f).headD (f stop) = f (ts.headD stop) := by
        cases ts <;> rfl
      by_cases h : (ts.headD stop).kind ∈ expected
      · have hmoved : ((ts.map f).headD (f stop)).kind ∈ expected := by
          rwa [hhead, hf]
        rw [readFrom_of_mem h, readFrom_of_mem hmoved, hhead, ← List.map_tail, ih,
          Reading.map_cons]
      · have hmoved : ((ts.map f).headD (f stop)).kind ∉ expected := by
          rwa [hhead, hf]
        rw [readFrom_of_not_mem h, readFrom_of_not_mem hmoved, hhead, ← List.map_tail]
        rfl

theorem readings_map (hf : ∀ t, (f t).kind = t.kind) (stop : Token) (ts : List Token) :
    readings (f stop) (ts.map f) = (readings stop ts).map (Reading.map f) := by
  induction ts using readings.induct stop with
  | case1 => simp [readings_nil]
  | case2 t ts ih =>
      have hread := readFrom_map hf stop binding (t :: ts)
      rw [List.map_cons] at hread
      rw [List.map_cons, readings_cons, readings_cons, hread, ih, List.map_cons]

end Production

/-! ## Moved yields -/

/-- The statement with each of its tokens replaced by another one. -/
def Statement.map (f : Token → Token) (s : Statement) : Statement where
  ident := f s.ident
  value := { token := f s.value.token }

theorem Statement.ofTokens?_map {ts : List Token} {s : Statement} (f : Token → Token)
    (h : ofTokens? ts = some s) : ofTokens? (ts.map f) = some (s.map f) := by
  unfold ofTokens? at h
  split at h
  · obtain rfl := Option.some.inj h
    rfl
  · obtain rfl := Option.some.inj h
    rfl
  · contradiction

/-- The statement with `n` more bytes in front of it. -/
def Statement.shift (n : Nat) (s : Statement) : Statement where
  ident := s.ident.shift n
  value := { token := s.value.token.shift n }

theorem Statement.ofTokens?_shift {ts : List Token} {s : Statement} (n : Nat)
    (h : ofTokens? ts = some s) : ofTokens? (ts.map (Token.shift n)) = some (s.shift n) :=
  ofTokens?_map (Token.shift n) h

/--
How a yield changes with bytes in front of the source: a statement moves by their number, and in a
message the position that it ends with becomes the one behind them.
-/
inductive Yield.Behind (front : Bytes) : Yield → Yield → Prop
  | statement (s : Statement) : Behind front (.statement s) (.statement (s.shift front.length))
  | message (text : String) (p : Position) :
      Behind front (.message (text ++ " at " ++ p.text))
        (.message (text ++ " at " ++ (p.behind front).text))

namespace Reading

/-- A reading whose tokens are moved behind other bytes yields the same there, moved. -/
theorem Yields.exists_behind {bytes : Bytes} {r : Reading} {y : Yield} (front : Bytes)
    (h : r.Yields bytes y) :
    ∃ z, (r.map (Token.shift front.length)).Yields (front ++ bytes) z ∧ y.Behind front z := by
  cases h with
  | statement h =>
      exact ⟨_, .statement (Statement.ofTokens?_shift front.length h), .statement _⟩
  | message accepted expected found =>
      have hposition : Position.after ((front ++ bytes).take (front.length + found.span.start)) =
          (Position.after (bytes.take found.span.start)).behind front := by
        rw [List.take_length_add_append, Position.after_append]
      refine ⟨_, .message _ expected _, ?_⟩
      show Yield.Behind front _ (.message (Diagnostic.message
        { expected
          found := found.kind
          position := Position.after ((front ++ bytes).take (front.length + found.span.start)) }))
      rw [hposition]
      exact .message _ _

theorem exists_forall₂_behind {bytes : Bytes} {rs : List Reading} {ys : List Yield}
    (front : Bytes) (h : List.Forall₂ (Reading.Yields bytes) rs ys) :
    ∃ zs, List.Forall₂ (Reading.Yields (front ++ bytes))
        (rs.map (Reading.map (Token.shift front.length))) zs ∧
      List.Forall₂ (Yield.Behind front) ys zs := by
  induction h with
  | nil => exact ⟨[], .nil, .nil⟩
  | cons hr _ ih =>
      obtain ⟨z, hz, hbehind⟩ := hr.exists_behind front
      obtain ⟨zs, hzs, hrest⟩ := ih
      exact ⟨z :: zs, .cons hz hzs, .cons hbehind hrest⟩

end Reading

/-! ## Two sources in a row -/

/-- Where nothing is ahead in the first source, the tokens of the second one are ahead. -/
theorem Ahead.append {front bytes : Bytes} {k : Nat} {ts : List Token} (hfront : Ahead front k [])
    (h : Ahead bytes 0 ts) : Ahead (front ++ bytes) k (ts.map (Token.shift front.length)) := by
  have hk := hfront.le_length
  have hdrop : (front ++ bytes).drop k = front.drop k ++ bytes :=
    List.drop_append_of_le_length hk
  have hend : k + (front.drop k).length = front.length + 0 := by
    rw [List.length_drop]
    omega
  rw [← ahead_of_gap_iff hfront.isGap hdrop, hend]
  exact h.shift front

/-- A parse without diagnostics is finished, if it finds a statement. -/
theorem ParseResult.exists_getLast?_of_diagnostics_eq_nil {ys : List Yield}
    (hstatements : (ofYields ys).statements ≠ []) (hdiagnostics : (ofYields ys).diagnostics = []) :
    ∃ s, ys.getLast? = some (.statement s) := by
  rcases List.eq_nil_or_concat' ys with rfl | ⟨init, y, rfl⟩
  · contradiction
  · cases y with
    | statement s => exact ⟨s, List.getLast?_concat⟩
    | message text => simp [ofYields, Yield.message?] at hdiagnostics

/--
Take a source that has no tokens, or whose last call yields a statement; earlier ones may yield
diagnostics. With another source behind it, the calls yield what they do for the first source, and
then what they do for the second one, moved behind the first.
-/
theorem parse_append_of_finished (a b : Bytes) :
    ∃ ys zs, Transcript a ys ∧ Transcript b zs ∧
      ((Source.bytes a).tokenize = .ok [Token.endOf a] ∨
          (∃ s, ys.getLast? = some (.statement s)) →
        ∃ moved, Transcript (a ++ b) (ys ++ moved) ∧
          List.Forall₂ (Yield.Behind a) zs moved) := by
  obtain ⟨ts, hts⟩ := exists_ahead (Nat.zero_le a.length)
  obtain ⟨us, hus⟩ := exists_ahead (Nat.zero_le b.length)
  obtain ⟨ys, hys⟩ := Production.exists_yields a (Token.endOf a) ts
  obtain ⟨zs, hzs⟩ := Production.exists_yields b (Token.endOf b) us
  refine ⟨ys, zs, transcript_of_ahead hts hys, transcript_of_ahead hus hzs, fun hfinished => ?_⟩
  have hsettled : Reading.Settled (Production.readings (Token.endOf a) ts) [] := by
    rcases hfinished with hnone | ⟨s, hs⟩
    · have hnil : Ahead a 0 [] := (Source.tokenize_eq_iff rfl).mp hnone
      rw [hts.unique hnil, Production.readings_nil]
      intro _ r hr
      contradiction
    · exact settled_of_getLast? hys hs
  have hreadings := (List.append_nil (Production.readings (Token.endOf a) ts)).symm
  obtain ⟨-, left, hleft, hnil⟩ :=
    Production.exists_of_readings_eq_append rfl hreadings hsettled
  have hend : Ahead a (Token.lastStop 0
      ((Production.readings (Token.endOf a) ts).flatMap Reading.pulled)) [] := by
    rw [Production.readings_eq_nil_iff.mp hnil] at hleft
    exact (hleft ▸ hts).of_append
  obtain ⟨moved, hmoved, hbehind⟩ := Reading.exists_forall₂_behind a hzs
  refine ⟨moved, transcript_append hts hreadings hsettled hys (hend.append hus) ?_, hbehind⟩
  rw [← Token.shift_endOf, Production.readings_map (Token.kind_shift a.length)]
  exact hmoved

theorem parse_append_of_finished_newline :
    let a := "let a = \"\n\";".toList.map Char.toUInt8
    let b := " let".toList.map Char.toUInt8
    ∃ ys zs, (∃ s, ys.getLast? = some (.statement s)) ∧ Transcript b zs ∧
      ∃ moved, Transcript (a ++ b) (ys ++ moved) ∧ List.Forall₂ (Yield.Behind a) zs moved := by
  intro a b
  obtain ⟨ys, zs, hys, hzs, happend⟩ := parse_append_of_finished a b
  have hparse : ((Source.bytes a).parse false none).1 = .ok
      { statements :=
          [{ ident := { kind := .identifier, span := { start := 4, stop := 5 } }
             value := { token := { kind := .string, span := { start := 8, stop := 11 } } } }]
        diagnostics := [] } := by decide
  have hresult := Except.ok.inj (hparse.symm.trans hys.parses)
  have hfinished : ∃ s, ys.getLast? = some (.statement s) := by
    apply ParseResult.exists_getLast?_of_diagnostics_eq_nil
    · rw [← hresult]
      exact List.cons_ne_nil _ _
    · rw [← hresult]
  exact ⟨ys, zs, hfinished, hzs, happend (Or.inr hfinished)⟩

end LetLang
