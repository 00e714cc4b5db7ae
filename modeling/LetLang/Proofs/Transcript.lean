import LetLang.Proofs.Accounting

/-!
# What the calls of a parse yield

A call yields a statement or the text of a diagnostic. `Transcript` lists what the calls of a parse
yield, in order; every source has exactly one transcript (`exists_transcript`,
`Transcript.unique`), and the result of the parse is read off it.

A reading is whole if it is made of the tokens that it pulls, whatever comes behind them. All
readings of a parse are whole but the last one, and that one is if it is complete
(`Production.exists_of_readings_eq_append`). So a transcript can be carried over to another source
that starts with the same tokens (`transcript_of_ahead`).
-/

namespace LetLang

/-! ## Whole readings -/

/-- The reading is made of the tokens that it pulls, whatever comes behind them. -/
def Reading.Whole (r : Reading) : Prop :=
  ∀ stop ts, Production.binding.readFrom stop (r.pulled ++ ts) = (r, ts)

/-- The readings are not the last ones, or the last of them is complete. -/
def Reading.Settled (rs rest : List Reading) : Prop :=
  rest = [] → ∀ r, rs.getLast? = some r → ∃ us, r = .complete us

namespace Production

variable {stop : Token} {production : Production} {ts us : List Token} {reading : Reading}

theorem pulled_readFrom_ne_nil (stop : Token) (expected : List TokenKind) (more : Production)
    (ts : List Token) : (readFrom stop (expected :: more) ts).1.pulled ≠ [] := by
  by_cases h : (ts.headD stop).kind ∈ expected
  · rw [readFrom_of_mem h, Reading.pulled_cons]
    exact List.cons_ne_nil _ _
  · rw [readFrom_of_not_mem h]
    exact List.cons_ne_nil _ _

/-- A reading that did not need the last token needs no other tokens than it pulled. -/
theorem readFrom_pulled_append (h : production.readFrom stop ts = (reading, us))
    (hpulled : reading.pulled ++ us = ts) (other : Token) (vs : List Token) :
    production.readFrom other (reading.pulled ++ vs) = (reading, vs) := by
  induction production generalizing ts reading with
  | nil =>
      cases h
      rfl
  | cons expected more ih =>
      by_cases ht : (ts.headD stop).kind ∈ expected
      · rw [readFrom_of_mem ht] at h
        obtain ⟨rfl, rfl⟩ := Prod.mk.inj h
        rw [Reading.pulled_cons, List.cons_append] at hpulled
        have hrest := ih rfl (congrArg List.tail hpulled)
        have hhead : ∀ ws : List Token, (ts.headD stop :: ws).headD other = ts.headD stop :=
          fun _ => rfl
        rw [Reading.pulled_cons, List.cons_append, readFrom_of_mem (by rwa [hhead]),
          List.tail_cons, hrest, hhead]
      · rw [readFrom_of_not_mem ht] at h
        obtain ⟨rfl, rfl⟩ := Prod.mk.inj h
        exact readFrom_of_not_mem ht

theorem readings_append {rs : List Reading} (h : ∀ r ∈ rs, r.Whole) (stop : Token)
    (ts : List Token) :
    readings stop (rs.flatMap Reading.pulled ++ ts) = rs ++ readings stop ts := by
  induction rs with
  | nil => rfl
  | cons r rs ih =>
      have hr := h r List.mem_cons_self stop (rs.flatMap Reading.pulled ++ ts)
      have hne : r.pulled ≠ [] := by
        have hpulled := pulled_readFrom_ne_nil stop [.keyword .letKw] bindingTail
          (r.pulled ++ (rs.flatMap Reading.pulled ++ ts))
        have hbinding : readFrom stop ([.keyword .letKw] :: bindingTail)
            (r.pulled ++ (rs.flatMap Reading.pulled ++ ts)) = (r, _) := hr
        rwa [hbinding] at hpulled
      obtain ⟨t, more, ht⟩ := List.exists_cons_of_ne_nil hne
      rw [List.flatMap_cons, List.append_assoc]
      rw [ht, List.cons_append] at hr ⊢
      rw [readings_cons, hr, ih fun q hq => h q (List.mem_cons_of_mem r hq)]
      rfl

/--
Settled readings are whole, and the others are those of what they leave. A last one that is not
complete is not settled, since the end may have cut it short.
-/
theorem exists_of_readings_eq_append {rs more : List Reading} (hstop : stop.kind = .endOfInput)
    (h : readings stop ts = rs ++ more)
    (hsettled : Reading.Settled rs more) :
    (∀ r ∈ rs, r.Whole) ∧
      ∃ us, ts = rs.flatMap Reading.pulled ++ us ∧ readings stop us = more := by
  induction rs generalizing ts with
  | nil => exact ⟨by simp, ts, rfl, h⟩
  | cons r rs ih =>
      cases ts with
      | nil =>
          rw [readings_nil] at h
          contradiction
      | cons t ts =>
          rw [readings_cons, List.cons_append] at h
          obtain ⟨hr, hrest⟩ := List.cons_eq_cons.mp h
          rcases readFrom_binding_pulled hstop (t :: ts) with hpulled | ⟨expected, hshort⟩
          · have hlast : Reading.Settled rs more := by
              intro hnil q hq
              apply hsettled hnil q
              rw [List.getLast?_cons, hq]
              rfl
            obtain ⟨hwhole, us, hus, hreadings⟩ := ih hrest hlast
            have hfirst : r.Whole := fun other vs =>
              hr ▸ readFrom_pulled_append rfl hpulled other vs
            refine ⟨List.forall_mem_cons.mpr ⟨hfirst, hwhole⟩, us, ?_, hreadings⟩
            rw [List.flatMap_cons, List.append_assoc, ← hus, ← hr, hpulled]
          · -- The reading is cut short, so it is the last one, and it is not complete.
            rw [hshort, readings_nil] at hrest
            obtain ⟨rfl, hnil⟩ := List.append_eq_nil_iff.mp hrest.symm
            obtain ⟨us, hcomplete⟩ := hsettled hnil r rfl
            rw [hshort, hcomplete] at hr
            contradiction

end Production

/-! ## Yields -/

/-- What a call of a parse yields: a statement, or the text of a diagnostic. -/
inductive Yield where
  | statement (s : Statement)
  | message (text : String)
deriving DecidableEq, Repr

namespace Yield

def statement? : Yield → Option Statement
  | statement s => some s
  | message _ => none

def message? : Yield → Option String
  | statement _ => none
  | message text => some text

/-- Which calls yield a statement, which statements these are, and all messages: no more is needed. -/
theorem eq_of_map_eq {ys zs : List Yield} (hs : ys.map statement? = zs.map statement?)
    (hm : ys.filterMap message? = zs.filterMap message?) : ys = zs := by
  induction ys generalizing zs with
  | nil => exact (List.map_eq_nil_iff.mp hs.symm).symm
  | cons y ys ih =>
      cases zs with
      | nil => contradiction
      | cons z zs =>
          obtain ⟨hhead, htail⟩ := List.cons_eq_cons.mp hs
          cases y with
          | statement s =>
              cases z with
              | statement s' =>
                  obtain rfl := Option.some.inj hhead
                  rw [ih htail hm]
              | message text => contradiction
          | message text =>
              cases z with
              | statement s => contradiction
              | message text' =>
                  obtain ⟨rfl, hrest⟩ := List.cons_eq_cons.mp hm
                  rw [ih htail hrest]

end Yield

/-- The result of a parse whose calls yield these. -/
def ParseResult.ofYields (yields : List Yield) : ParseResult where
  statements := yields.filterMap Yield.statement?
  diagnostics := yields.filterMap Yield.message?

/-- The call returns the statement, or it returns none and adds the message to the sink. -/
def Call.Yields (call : Call) : Yield → Prop
  | .statement s =>
      call.outcome = some s ∧ call.after.sink.messages = call.before.sink.messages
  | .message text =>
      call.outcome = none ∧ call.after.sink.messages = call.before.sink.messages ++ [text]

/-- What the calls of a parse of the bytes yield, one after another, until no token is left. -/
structure Transcript (bytes : Bytes) (yields : List Yield) : Prop where
  calls : ∃ calls final, (Session.opening bytes).Runs calls final ∧ final.cursor.atEnd = true ∧
    (Session.opening bytes).readWhileLeft bytes.length = (.ok (calls.map Call.outcome), final) ∧
    List.Forall₂ Call.Yields calls yields
  parses : ((Source.bytes bytes).parse false none).1 = .ok (.ofYields yields)

theorem Call.Yields.outcome_eq {call : Call} {y : Yield} (h : call.Yields y) :
    call.outcome = y.statement? := by
  cases y with
  | statement s => exact h.1
  | message text => exact h.1

theorem Call.map_outcome_eq {calls : List Call} {yields : List Yield}
    (h : List.Forall₂ Call.Yields calls yields) :
    calls.map outcome = yields.map Yield.statement? := by
  induction h with
  | nil => rfl
  | cons hy _ ih => rw [List.map_cons, List.map_cons, hy.outcome_eq, ih]

theorem Transcript.unique {bytes : Bytes} {ys zs : List Yield} (h : Transcript bytes ys)
    (h' : Transcript bytes zs) : ys = zs := by
  obtain ⟨calls, final, -, -, hloop, hys⟩ := h.calls
  obtain ⟨calls', final', -, -, hloop', hzs⟩ := h'.calls
  have hsame := Except.ok.inj (congrArg Prod.fst (hloop.symm.trans hloop'))
  have hresult := Except.ok.inj (h.parses.symm.trans h'.parses)
  refine Yield.eq_of_map_eq ?_ (congrArg ParseResult.diagnostics hresult)
  rw [← Call.map_outcome_eq hys, ← Call.map_outcome_eq hzs, hsame]

/-! ## What readings yield -/

/-- What the call that makes the reading yields, in a parse of the bytes. -/
inductive Reading.Yields (bytes : Bytes) : Reading → Yield → Prop
  | statement {ts : List Token} {s : Statement} (h : Statement.ofTokens? ts = some s) :
      Yields bytes (.complete ts) (.statement s)
  | message (accepted : List Token) (expected : List TokenKind) (found : Token) :
      Yields bytes (.mismatch accepted expected found)
        (.message (Diagnostic.message
          { expected
            found := found.kind
            position := Position.after (bytes.take found.span.start) }))

namespace Reading

variable {bytes : Bytes} {r : Reading} {y : Yield}

theorem Yields.statement_eq (h : r.Yields bytes y) : r.statement? = y.statement? := by
  cases h with
  | statement h => exact h
  | message => rfl

theorem Yields.messages_eq (h : r.Yields bytes y) : messages bytes [r] = y.message?.toList := by
  cases h with
  | statement => rfl
  | message => rfl

/-- Bytes behind a source leave alone what is yielded about its tokens. -/
theorem Yields.append (h : r.Yields bytes y) (hr : ∀ t ∈ r.pulled, t.span.start ≤ bytes.length)
    (more : Bytes) : r.Yields (bytes ++ more) y := by
  cases h with
  | statement h => exact .statement h
  | message accepted expected found =>
      have hfound := hr found (by simp [pulled])
      have hyields := @Yields.message (bytes ++ more) accepted expected found
      rwa [List.take_append_of_le_length hfound] at hyields

end Reading

theorem Call.yields_of_reading {call : Call} {y : Yield}
    (h : call.reading.Yields call.before.cursor.source y) : call.Yields y := by
  obtain ⟨houtcome, hmessages⟩ := call.spec
  rw [h.statement_eq] at houtcome
  rw [h.messages_eq] at hmessages
  cases y with
  | statement s => exact ⟨houtcome, hmessages.trans (List.append_nil _)⟩
  | message text => exact ⟨houtcome, hmessages⟩

theorem Session.Runs.source_eq {s s' : Session} {calls : List Call} (h : s.Runs calls s') :
    ∀ call ∈ calls, call.before.cursor.source = s.cursor.source := by
  induction calls generalizing s with
  | nil => simp
  | cons first calls ih =>
      obtain ⟨rfl, hruns⟩ := h
      intro call hcall
      rcases List.mem_cons.mp hcall with rfl | hcall
      · rfl
      · rw [ih hruns call hcall, Cursor.source_of_read first.reads]

namespace Production

theorem exists_yields (bytes : Bytes) (stop : Token) (ts : List Token) :
    ∃ yields, List.Forall₂ (Reading.Yields bytes) (readings stop ts) yields := by
  induction ts using readings.induct stop with
  | case1 => exact ⟨[], by rw [readings_nil]; exact .nil⟩
  | case2 t ts ih =>
      obtain ⟨yields, hyields⟩ := ih
      rw [readings_cons]
      cases hr : (binding.readFrom stop (t :: ts)).1 with
      | complete us =>
          obtain ⟨s, hs⟩ := Statement.exists_ofTokens? (readFrom_complete hr).length_eq.symm
          exact ⟨.statement s :: yields, .cons (.statement hs) hyields⟩
      | mismatch accepted expected found =>
          exact ⟨_ :: yields, .cons (.message accepted expected found) hyields⟩

end Production

/-- The result of a parse that makes the readings holds what these yield. -/
theorem Reading.result_eq_ofYields {bytes : Bytes} {rs : List Reading} {ys : List Yield}
    (h : List.Forall₂ (Reading.Yields bytes) rs ys) :
    { statements := rs.filterMap statement?, diagnostics := messages bytes rs } =
      ParseResult.ofYields ys := by
  have hboth : rs.filterMap statement? = ys.filterMap Yield.statement? ∧
      messages bytes rs = ys.filterMap Yield.message? := by
    induction h with
    | nil => exact ⟨rfl, rfl⟩
    | @cons r y rs ys hr _ ih =>
        have hcons : messages bytes (r :: rs) = messages bytes [r] ++ messages bytes rs :=
          messages_append bytes [r] rs
        rw [List.filterMap_cons, List.filterMap_cons, hr.statement_eq, ih.1, hcons,
          hr.messages_eq, ih.2]
        exact ⟨rfl, by cases y <;> rfl⟩
  rw [hboth.1, hboth.2]
  rfl

/-- The calls of a run yield what their readings do. -/
theorem Session.Runs.forall₂_yields {s s' : Session} {calls : List Call} {ys : List Yield}
    (h : s.Runs calls s')
    (hys : List.Forall₂ (Reading.Yields s.cursor.source) (calls.map Call.reading) ys) :
    List.Forall₂ Call.Yields calls ys := by
  rw [List.forall₂_map_left_iff] at hys
  refine (List.forall₂_and_left _ _ |>.mpr ⟨h.source_eq, hys⟩).imp ?_
  rintro call y ⟨hsource, hy⟩
  exact Call.yields_of_reading (hsource ▸ hy)

/-- What the readings yield is a transcript. -/
theorem transcript_of_ahead {bytes : Bytes} {ts : List Token} {yields : List Yield}
    (h : Ahead bytes 0 ts)
    (hyields : List.Forall₂ (Reading.Yields bytes)
      (Production.readings (Token.endOf bytes) ts) yields) : Transcript bytes yields := by
  obtain ⟨calls, hruns, hcalls, hend, hloop⟩ := Session.exists_runs_of_opening bytes.length h
  have hfits := h.length_readings_le
  rw [List.take_of_length_le hfits] at hruns hcalls hend hloop
  refine ⟨⟨calls, _, hruns, hend.mpr hfits, hloop, ?_⟩, ?_⟩
  · rw [← hcalls] at hyields
    exact hruns.forall₂_yields hyields
  · have hcollect := @Source.collect_none_of_ahead (.bytes bytes) bytes ts rfl h
    rw [Source.parse_false hcollect, Reading.result_eq_ofYields hyields]

theorem exists_transcript (bytes : Bytes) : ∃ yields, Transcript bytes yields := by
  obtain ⟨ts, hts⟩ := exists_ahead (Nat.zero_le bytes.length)
  obtain ⟨yields, hyields⟩ := Production.exists_yields bytes (Token.endOf bytes) ts
  exact ⟨yields, transcript_of_ahead hts hyields⟩

end LetLang
