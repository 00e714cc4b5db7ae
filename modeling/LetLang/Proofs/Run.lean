import LetLang.Parse
import LetLang.Proofs.Production

/-!
# Runs of a session

A session whose sink is not released makes one reading a call. `Production.readings` gives the
readings that a whole list of tokens leads to, and everything a run does follows from them: what its
calls yield, which messages and log records they add, and where the cursor stops.

Main statements: `Session.readBinding_of_ahead` is one call, `Session.exists_runs` is a run of any
length, and `Session.readWhileLeft_of_runs` says that the loop of a parse is such a run.
-/

namespace LetLang

/-! ## What a reading leads to -/

namespace Reading

/-- The statement that the tokens make if all were accepted. -/
def statement? : Reading → Option Statement
  | complete ts => Statement.ofTokens? ts
  | mismatch _ _ _ => none

/-- The diagnostic about the token that was not accepted. -/
def diagnostic? (bytes : Bytes) : Reading → Option Diagnostic
  | complete _ => none
  | mismatch _ expected found =>
      some
        { expected
          found := found.kind
          position := Position.after (bytes.take found.span.start) }

/-- The log record about the token that was not accepted. -/
def entry? : Reading → Option LogRecord
  | complete _ => none
  | mismatch _ expected found => some (.mismatch found.span.start expected found.kind)

/-- The messages that readings leave in a sink. -/
def messages (bytes : Bytes) (readings : List Reading) : List String :=
  (readings.filterMap (diagnostic? bytes)).map Diagnostic.message

theorem messages_append (bytes : Bytes) (rs more : List Reading) :
    messages bytes (rs ++ more) = messages bytes rs ++ messages bytes more := by
  rw [messages, List.filterMap_append, List.map_append]
  rfl

end Reading

/-! ## One operation -/

theorem Span.of_position_eq_ok {span : Span} {bytes : Bytes} {p : Position}
    (h : span.position bytes = .ok p) : p = Position.after (bytes.take span.start) := by
  unfold position at h
  split at h
  · contradiction
  · exact (Except.ok.inj h).symm

namespace Session

theorem report_spec {s s' : Session} {expected : List TokenKind} {found : Token}
    (accepted : List Token) (h : s.report expected found = (.ok (), s')) :
    s'.cursor = s.cursor ∧
      s'.sink.messages = s.sink.messages ++
        Reading.messages s.cursor.source [.mismatch accepted expected found] ∧
      s'.log = s.log ++ [Reading.mismatch accepted expected found].filterMap Reading.entry? := by
  unfold report at h
  split at h
  · cases congrArg Prod.fst h
  · rename_i position hposition
    obtain rfl := Span.of_position_eq_ok hposition
    dsimp only at h
    split at h
    · cases congrArg Prod.fst h
    · rename_i sink hsink
      obtain rfl := congrArg Prod.snd h
      exact ⟨rfl, Sink.messages_of_append hsink, rfl⟩

/-- What a session does when it reads a production and does not fail. -/
theorem read_spec {s s' : Session} {production : Production} {outcome : Option Statement}
    (h : s.read production = (.ok outcome, s')) :
    ∃ reading, s.cursor.read production = .ok (reading, s'.cursor) ∧
      outcome = reading.statement? ∧
      s'.sink.messages = s.sink.messages ++ Reading.messages s.cursor.source [reading] ∧
      s'.log = s.log ++ [reading].filterMap Reading.entry? := by
  cases hread : s.cursor.read production with
  | error e =>
      rw [read, hread] at h
      cases congrArg Prod.fst h
  | ok result =>
      obtain ⟨reading, cursor⟩ := result
      rw [read, hread] at h
      cases reading with
      | complete ts =>
          obtain rfl := congrArg Prod.snd h
          refine ⟨_, rfl, (Except.ok.inj (congrArg Prod.fst h)).symm, ?_, ?_⟩
          · exact (List.append_nil _).symm
          · exact (List.append_nil _).symm
      | mismatch accepted expected found =>
          dsimp only at h
          split at h
          · cases congrArg Prod.fst h
          · rename_i s₁ hreport
            obtain rfl := congrArg Prod.snd h
            obtain ⟨hcursor, hmessages, hlog⟩ := report_spec accepted hreport
            dsimp only at hcursor hmessages hlog
            rw [Cursor.source_of_read hread] at hmessages
            refine ⟨.mismatch accepted expected found, ?_,
              (Except.ok.inj (congrArg Prod.fst h)).symm, hmessages, hlog⟩
            rw [hcursor]

end Session

/-! ## Operations on the tokens ahead -/

namespace Session

variable {bytes : Bytes} {k : Nat} {ts : List Token} {messages : List String}
  {log : List LogRecord}

/-- A session whose sink is not released. -/
def collecting (bytes : Bytes) (offset : Nat) (messages : List String) (log : List LogRecord) :
    Session where
  cursor := { source := bytes, offset }
  sink := .collecting messages
  log

/-- Such a session once it has made the readings. -/
def behind (bytes : Bytes) (offset : Nat) (messages : List String) (log : List LogRecord)
    (readings : List Reading) : Session :=
  collecting bytes (Token.lastStop offset (readings.flatMap Reading.pulled))
    (messages ++ Reading.messages bytes readings)
    (log ++ readings.filterMap Reading.entry?)

theorem behind_nil (bytes : Bytes) (k : Nat) (messages : List String) (log : List LogRecord) :
    behind bytes k messages log [] = collecting bytes k messages log := by
  simp [behind, Reading.messages, Token.lastStop]

theorem behind_append (bytes : Bytes) (k : Nat) (messages : List String) (log : List LogRecord)
    (rs more : List Reading) :
    behind bytes (Token.lastStop k (rs.flatMap Reading.pulled))
        (messages ++ Reading.messages bytes rs) (log ++ rs.filterMap Reading.entry?) more =
      behind bytes k messages log (rs ++ more) := by
  simp only [behind, Reading.messages_append, List.flatMap_append, List.filterMap_append,
    Token.lastStop_append, List.append_assoc]

theorem report_collecting (accepted : List Token) (expected : List TokenKind) {found : Token}
    (h : found.span.stop ≤ bytes.length) :
    (collecting bytes k messages log).report expected found =
      (.ok (),
        collecting bytes k
          (messages ++ Reading.messages bytes [.mismatch accepted expected found])
          (log ++ [Reading.mismatch accepted expected found].filterMap Reading.entry?)) := by
  have hposition : found.span.position (collecting bytes k messages log).cursor.source =
      .ok (Position.after (bytes.take found.span.start)) := Span.position_of_le h
  rw [report, hposition]
  rfl

/-- A session reads what the tokens ahead of it give, and reports the token that does not fit. -/
theorem read_of_ahead (production : Production) (h : Ahead bytes k ts) :
    let reading := (production.readFrom (Token.endOf bytes) ts).1
    (collecting bytes k messages log).read production =
      (.ok reading.statement?, behind bytes k messages log [reading]) := by
  intro reading
  have hread : (collecting bytes k messages log).cursor.read production =
      .ok (reading, Cursor.mk bytes (Token.lastStop k reading.pulled)) :=
    (Cursor.read_of_ahead production h).1
  have hpulled : ∀ t ∈ reading.pulled, t ∈ ts ∨ t = Token.endOf bytes :=
    fun t ht => Production.mem_of_mem_pulled ht
  rw [read, hread, behind, List.flatMap_singleton]
  cases hr : reading with
  | complete us =>
      have hmessages : messages ++ Reading.messages bytes [.complete us] = messages :=
        List.append_nil messages
      have hlog : log ++ [Reading.complete us].filterMap Reading.entry? = log :=
        List.append_nil log
      rw [hmessages, hlog]
      rfl
  | mismatch accepted expected found =>
      have hstop : found.span.stop ≤ bytes.length := by
        rcases hpulled found (by simp [hr, Reading.pulled]) with hf | rfl
        · exact h.stop_le hf
        · exact Nat.le_refl _
      have hreport := @report_collecting bytes
        (Token.lastStop k (Reading.mismatch accepted expected found).pulled) messages log
        accepted expected found hstop
      simp only [collecting] at hreport ⊢
      rw [hreport]
      rfl

theorem readBinding_of_ahead (h : Ahead bytes k ts) :
    let reading := (Production.binding.readFrom (Token.endOf bytes) ts).1
    (collecting bytes k messages log).readBinding =
      (.ok reading.statement?, behind bytes k messages log [reading]) :=
  read_of_ahead Production.binding h

end Session

/-! ## Many calls -/

theorem Cursor.atEnd_iff {c : Cursor} :
    c.atEnd = true ↔ ∃ t, c.peek = .ok t ∧ t.kind = .endOfInput := by
  unfold atEnd
  split
  · rename_i e he
    simp [he]
  · rename_i t ht
    simp [ht]

theorem Cursor.atEnd_of_ahead {bytes : Bytes} {k : Nat} {ts : List Token}
    (h : Ahead bytes k ts) : (Cursor.mk bytes k).atEnd = true ↔ ts = [] := by
  rw [atEnd_iff, peek_of_ahead h]
  cases ts with
  | nil => simp [Token.endOf]
  | cons t ts => simp [h.2.1]

/-- One call of a parse: some token is left, and the call reads a binding. -/
structure Call where
  before : Session
  reading : Reading
  outcome : Option Statement
  after : Session
  left : ∃ t, before.cursor.peek = .ok t ∧ t.kind ≠ .endOfInput
  reads : before.cursor.read Production.binding = .ok (reading, after.cursor)
  gives : before.readBinding = (.ok outcome, after)

namespace Session

variable {bytes : Bytes} {k : Nat} {ts : List Token} {messages : List String}
  {log : List LogRecord}

/-- The calls follow one another from the first session to the last. -/
def Runs : Session → List Call → Session → Prop
  | s, [], s' => s = s'
  | s, c :: calls, s' => c.before = s ∧ Runs c.after calls s'

/-- While a token is ahead, a call reads a binding and leaves the other tokens ahead. -/
theorem exists_call {t : Token} (messages : List String) (log : List LogRecord)
    (h : Ahead bytes k (t :: ts)) :
    let result := Production.binding.readFrom (Token.endOf bytes) (t :: ts)
    ∃ call : Call, call.before = collecting bytes k messages log ∧ call.reading = result.1 ∧
      call.after = behind bytes k messages log [result.1] ∧
      Ahead bytes (Token.lastStop k ([result.1].flatMap Reading.pulled)) result.2 := by
  intro result
  obtain ⟨hread, hrest⟩ := Cursor.read_of_ahead Production.binding h
  rw [List.flatMap_singleton]
  let call : Call :=
    { before := collecting bytes k messages log
      reading := result.1
      outcome := result.1.statement?
      after := behind bytes k messages log [result.1]
      left := ⟨t, Cursor.peek_of_ahead h, h.2.1⟩
      reads := by
        rw [behind, List.flatMap_singleton]
        exact hread
      gives := readBinding_of_ahead h }
  exact ⟨call, rfl, rfl, rfl, hrest⟩

/-- Any number of calls makes the readings of the tokens ahead, as long as there are any. -/
theorem exists_runs (n : Nat) (messages : List String) (log : List LogRecord)
    (h : Ahead bytes k ts) :
    let readings := Production.readings (Token.endOf bytes) ts
    ∃ calls us, (collecting bytes k messages log).Runs calls
        (behind bytes k messages log (readings.take n)) ∧
      calls.map Call.reading = readings.take n ∧
      Ahead bytes (Token.lastStop k ((readings.take n).flatMap Reading.pulled)) us ∧
      Production.readings (Token.endOf bytes) us = readings.drop n := by
  intro readings
  induction n generalizing k ts messages log with
  | zero => exact ⟨[], ts, (behind_nil bytes k messages log).symm, rfl, h, rfl⟩
  | succ n ih =>
      cases ts with
      | nil =>
          have hnil : readings = [] := Production.readings_nil _
          rw [hnil]
          exact ⟨[], [], (behind_nil bytes k messages log).symm, rfl, h, Production.readings_nil _⟩
      | cons t ts =>
          let result := Production.binding.readFrom (Token.endOf bytes) (t :: ts)
          let rest := (Production.readings (Token.endOf bytes) result.2).take n
          obtain ⟨call, hbefore, hreading, hafter, hahead⟩ := exists_call messages log h
          obtain ⟨calls, us, hruns, hcalls, hus, hdrop⟩ := ih
            (messages ++ Reading.messages bytes [result.1])
            (log ++ [result.1].filterMap Reading.entry?) hahead
          have hcons : readings =
              result.1 :: Production.readings (Token.endOf bytes) result.2 :=
            Production.readings_cons (Token.endOf bytes) t ts
          have hstop : Token.lastStop k ((result.1 :: rest).flatMap Reading.pulled) =
              Token.lastStop (Token.lastStop k ([result.1].flatMap Reading.pulled))
                (rest.flatMap Reading.pulled) := by
            rw [← Token.lastStop_append, ← List.flatMap_append]
            rfl
          rw [behind_append] at hruns
          rw [hcons, List.take_succ_cons, List.drop_succ_cons, hstop]
          refine ⟨call :: calls, us, ⟨hbefore, ?_⟩, ?_, hus, hdrop⟩
          · rw [hafter]
            exact hruns
          · rw [List.map_cons, hreading, hcalls]

/-- The loop of a parse makes the calls of a run, if it may make that many. -/
theorem readWhileLeft_of_runs {n : Nat} {s s' : Session} {calls : List Call}
    (h : s.Runs calls s') (hn : calls.length ≤ n)
    (hend : calls.length = n ∨ s'.cursor.atEnd = true) :
    s.readWhileLeft n = (.ok (calls.map Call.outcome), s') := by
  induction calls generalizing s n with
  | nil =>
      obtain rfl : s = s' := h
      cases n with
      | zero => rfl
      | succ n =>
          rcases hend with hzero | hend
          · exact absurd hzero (Nat.succ_ne_zero n).symm
          · obtain ⟨t, hpeek, ht⟩ := Cursor.atEnd_iff.mp hend
            rw [readWhileLeft, hpeek]
            exact if_pos ht
  | cons call calls ih =>
      obtain ⟨rfl, hruns⟩ := h
      obtain ⟨n, rfl⟩ := Nat.exists_eq_succ_of_ne_zero (Nat.ne_of_gt (Nat.zero_lt_of_lt hn))
      obtain ⟨t, hpeek, ht⟩ := call.left
      have hrest := ih hruns (Nat.le_of_succ_le_succ hn) (by simpa using hend)
      rw [readWhileLeft, hpeek]
      simp only [if_neg ht, call.gives, hrest]
      rfl

end Session

theorem Call.spec (call : Call) :
    call.outcome = call.reading.statement? ∧
      call.after.sink.messages = call.before.sink.messages ++
        Reading.messages call.before.cursor.source [call.reading] := by
  have hgives := call.gives
  rw [Session.readBinding] at hgives
  split at hgives
  · cases congrArg Prod.fst hgives
  · obtain ⟨reading, hread, houtcome, hmessages, -⟩ := Session.read_spec hgives
    have hsame := Except.ok.inj (hread.symm.trans call.reads)
    obtain rfl : reading = call.reading := congrArg Prod.fst hsame
    exact ⟨houtcome, hmessages⟩

/-- The calls that make the readings return the statements of these. -/
theorem Call.map_outcome_of_readings {calls : List Call} {rs : List Reading}
    (h : calls.map Call.reading = rs) :
    calls.map Call.outcome = rs.map Reading.statement? := by
  rw [← h, List.map_map]
  exact List.map_congr_left fun call _ => call.spec.1

theorem Call.filterMap_outcome_of_readings {calls : List Call} {rs : List Reading}
    (h : calls.map Call.reading = rs) :
    calls.filterMap Call.outcome = rs.filterMap Reading.statement? := by
  rw [← h, List.filterMap_map]
  exact List.filterMap_congr fun call _ => call.spec.1

/-! ## Whole parses -/

namespace Session

/-- The session that a parse of the bytes starts with. -/
def opening (bytes : Bytes) : Session :=
  { Session.ofBytes bytes with log := [.started bytes.length] }

/-- The session that a parse of the bytes ends with when it made the readings. -/
def closing (bytes : Bytes) (readings : List Reading) : Session :=
  behind bytes 0 [] [.started bytes.length] readings

/-- Under a limit a parse makes that many readings, or all of them if there are fewer. -/
theorem exists_runs_of_opening {bytes : Bytes} {ts : List Token} (n : Nat)
    (h : Ahead bytes 0 ts) :
    let readings := Production.readings (Token.endOf bytes) ts
    let final := closing bytes (readings.take n)
    ∃ calls, (opening bytes).Runs calls final ∧ calls.map Call.reading = readings.take n ∧
      (final.cursor.atEnd = true ↔ readings.length ≤ n) ∧
      (opening bytes).readWhileLeft n = (.ok (calls.map Call.outcome), final) := by
  intro readings final
  obtain ⟨calls, us, hruns, hcalls, hus, hdrop⟩ := exists_runs n [] [.started bytes.length] h
  have hlength : calls.length = min n readings.length := by
    have hmap := congrArg List.length hcalls
    rwa [List.length_map, List.length_take] at hmap
  have hend : final.cursor.atEnd = true ↔ readings.length ≤ n := by
    have hnil : us = [] ↔ readings.length ≤ n := by
      rw [← Production.readings_eq_nil_iff, hdrop, List.drop_eq_nil_iff]
    exact (Cursor.atEnd_of_ahead hus).trans hnil
  refine ⟨calls, hruns, hcalls, hend, readWhileLeft_of_runs hruns (by omega) ?_⟩
  by_cases hle : readings.length ≤ n
  · exact Or.inr (hend.mpr hle)
  · exact Or.inl (by omega)

end Session

/-- A parse finds what its readings lead to, and its log says so. -/
theorem Source.collect_of_ahead {source : Source} {bytes : Bytes} {ts : List Token}
    (limit : Option Int) (h : source.buffer = .ok bytes) (hahead : Ahead bytes 0 ts) :
    let readings := Production.readings (Token.endOf bytes) ts
    let bound := callBound limit bytes.length
    let made := readings.take bound
    let final := Session.closing bytes made
    let statements := made.filterMap Reading.statement?
    let diagnostics := Reading.messages bytes made
    source.collect limit =
      (.ok { statements, diagnostics },
        final.log ++ (if readings.length ≤ bound then [] else [.stopped made.length])
          ++ [.ended made.length final.cursor.offset,
            .finished statements.length diagnostics.length]) := by
  intro readings bound made final statements diagnostics
  obtain ⟨calls, -, hcalls, hend, hcollected⟩ := Session.exists_runs_of_opening bound hahead
  have houtcomes : calls.map Call.outcome = made.map Reading.statement? :=
    Call.map_outcome_of_readings hcalls
  have hloop : Session.readWhileLeft (callBound limit bytes.length)
      { Session.ofBytes bytes with log := [.started bytes.length] } =
        (.ok (made.map Reading.statement?), final) := houtcomes ▸ hcollected
  have hreduce : (made.map Reading.statement?).reduceOption = statements := by
    show (made.map Reading.statement?).filterMap id = statements
    rw [List.filterMap_map]
    rfl
  have hstopped : (if final.cursor.atEnd then [] else [LogRecord.stopped made.length]) =
      if readings.length ≤ bound then [] else [.stopped made.length] :=
    if_congr hend rfl rfl
  rw [collect, h]
  simp only [hloop, hreduce, List.length_map]
  rw [hstopped]
  rfl

theorem Ahead.length_readings_le {bytes : Bytes} {ts : List Token} (h : Ahead bytes 0 ts) :
    (Production.readings (Token.endOf bytes) ts).length ≤ bytes.length := by
  have hle := Production.length_readings_le (Token.endOf bytes) ts
  have hbytes := h.length_le
  omega

theorem Source.collect_none_of_ahead {source : Source} {bytes : Bytes} {ts : List Token}
    (h : source.buffer = .ok bytes) (hahead : Ahead bytes 0 ts) :
    let readings := Production.readings (Token.endOf bytes) ts
    let final := Session.closing bytes readings
    let statements := readings.filterMap Reading.statement?
    let diagnostics := Reading.messages bytes readings
    source.collect none =
      (.ok { statements, diagnostics },
        final.log ++ [.ended readings.length final.cursor.offset,
          .finished statements.length diagnostics.length]) := by
  have hcollect := collect_of_ahead none h hahead
  have hle := hahead.length_readings_le
  simp only [callBound, List.take_of_length_le hle, if_pos hle, List.append_nil] at hcollect
  exact hcollect

theorem Source.parse_of_collect {source : Source} {limit : Option Int} {result : ParseResult}
    {log : List LogRecord} (strict : Bool) (h : source.collect limit = (.ok result, log)) :
    source.parse strict limit =
      (if strict && !result.ok then .error (.rejected { messages := result.diagnostics })
        else .ok result, log) := by
  rw [parse, h]
  dsimp only
  split <;> rfl

theorem Source.parse_false {source : Source} {limit : Option Int} {result : ParseResult}
    {log : List LogRecord} (h : source.collect limit = (.ok result, log)) :
    source.parse false limit = (.ok result, log) :=
  parse_of_collect false h

theorem Source.log_parse (source : Source) (strict : Bool) (limit : Option Int) :
    (source.parse strict limit).2 = (source.collect limit).2 := by
  unfold parse
  split
  · rename_i e log h
    rw [h]
  · rename_i r log h
    rw [h]
    split <;> rfl

end LetLang
