import LetLang.Proofs.Run

/-!
# Accounting for the tokens of a parse

Main statement: `parse_accounting`. A parse without a limit pulls every token of its source once and
in order. Each call takes the tokens that come next and yields a statement or a diagnostic, never
both. The end of the input is pulled at most once: by the last call, in the middle of a binding.
-/

namespace LetLang

/-! ## What one call pulls -/

/-- Pulling one token after another gives these tokens and leads to that cursor. -/
def Cursor.Pulls : Cursor → List Token → Cursor → Prop
  | c, [], c' => c = c'
  | c, t :: ts, c' => ∃ c₁, c.next = .ok (t, c₁) ∧ Pulls c₁ ts c'

theorem Cursor.pulls_of_read {production : Production} {c c' : Cursor} {reading : Reading}
    (h : c.read production = .ok (reading, c')) : c.Pulls reading.pulled c' := by
  induction production generalizing c reading with
  | nil =>
      cases h
      rfl
  | cons expected more ih =>
      cases hn : c.next with
      | error e =>
          rw [read, hn] at h
          contradiction
      | ok result =>
          obtain ⟨t, c₁⟩ := result
          rw [read, hn] at h
          by_cases ht : t.kind ∈ expected
          · simp only [if_pos ht] at h
            cases hr : c₁.read more with
            | error e => simp [hr] at h
            | ok rest =>
                obtain ⟨us, c₂⟩ := rest
                simp only [hr] at h
                cases h
                rw [Reading.pulled_cons]
                exact ⟨c₁, hn, ih hr⟩
          · simp only [if_neg ht] at h
            cases h
            exact ⟨_, hn, rfl⟩

/-! ## What one call yields -/

theorem Statement.exists_ofTokens? {ts : List Token} (h : ts.length = Production.binding.length) :
    ∃ statement, ofTokens? ts = some statement := by
  match ts, h with
  | [_, ident, _, value, _], _ => exact ⟨_, rfl⟩

namespace Call

/-- The tokens that a call pulls, in order. -/
def pulled (call : Call) : List Token := call.reading.pulled

theorem pulls (call : Call) : call.before.cursor.Pulls call.pulled call.after.cursor :=
  Cursor.pulls_of_read call.reads

/-- A call yields a statement and no message, or one message and no statement. -/
def YieldsOne (call : Call) : Prop :=
  (∃ statement, call.outcome = some statement ∧
      call.after.sink.messages = call.before.sink.messages) ∨
    (call.outcome = none ∧
      ∃ message, call.after.sink.messages = call.before.sink.messages ++ [message])

theorem yieldsOne (call : Call) : call.YieldsOne := by
  obtain ⟨houtcome, hmessages⟩ := call.spec
  cases hr : call.reading with
  | complete ts =>
      left
      have hreads := call.reads
      rw [hr] at hreads houtcome hmessages
      obtain ⟨statement, hs⟩ := Statement.exists_ofTokens? (Cursor.length_of_read hreads)
      exact ⟨statement, houtcome.trans hs, hmessages.trans (List.append_nil _)⟩
  | mismatch accepted expected found =>
      right
      rw [hr] at houtcome hmessages
      exact ⟨houtcome, _, hmessages⟩

end Call

theorem Session.Runs.length_eq {s s' : Session} {calls : List Call} (h : s.Runs calls s') :
    s.sink.messages.length + calls.length =
      (calls.filterMap Call.outcome).length + s'.sink.messages.length := by
  induction calls generalizing s with
  | nil =>
      obtain rfl : s = s' := h
      simp
  | cons call calls ih =>
      obtain ⟨rfl, hruns⟩ := h
      have hrest := ih hruns
      rcases call.yieldsOne with ⟨statement, houtcome, hsink⟩ | ⟨houtcome, message, hsink⟩
      · rw [hsink] at hrest
        rw [List.filterMap_cons_some houtcome, List.length_cons, List.length_cons]
        omega
      · rw [hsink, List.length_append, List.length_singleton] at hrest
        rw [List.filterMap_cons_none houtcome, List.length_cons]
        omega

/-! ## What all calls pull -/

/-- How the tokens of a source went to the calls of a parse. -/
inductive Spent (bytes : Bytes) (ts : List Token) (calls : List Call) (offset : Int) : Prop where
  /-- The calls took all tokens, and none met the end of the input. -/
  | all (pulled : calls.flatMap Call.pulled = ts)
      (stopped : offset = ((ts.getLast?.map fun t => t.span.stop).getD 0 : Nat))
  /-- The last call had begun a binding when it met the end of the input. -/
  | short {earlier : List Call} {last : Call} {first : Token} {more : List Token}
      {expected : List TokenKind}
      (calls_eq : calls = earlier ++ [last])
      (accepted : earlier.flatMap Call.pulled ++ first :: more = ts)
      (reading : last.reading = .mismatch (first :: more) expected (Token.endOf bytes))
      (begun : first.kind = .keyword .letKw)
      (pulled : calls.flatMap Call.pulled = ts ++ [Token.endOf bytes])
      (stopped : offset = bytes.length)

/-- What the calls of a parse without a limit add up to. -/
structure Accounts (bytes : Bytes) (ts : List Token) (calls : List Call) (final : Session)
    (result : ParseResult) : Prop where
  no_end : ∀ t ∈ ts, t.kind ≠ .endOfInput
  pulls : ∀ call ∈ calls, call.before.cursor.Pulls call.pulled call.after.cursor
  spent : Spent bytes ts calls final.cursor.offset
  yieldsOne : ∀ call ∈ calls, call.YieldsOne
  statements : result.statements = calls.filterMap Call.outcome
  diagnostics : result.diagnostics = final.sink.messages
  length_eq : calls.length = result.statements.length + result.diagnostics.length
  length_le : calls.length ≤ ts.length

theorem flatMap_pulled (calls : List Call) :
    calls.flatMap Call.pulled = (calls.map Call.reading).flatMap Reading.pulled := by
  rw [List.flatMap_map]
  rfl

theorem spent_of_readings {bytes : Bytes} {ts : List Token} {calls : List Call}
    (h : calls.map Call.reading = Production.readings (Token.endOf bytes) ts) :
    Spent bytes ts calls (Token.lastStop 0 (calls.flatMap Call.pulled)) := by
  have hend : (Token.endOf bytes).kind = .endOfInput := rfl
  rcases @Production.readings_pulled _ ts hend with
    hall | ⟨earlier, first, more, expected, hshort, hts, hfirst⟩
  · have hpulled : calls.flatMap Call.pulled = ts := by rw [flatMap_pulled, h, hall]
    exact .all hpulled (by rw [hpulled, Token.lastStop_eq])
  · rw [hshort] at h
    obtain ⟨before, after, rfl, rfl, hafter⟩ := List.map_eq_append_iff.mp h
    obtain ⟨last, rfl, hlast⟩ := List.map_eq_singleton_iff.mp hafter
    rw [← flatMap_pulled] at hts
    have hpulled : (before ++ [last]).flatMap Call.pulled = ts ++ [Token.endOf bytes] := by
      rw [List.flatMap_append, List.flatMap_singleton, Call.pulled, hlast, ← hts,
        List.append_assoc]
      rfl
    refine .short rfl hts hlast hfirst hpulled ?_
    rw [hpulled, Token.lastStop_append]
    rfl

/-- The calls of a whole parse account for all tokens, and the result for all calls. -/
theorem accounts_of_runs {bytes : Bytes} {ts : List Token} {calls : List Call}
    (hahead : Ahead bytes 0 ts)
    (hcalls : calls.map Call.reading = Production.readings (Token.endOf bytes) ts)
    (hruns : (Session.opening bytes).Runs calls
      (Session.closing bytes (Production.readings (Token.endOf bytes) ts))) :
    let readings := Production.readings (Token.endOf bytes) ts
    Accounts bytes ts calls (Session.closing bytes readings)
      { statements := readings.filterMap Reading.statement?
        diagnostics := Reading.messages bytes readings } := by
  intro readings
  have hstatements : readings.filterMap Reading.statement? = calls.filterMap Call.outcome :=
    (Call.filterMap_outcome_of_readings hcalls).symm
  have hcount : 0 + calls.length =
      (calls.filterMap Call.outcome).length + (Reading.messages bytes readings).length :=
    hruns.length_eq
  rw [Nat.zero_add, ← hstatements] at hcount
  have hspent := spent_of_readings hcalls
  rw [flatMap_pulled, hcalls] at hspent
  have hlength := congrArg List.length hcalls
  rw [List.length_map] at hlength
  have hle := Production.length_readings_le (Token.endOf bytes) ts
  exact
    { no_end := fun t ht => hahead.kind_ne ht
      pulls := fun call _ => call.pulls
      spent := hspent
      yieldsOne := fun call _ => call.yieldsOne
      statements := hstatements
      diagnostics := rfl
      length_eq := hcount
      length_le := by omega }

/--
A parse without a limit is a run of calls, which ends when no token is left, and its log says how
many there were and where the last one left the cursor. These calls account for every token.
-/
theorem parse_accounting {source : Source} {bytes : Bytes} (h : source.buffer = .ok bytes) :
    ∃ ts calls final result,
      let log := final.log ++
        [.ended calls.length final.cursor.offset,
          .finished result.statements.length result.diagnostics.length]
      source.tokenize = .ok (ts ++ [Token.endOf bytes]) ∧
      (Session.opening bytes).Runs calls final ∧ final.cursor.atEnd = true ∧
      (Session.opening bytes).readWhileLeft bytes.length = (.ok (calls.map Call.outcome), final) ∧
      source.parse false none = (.ok result, log) ∧ (source.parse true none).2 = log ∧
      Accounts bytes ts calls final result := by
  obtain ⟨ts, hahead⟩ := exists_ahead (Nat.zero_le bytes.length)
  obtain ⟨calls, hruns, hcalls, hend, hloop⟩ :=
    Session.exists_runs_of_opening bytes.length hahead
  -- No reading is cut off, since the source has at least as many bytes.
  have hfits := hahead.length_readings_le
  rw [List.take_of_length_le hfits] at hruns hcalls hend hloop
  have hlength : (Production.readings (Token.endOf bytes) ts).length = calls.length := by
    rw [← hcalls, List.length_map]
  have hcollect := Source.collect_none_of_ahead h hahead
  dsimp only at hcollect
  rw [hlength] at hcollect
  refine ⟨ts, calls, _, _, (Source.tokenize_eq_iff h).mpr hahead, hruns, hend.mpr hfits, hloop,
    Source.parse_false hcollect, ?_, accounts_of_runs hahead hcalls hruns⟩
  rw [Source.log_parse, hcollect]

theorem parse_accounting_unfinished :
    let bytes := "let a = 1; let b".toList.map Char.toUInt8
    (Source.bytes bytes).buffer = .ok bytes ∧
      ∃ ts calls final result,
        (Source.bytes bytes).tokenize = .ok (ts ++ [Token.endOf bytes]) ∧
        (Session.opening bytes).Runs calls final ∧
        ((Source.bytes bytes).parse false none).1 = .ok result ∧
        Accounts bytes ts calls final result := by
  intro bytes
  obtain ⟨ts, calls, final, result, htokenize, hruns, -, -, hparse, -, haccounts⟩ :=
    @parse_accounting (Source.bytes bytes) bytes rfl
  exact ⟨rfl, ts, calls, final, result, htokenize, hruns, congrArg Prod.fst hparse, haccounts⟩

end LetLang
