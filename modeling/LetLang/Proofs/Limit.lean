import LetLang.Proofs.Place
import LetLang.Proofs.Transcript

/-!
# Parsing under a limit

Before each call a parse asks whether a token is left, and then whether the limit allows another
call. A limit therefore cuts the run of a parse short and changes nothing before the cut: the calls
that are left yield what they do without a limit, and the log tells of a cut exactly if a token was
left unread. A strict parse makes the same run and refuses a result with diagnostics.

Main statement: `parse_under_limit`.
-/

namespace LetLang

/-! ## Runs under a limit -/

/-- The calls of a parse, which stop where no token is left or the limit allows no more of them. -/
structure Session.RunsUnder (limit : Option Int) (bytes : Bytes) (calls : List Call)
    (final : Session) : Prop where
  runs : (opening bytes).Runs calls final
  loop : (opening bytes).readWhileLeft (callBound limit bytes.length) =
    (.ok (calls.map Call.outcome), final)
  stops : final.cursor.atEnd = true ∨ ∃ n : Int, limit = some n ∧ (calls.length : Int) = max n 0

/-- What the calls of a parse yield under a limit, one after another. -/
structure Source.Yields (source : Source) (limit : Option Int) (yields : List Yield) : Prop where
  calls : ∃ bytes calls final, source.buffer = .ok bytes ∧
    Session.RunsUnder limit bytes calls final ∧ List.Forall₂ Call.Yields calls yields
  parses : (source.parse false limit).1 = .ok (.ofYields yields)

/-- A source and a limit leave no choice of what the calls yield. -/
theorem Source.Yields.unique {source : Source} {limit : Option Int} {ys zs : List Yield}
    (h : source.Yields limit ys) (h' : source.Yields limit zs) : ys = zs := by
  rcases h.calls with ⟨bytes, calls, final, hbuffer, hunder, hys⟩
  rcases h'.calls with ⟨bytes', calls', final', hbuffer', hunder', hzs⟩
  cases hbuffer.symm.trans hbuffer'
  have hsame := Except.ok.inj (congrArg Prod.fst (hunder.loop.symm.trans hunder'.loop))
  have hresult := Except.ok.inj (h.parses.symm.trans h'.parses)
  apply Yield.eq_of_map_eq
  · rw [← Call.map_outcome_eq hys, ← Call.map_outcome_eq hzs, hsame]
  · exact congrArg ParseResult.diagnostics hresult

/-- A source is long enough that only the limit itself cuts off anything. -/
theorem take_callBound {α : Type} {xs : List α} {length : Nat} (limit : Option Int)
    (h : xs.length ≤ length) :
    xs.take (callBound limit length) = xs.take (callBound limit xs.length) := by
  apply List.take_eq_take_iff.mpr
  cases limit with
  | none =>
      simp only [callBound]
      omega
  | some n =>
      simp only [callBound]
      omega

theorem callBound_of_lt {limit : Option Int} {total length : Nat} (h : total ≤ length)
    (hlt : callBound limit length < total) :
    ∃ n : Int, limit = some n ∧ (callBound limit length : Int) = max n 0 := by
  cases limit with
  | none =>
      simp only [callBound] at hlt
      omega
  | some n =>
      refine ⟨n, rfl, ?_⟩
      simp only [callBound] at hlt ⊢
      omega

/-- Under a limit a parse makes the first of all readings. -/
theorem Session.exists_runsUnder {bytes : Bytes} {ts : List Token} (limit : Option Int)
    (hahead : Ahead bytes 0 ts) :
    let readings := Production.readings (Token.endOf bytes) ts
    let bound := callBound limit bytes.length
    let final := closing bytes (readings.take bound)
    ∃ calls, RunsUnder limit bytes calls final ∧ calls.map Call.reading = readings.take bound ∧
      (final.cursor.atEnd = true ↔ readings.length ≤ bound) := by
  intro readings bound final
  have hfits := hahead.length_readings_le
  rcases exists_runs_of_opening (callBound limit bytes.length) hahead with
    ⟨calls, hruns, hcalls, hend, hloop⟩
  refine ⟨calls, ⟨hruns, hloop, ?_⟩, hcalls, hend⟩
  by_cases hle : readings.length ≤ bound
  · exact Or.inl (hend.mpr hle)
  · right
    have hcount := congrArg List.length hcalls
    rw [List.length_map, List.length_take, Nat.min_eq_left (Nat.le_of_not_le hle)] at hcount
    rw [hcount]
    exact callBound_of_lt hfits (Nat.lt_of_not_le hle)

/-- Under a limit the calls yield what the first of all readings do. -/
theorem Source.yields_of_ahead {source : Source} {bytes : Bytes} {ts : List Token}
    {yields : List Yield} (h : source.buffer = .ok bytes) (hahead : Ahead bytes 0 ts)
    (hyields : List.Forall₂ (Reading.Yields bytes)
      (Production.readings (Token.endOf bytes) ts) yields) (limit : Option Int) :
    source.Yields limit (yields.take (callBound limit yields.length)) := by
  have hfits := hahead.length_readings_le
  have hlength := hyields.length_eq
  rw [← take_callBound limit (hlength ▸ hfits)]
  have hfirst := List.forall₂_take (callBound limit bytes.length) hyields
  rcases Session.exists_runsUnder limit hahead with ⟨calls, hunder, hcalls, -⟩
  refine ⟨⟨bytes, calls, _, h, hunder, ?_⟩, ?_⟩
  · apply hunder.runs.forall₂_yields
    rw [hcalls]
    exact hfirst
  · rw [parse_false (collect_of_ahead limit h hahead), Reading.result_eq_ofYields hfirst]

/-! ## The record of a cut -/

namespace LogRecord

theorem message_stopped (calls : Nat) :
    (stopped calls).message = "Stopped after " ++ toString calls ++ " parse calls" := rfl

/-- The first letter tells the record of a cut from all others. -/
theorem exists_stopped_of_head? {r : LogRecord} (h : r.message.toList.head? = some 'S') :
    ∃ calls, r = stopped calls := by
  cases r with
  | started bytes =>
      change ("Parsing " ++ toString bytes ++ " bytes...").toList.head? = _ at h
      simp at h
  | mismatch offset expected found =>
      change ("diagnostic at offset " ++ toString offset ++ ": expected " ++
        Diagnostic.alternatives expected ++ ", got " ++ found.name).toList.head? = _ at h
      simp at h
  | stopped calls => exact ⟨calls, rfl⟩
  | ended calls offset =>
      -- This one starts with a number.
      change (toString calls ++ " parse calls stopped at byte " ++
        toString offset).toList.head? = _ at h
      rw [String.toList_append, String.toList_append, List.append_assoc, Nat.toString_eq_repr,
        Nat.toList_repr, List.head?_append_of_ne_nil _ Nat.toDigits_ne_nil] at h
      have hdigit := Nat.isDigit_of_mem_toDigits (by decide) (by decide) (List.mem_of_head? h)
      exact absurd hdigit (by decide)
  | finished statements diagnostics =>
      change ("Parsed " ++ toString statements ++ " statements with " ++ toString diagnostics ++
        " diagnostics").toList.head? = _ at h
      simp at h

/-- Only the record of a cut says that a parse was stopped. -/
theorem message_eq_stopped_iff {r : LogRecord} {k : Nat} :
    r.message = "Stopped after " ++ toString k ++ " parse calls" ↔ r = stopped k := by
  constructor
  · intro h
    have hhead : r.message.toList.head? = some 'S' := by
      rw [h]
      simp
    rcases exists_stopped_of_head? hhead with ⟨calls, rfl⟩
    rw [message_stopped, String.append_left_inj, String.append_right_inj] at h
    have hdigits := congrArg String.toList h
    rw [Nat.toString_eq_repr, Nat.toString_eq_repr, Nat.toList_repr, Nat.toList_repr] at hdigits
    rw [Position.toDigits_inj hdigits]
  · rintro rfl
    exact message_stopped k

end LogRecord

/-- The log of a parse tells of a cut exactly if the calls left a token unread. -/
theorem Source.stopped_mem_log_iff {source : Source} {bytes : Bytes} {ts : List Token}
    (h : source.buffer = .ok bytes) (hahead : Ahead bytes 0 ts) (strict : Bool)
    (limit : Option Int) (k : Nat) :
    .stopped k ∈ (source.parse strict limit).2 ↔
      k = callBound limit bytes.length ∧
        callBound limit bytes.length < (Production.readings (Token.endOf bytes) ts).length := by
  set readings := Production.readings (Token.endOf bytes) ts with hreadings
  set bound := callBound limit bytes.length with hbound
  have hentries : .stopped k ∉ (readings.take bound).filterMap Reading.entry? := by
    intro hmem
    rcases List.mem_filterMap.mp hmem with ⟨r, -, hr⟩
    cases r with
    | complete ts => contradiction
    | mismatch accepted expected found => simp [Reading.entry?] at hr
  have hcut : .stopped k ∈ (if readings.length ≤ bound then []
        else [LogRecord.stopped (readings.take bound).length]) ↔
      k = bound ∧ bound < readings.length := by
    by_cases hle : readings.length ≤ bound
    · simp only [if_pos hle, List.not_mem_nil, false_iff]
      omega
    · simp only [if_neg hle, List.mem_singleton, LogRecord.stopped.injEq, List.length_take]
      omega
  have hlog : (Session.closing bytes (readings.take bound)).log =
      [.started bytes.length] ++ (readings.take bound).filterMap Reading.entry? := rfl
  rw [log_parse, collect_of_ahead limit h hahead]
  dsimp only
  rw [hlog, List.mem_append, List.mem_append, List.mem_append, hcut]
  simp [hentries]

/-! ## A limit against no limit -/

theorem Source.collect_of_length_le {source : Source} {bytes : Bytes} {ts : List Token}
    {limit : Option Int} (h : source.buffer = .ok bytes) (hahead : Ahead bytes 0 ts)
    (hle : (Production.readings (Token.endOf bytes) ts).length ≤ callBound limit bytes.length) :
    source.collect limit = source.collect none := by
  have hcollect := collect_of_ahead limit h hahead
  simp only [List.take_of_length_le hle, if_pos hle, List.append_nil] at hcollect
  rw [hcollect, collect_none_of_ahead h hahead]

/-- How many of all calls a limit allows. -/
def callsWithin (n : Int) (total : Nat) : Nat := (min (max n 0) total).toNat

theorem callBound_eq_callsWithin (n : Int) (total : Nat) :
    callBound (some n) total = callsWithin n total := by
  simp only [callBound, callsWithin]
  omega

/-- How a parse under the limit follows from what all calls yield when there is none. -/
structure Source.CutAt (source : Source) (n : Int) (yields : List Yield) : Prop where
  first : source.Yields (some n) (yields.take (callsWithin n yields.length))
  stopped : ∀ (strict : Bool) (k : Nat),
    (∃ r ∈ (source.parse strict (some n)).2,
        r.message = "Stopped after " ++ toString k ++ " parse calls") ↔
      k = callsWithin n yields.length ∧ max n 0 < yields.length
  whole : yields.length ≤ n →
    ∀ strict : Bool, source.parse strict (some n) = source.parse strict none
  rejected : (∃ text, .message text ∈ yields.take (callsWithin n yields.length)) →
    (source.parse true (some n)).1 = .error (.rejected
      { messages := (yields.take (callsWithin n yields.length)).filterMap Yield.message? })
  accepted : (¬ ∃ text, .message text ∈ yields.take (callsWithin n yields.length)) →
    (source.parse true (some n)).1 = (source.parse false (some n)).1

/-- A parse has a diagnostic exactly if a call yields one. -/
theorem ParseResult.ok_ofYields_eq_false_iff {yields : List Yield} :
    (ofYields yields).ok = false ↔ ∃ text, .message text ∈ yields := by
  induction yields with
  | nil => simp [ofYields, ok]
  | cons y yields ih =>
      cases y with
      | statement s => simpa [ofYields, ok, Yield.message?] using ih
      | message text => simp [ofYields, ok, Yield.message?]

theorem Source.exists_collect_of_parse_false {source : Source} {limit : Option Int}
    {result : ParseResult} (h : (source.parse false limit).1 = .ok result) :
    ∃ log, source.collect limit = (.ok result, log) := by
  cases hcollect : source.collect limit with
  | mk outcome log =>
      cases outcome with
      | error e =>
          rw [parse, hcollect] at h
          contradiction
      | ok found =>
          rw [parse_false hcollect] at h
          exact ⟨log, by rw [Except.ok.inj h]⟩

/-- A strict parse makes the same calls, and refuses a result with diagnostics. -/
theorem Source.Yields.parse_true {source : Source} {limit : Option Int} {yields : List Yield}
    (h : source.Yields limit yields) :
    (source.parse true limit).1 =
      if (ParseResult.ofYields yields).ok then .ok (.ofYields yields)
      else .error (.rejected { messages := yields.filterMap Yield.message? }) := by
  rcases exists_collect_of_parse_false h.parses with ⟨log, hcollect⟩
  rw [parse_of_collect true hcollect]
  cases (ParseResult.ofYields yields).ok with
  | true => rfl
  | false => rfl

/--
A limit cuts the run of a parse after that many calls, if it makes so many, and a negative one after
none. What the calls before the cut yield is the result, and the log tells of the cut exactly if
there is one. A strict parse is refused with the diagnostics among these yields, if there are any,
and otherwise gives the same result.
-/
theorem parse_under_limit {source : Source} {bytes : Bytes} (h : source.buffer = .ok bytes) :
    ∃ yields, source.Yields none yields ∧ ∀ n : Int, source.CutAt n yields := by
  rcases exists_ahead (Nat.zero_le bytes.length) with ⟨ts, hahead⟩
  rcases Production.exists_yields bytes (Token.endOf bytes) ts with ⟨yields, hyields⟩
  have hlength := hyields.length_eq
  have hfits := hahead.length_readings_le
  refine ⟨yields, ?_, fun n => ?_⟩
  · have hall := Source.yields_of_ahead h hahead hyields none
    rwa [callBound, List.take_length] at hall
  · have hfirst := Source.yields_of_ahead h hahead hyields (some n)
    rw [callBound_eq_callsWithin] at hfirst
    constructor
    case first => exact hfirst
    case stopped =>
      intro strict k
      have hmessage : (∃ r ∈ (source.parse strict (some n)).2,
          r.message = "Stopped after " ++ toString k ++ " parse calls") ↔
            .stopped k ∈ (source.parse strict (some n)).2 := by
        simp only [LogRecord.message_eq_stopped_iff, exists_eq_right]
      rw [hmessage, Source.stopped_mem_log_iff h hahead, hlength]
      simp only [callBound, callsWithin]
      omega
    case whole =>
      intro hle strict
      have hbound : (Production.readings (Token.endOf bytes) ts).length ≤
          callBound (some n) bytes.length := by
        simp only [callBound]
        omega
      rw [Source.parse, Source.parse, Source.collect_of_length_le h hahead hbound]
    case rejected =>
      intro hmessage
      rw [hfirst.parse_true, ParseResult.ok_ofYields_eq_false_iff.mpr hmessage]
      rfl
    case accepted =>
      intro hnone
      rw [← ParseResult.ok_ofYields_eq_false_iff, Bool.not_eq_false] at hnone
      rw [hfirst.parse_true, hnone, hfirst.parses]
      rfl

/-- Blanks behind the last call are no token, so a limit of two cuts off nothing. -/
theorem parse_under_limit_blank :
    let bytes := "let a = 1; + ".toList.map Char.toUInt8
    (Source.bytes bytes).buffer = .ok bytes ∧
      ∃ yields, (Source.bytes bytes).Yields none yields ∧
        ∀ n : Int, (Source.bytes bytes).CutAt n yields := by
  intro bytes
  exact ⟨rfl, parse_under_limit rfl⟩

end LetLang
