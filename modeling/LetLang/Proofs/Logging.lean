import LetLang.Proofs.Limit
import LetLang.Proofs.Reported

/-!
# What the log tells about a result

A call that records a diagnostic records it twice: in the sink, as a message, and in the log. The
counts in the log are those of the calls, of the statements and of the diagnostics. So the log tells
the same as the result, in the same order, whatever cut the run short and whether it is strict.

Main statement: `log_tells_result`.
-/

namespace LetLang

/-- A record of a log as it is shown. -/
structure LogLine where
  logger : String
  level : String
  text : String
deriving DecidableEq, Repr

namespace LogLine

def ofRecord (r : LogRecord) : LogLine where
  logger := r.logger
  level := r.level.name
  text := r.message

/-- A line of the logger that whole parses write to. -/
def ofFrontend (level text : String) : LogLine where
  logger := "monkeyfront.frontend"
  level := level
  text := text

/-- What is shown of a log when only records from the given level on are. -/
def shown (level : LogLevel) (log : List LogRecord) : List LogLine :=
  (log.filter (·.isAtLeast level)).map ofRecord

/-- The line names the kinds that the message expected, the kind it found, and the offset of its
position. -/
def Mentions (bytes : Bytes) (line : LogLine) (message : String) : Prop :=
  ∃ (want : String) (kind : TokenKind) (start : Nat) (p : Position),
    line =
      { logger := "monkeyfront.parser"
        level := "DEBUG"
        text := "diagnostic at offset " ++ toString start ++ ": expected " ++ want ++ ", got " ++
          kind.name } ∧
    message = "expected " ++ want ++ " but got " ++ kind.describe ++ " at " ++ toString p.line ++
      ":" ++ toString p.column ∧
    Span.position { start, stop := start } bytes = .ok p

theorem shown_debug (log : List LogRecord) : shown .debug log = log.map ofRecord := by
  have hall : ∀ r ∈ log, r.isAtLeast .debug = true := fun r _ => rfl
  rw [shown, List.filter_eq_self.mpr hall]

/-- Without the records for debugging, a log is what is shown of it at the higher level. -/
theorem shown_info (log : List LogRecord) :
    shown .info log = (shown .debug log).filter (·.level ≠ "DEBUG") := by
  rw [shown_debug, List.filter_map, shown]
  apply congrArg (List.map ofRecord)
  apply List.filter_congr
  intro r _
  cases r with
  | started bytes => rfl
  | mismatch offset expected found => rfl
  | stopped calls => rfl
  | ended calls offset => rfl
  | finished statements diagnostics => rfl

end LogLine

/-- Each diagnostic of the readings is in the log as a line, and in the sink as a message. -/
theorem Reading.forall₂_mentions {bytes : Bytes} {rs : List Reading}
    (h : ∀ t ∈ rs.filterMap found?, t.span.start ≤ bytes.length) :
    List.Forall₂ (LogLine.Mentions bytes) ((rs.filterMap entry?).map LogLine.ofRecord)
      (messages bytes rs) := by
  induction rs with
  | nil => exact .nil
  | cons r rs ih =>
      cases r with
      | complete ts => exact ih h
      | mismatch accepted expected found =>
          have hrest := ih fun t ht => h t (List.mem_cons_of_mem found ht)
          refine .cons ⟨Diagnostic.alternatives expected, found.kind, found.span.start, _, rfl, ?_,
            Span.position_of_le (h found List.mem_cons_self)⟩ hrest
          exact Diagnostic.message_eq _

/-- No token is found behind the end of the source, however many readings are made. -/
theorem Ahead.start_le_of_found {bytes : Bytes} {ts : List Token} {t : Token}
    (h : Ahead bytes 0 ts) (n : Nat)
    (ht : t ∈ ((Production.readings (Token.endOf bytes) ts).take n).filterMap Reading.found?) :
    t.span.start ≤ bytes.length := by
  have hstop : (Token.endOf bytes).kind = .endOfInput := rfl
  have hfirst := List.take_sublist n (Production.readings (Token.endOf bytes) ts)
  exact h.start_le (Production.mem_of_mem_found hstop ((hfirst.filterMap _).subset ht))

/-- How the log of a run tells what its calls led to, and how the result does. -/
structure Told (bytes : Bytes) (calls : List Call) (final : Session) (result : ParseResult)
    (log : List LogRecord) : Prop where
  statements : result.statements = calls.filterMap Call.outcome
  diagnostics : result.diagnostics = final.sink.messages
  length_eq : calls.length = result.statements.length + result.diagnostics.length
  debug : ∃ mentions, List.Forall₂ (LogLine.Mentions bytes) mentions result.diagnostics ∧
    LogLine.shown .debug log =
      [.ofFrontend "INFO" ("Parsing " ++ toString bytes.length ++ " bytes...")] ++ mentions ++
      (if final.cursor.atEnd then []
        else [.ofFrontend "INFO" ("Stopped after " ++ toString calls.length ++ " parse calls")]) ++
      [.ofFrontend "DEBUG" (toString calls.length ++ " parse calls stopped at byte " ++
          toString final.cursor.offset),
        .ofFrontend "INFO" ("Parsed " ++ toString result.statements.length ++
          " statements with " ++ toString result.diagnostics.length ++ " diagnostics")]
  info : LogLine.shown .info log = (LogLine.shown .debug log).filter (·.level ≠ "DEBUG")

/--
The log of a parse has a line about each diagnostic of the result, in the same order. The lines
around these give the bytes of the source, the calls and the offset where the last one left the
cursor, and how many statements and diagnostics the result has; the line about a cut is there
exactly if a token was left. A strict parse that refuses the result has the same log.
-/
theorem log_tells_result {source : Source} {bytes : Bytes} (h : source.buffer = .ok bytes)
    (strict : Bool) (limit : Option Int) :
    ∃ calls final result, Session.RunsUnder limit bytes calls final ∧
      (source.parse strict limit).1 =
        (if strict && !result.ok then .error (.rejected { messages := result.diagnostics })
          else .ok result) ∧
      Told bytes calls final result (source.parse strict limit).2 := by
  rcases exists_ahead (Nat.zero_le bytes.length) with ⟨ts, hahead⟩
  rcases Session.exists_runsUnder limit hahead with ⟨calls, hunder, hcalls, hend⟩
  have hparse := Source.parse_of_collect strict (Source.collect_of_ahead limit h hahead)
  set readings := Production.readings (Token.endOf bytes) ts
  set bound := callBound limit bytes.length
  set final := Session.closing bytes (readings.take bound)
  have hstatements := Call.filterMap_outcome_of_readings hcalls
  have hlength : (readings.take bound).length = calls.length := by rw [← hcalls, List.length_map]
  have hcount : 0 + calls.length =
      (calls.filterMap Call.outcome).length + final.sink.messages.length :=
    hunder.runs.length_eq
  have hlines : final.log.map LogLine.ofRecord =
      [LogLine.ofFrontend "INFO" ("Parsing " ++ toString bytes.length ++ " bytes...")] ++
        ((readings.take bound).filterMap Reading.entry?).map LogLine.ofRecord := rfl
  have hcut : (if readings.length ≤ bound then [] else [.stopped calls.length]).map
        LogLine.ofRecord =
      if final.cursor.atEnd then []
        else
          [.ofFrontend "INFO" ("Stopped after " ++ toString calls.length ++ " parse calls")] := by
    rw [apply_ite (List.map LogLine.ofRecord)]
    exact if_congr hend.symm rfl rfl
  refine ⟨calls, final, _, hunder, congrArg Prod.fst hparse, ?_⟩
  rw [hparse, hlength]
  constructor
  case statements => exact hstatements.symm
  case diagnostics => rfl
  case length_eq => rwa [Nat.zero_add, hstatements] at hcount
  case debug =>
    refine ⟨_, Reading.forall₂_mentions fun t => hahead.start_le_of_found bound, ?_⟩
    rw [LogLine.shown_debug, List.map_append, List.map_append, hlines, hcut]
    rfl
  case info => exact LogLine.shown_info _

/-- A limit of two leaves a token unread, and the diagnostic of the first call is refused. -/
theorem log_tells_result_refused :
    let bytes := "; let a = 1; x".toList.map Char.toUInt8
    (Source.bytes bytes).buffer = .ok bytes ∧
      ∃ calls final result, Session.RunsUnder (some 2) bytes calls final ∧
        ((Source.bytes bytes).parse true (some 2)).1 =
          (if true && !result.ok then .error (.rejected { messages := result.diagnostics })
            else .ok result) ∧
        Told bytes calls final result ((Source.bytes bytes).parse true (some 2)).2 := by
  intro bytes
  exact ⟨rfl, log_tells_result rfl true (some 2)⟩

end LetLang
