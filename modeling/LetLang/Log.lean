import LetLang.Diagnostic

/-!
# Log records

What a parse tells about itself: how much it is about to read, each diagnostic as it is recorded,
whether a limit cut the run short, where the run ended, and what it found. Each record belongs to a
logger and a level.
-/

namespace LetLang

inductive LogLevel where
  | debug
  | info
deriving DecidableEq, Repr

def LogLevel.name : LogLevel → String
  | debug => "DEBUG"
  | info => "INFO"

/-- One event of a parse. -/
inductive LogRecord where
  /-- A source of so many bytes is about to be parsed. -/
  | started (bytes : Nat)
  /-- A diagnostic was recorded about the token at the offset. -/
  | mismatch (offset : Nat) (expected : List TokenKind) (found : TokenKind)
  /-- The limit left a token unread. -/
  | stopped (calls : Nat)
  /-- The last parse call left the cursor at the offset. -/
  | ended (calls : Nat) (offset : Int)
  /-- So many statements and diagnostics were found. -/
  | finished (statements diagnostics : Nat)
deriving DecidableEq, Repr

namespace LogRecord

def logger : LogRecord → String
  | mismatch .. => "monkeyfront.parser"
  | _ => "monkeyfront.frontend"

def level : LogRecord → LogLevel
  | mismatch .. | ended .. => .debug
  | _ => .info

def message : LogRecord → String
  | started bytes => "Parsing " ++ toString bytes ++ " bytes..."
  | mismatch offset expected found =>
      "diagnostic at offset " ++ toString offset ++ ": expected "
        ++ Diagnostic.alternatives expected ++ ", got " ++ found.name
  | stopped calls => "Stopped after " ++ toString calls ++ " parse calls"
  | ended calls offset =>
      toString calls ++ " parse calls stopped at byte " ++ toString offset
  | finished statements diagnostics =>
      "Parsed " ++ toString statements ++ " statements with " ++ toString diagnostics
        ++ " diagnostics"

/-- Whether a record is shown when only records from the given level on are. -/
def isAtLeast (level : LogLevel) (r : LogRecord) : Bool :=
  level == .debug || r.level == .info

end LogRecord

end LetLang
