import LetLang.Span
import LetLang.Text.Utf8
import LetLang.Value

/-!
# Sources

A source is a text or a run of bytes. Texts are scanned as UTF-8, so all offsets and columns are in
bytes. `Source.buffer` gives the bytes that are scanned; it refuses texts with surrogates and values
of other types, and everything that resolves a span against a source goes through it.
-/

namespace LetLang

/-- What a parse may be asked to read. -/
inductive Source where
  | text (t : Text)
  | bytes (b : Bytes)
  | other (v : Value)
deriving Repr, Inhabited

inductive SourceError where
  /-- Neither text nor bytes, but a value of the named type. -/
  | unsupported (typeName : String)
  | surrogates (run : SurrogateRun)
deriving DecidableEq, Repr

/-- The text of a source error. A single surrogate is shown, of a longer run only its place. -/
def SourceError.message : SourceError → String
  | unsupported typeName => "source must be str or bytes, not " ++ typeName
  | surrogates run =>
      "'utf-8' codec can't encode "
        ++ (if run.length = 1 then
            "character '" ++ String.ofList (Text.escapeNumber run.first.toNat) ++ "' in position "
              ++ toString run.start
          else
            "characters in position " ++ toString run.start ++ "-"
              ++ toString (run.start + run.length - 1))
        ++ ": surrogates not allowed"

/-- What a span covers: text in a text source, bytes in a source of bytes. -/
inductive Lexeme where
  | text (s : String)
  | bytes (b : Bytes)
deriving DecidableEq, Repr

namespace Source

def ofString (s : String) : Source := .text (Text.ofString s)

/-- The bytes that offsets refer to. -/
def buffer : Source → Except SourceError Bytes
  | text t =>
      match t.encode with
      | .error run => .error (.surrogates run)
      | .ok b => .ok b
  | bytes b => .ok b
  | other v => .error (.unsupported v.typeName)

/-- Some of a source's bytes in the form of the source. -/
def lexeme (source : Source) (bytes : Bytes) : Lexeme :=
  match source with
  | text _ => .text (String.ofList (Utf8.decode bytes))
  | _ => .bytes bytes

@[simp] theorem buffer_bytes (b : Bytes) : (bytes b).buffer = .ok b := rfl

@[simp] theorem buffer_ofString (s : String) :
    (ofString s).buffer = .ok (Utf8.encode s.toList) := by
  simp [ofString, buffer, Text.encode_ofString]

end Source

end LetLang
