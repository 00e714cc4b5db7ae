import LetLang.Position

/-!
# Spans

A span is a half-open range of byte offsets. Its bounds are in order by construction: `ofBounds`
takes any two integers and refuses those that make no span. Applying a span to a source needs the
source to reach the span's end; that is checked where the span is applied, so one span can be
resolved against several sources.
-/

namespace LetLang

/-- Why a span cannot be made or applied. -/
inductive SpanError where
  | invalid (start stop : Int)
  | beyond (start stop length : Nat)
deriving DecidableEq, Repr

/-- The bounds of a range in brackets: closed on the left, open on the right. -/
def SpanError.bounds (start stop : Int) : String :=
  "[" ++ toString start ++ ", " ++ toString stop ++ ")"

def SpanError.message : SpanError → String
  | invalid start stop => "invalid span " ++ bounds start stop
  | beyond start stop length =>
      "span " ++ bounds start stop ++ " exceeds source of length " ++ toString length

/-- A half-open range of byte offsets. -/
structure Span where
  start : Nat
  stop : Nat
  start_le_stop : start ≤ stop := by omega
deriving DecidableEq, Repr

namespace Span

/-- The span with the given bounds, if they are in order and not negative. -/
def ofBounds (start stop : Int) : Except SpanError Span :=
  if h : 0 ≤ start ∧ start ≤ stop then
    .ok { start := start.toNat, stop := stop.toNat }
  else
    .error (.invalid start stop)

def ofWidth (start : Int) (width : Int := 1) : Except SpanError Span :=
  ofBounds start (start + width)

def width (s : Span) : Nat := s.stop - s.start

/-- Fails unless the source reaches the end of the span. -/
def check (s : Span) (bytes : Bytes) : Except SpanError Unit :=
  if s.stop ≤ bytes.length then .ok () else .error (.beyond s.start s.stop bytes.length)

def slice (s : Span) (bytes : Bytes) : Except SpanError Bytes :=
  match s.check bytes with
  | .error e => .error e
  | .ok () => .ok ((bytes.drop s.start).take s.width)

/-- The position of the first byte of a span. -/
def position (s : Span) (bytes : Bytes) : Except SpanError Position :=
  match s.check bytes with
  | .error e => .error e
  | .ok () => .ok (Position.after (bytes.take s.start))

theorem ofBounds_natCast {m n : Nat} (h : m ≤ n) :
    ofBounds m n = .ok { start := m, stop := n } := by
  simp [ofBounds, h]

theorem check_eq_ok_iff {s : Span} {bytes : Bytes} :
    s.check bytes = .ok () ↔ s.stop ≤ bytes.length := by
  unfold check
  split <;> simp_all

theorem slice_of_le {s : Span} {bytes : Bytes} (h : s.stop ≤ bytes.length) :
    s.slice bytes = .ok ((bytes.drop s.start).take s.width) := by
  simp [slice, check, h]

theorem position_of_le {s : Span} {bytes : Bytes} (h : s.stop ≤ bytes.length) :
    s.position bytes = .ok (Position.after (bytes.take s.start)) := by
  simp [position, check, h]

end Span

end LetLang
