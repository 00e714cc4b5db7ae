import Mathlib.Order.Bounds.Basic
import LetLang.Proofs.Place
import LetLang.Proofs.Pulling

/-!
# One reading against the stream of tokens

From a cursor in its source the tokens come in a stream that never ends, since the end of the input
comes for ever (`Cursor.Streams`). A production is read off this stream place by place: it is
complete if every token fits its place, and otherwise the first token that does not fit ends it
(`Production.readFrom_stream_complete`, `Production.readFrom_stream_mismatch`).

Main statement: `readBinding_of_stream`. It says what one call on an open sink does from every
offset in a source, whether a token starts there or not.
-/

namespace LetLang

/-! ## The stream from a cursor on -/

/-- The tokens come first in their stream, and the end of the input in every place behind them. -/
theorem Token.get_stream (bytes : Bytes) (ts : List Token) (i : Nat) :
    (stream bytes ts).get i = ts[i]?.getD (endOf bytes) := by
  by_cases hi : i < ts.length
  · rw [List.getElem?_eq_getElem hi]
    exact Stream'.get_append_left i ts _ hi
  · rcases Nat.exists_eq_add_of_le (Nat.not_lt.mp hi) with ⟨j, rfl⟩
    rw [List.getElem?_eq_none (Nat.not_lt.mp hi)]
    exact Stream'.get_append_right j ts _

theorem Token.get_stream_zero (bytes : Bytes) (ts : List Token) :
    (stream bytes ts).get 0 = ts.headD (endOf bytes) := by
  rw [stream_eq_cons]
  rfl

theorem Token.get_stream_succ (bytes : Bytes) (ts : List Token) (i : Nat) :
    (stream bytes ts).get (i + 1) = (stream bytes ts.tail).get i := by
  rw [stream_eq_cons]
  rfl

/-- The tokens that the cursor gives one after another, behind some of which the input ends. -/
structure Cursor.Streams (c : Cursor) (tokens : Stream' Token) : Prop where
  pulls : ∀ n, ∃ c', c.Pulls (tokens.take n) c'
  ends : ∃ n, (∀ i, i < n → (tokens.get i).kind ≠ .endOfInput) ∧
    ∀ i, n ≤ i → tokens.get i = Token.endOf c.source

namespace Cursor

variable {bytes : Bytes} {k : Nat} {ts : List Token}

/-- A cursor leaves no choice of what is pulled next. -/
theorem Pulls.eq_of_length_eq {c c₁ c₂ : Cursor} {pulled other : List Token}
    (h : c.Pulls pulled c₁) (h' : c.Pulls other c₂) (hlength : pulled.length = other.length) :
    pulled = other := by
  induction pulled generalizing c other with
  | nil => exact (List.length_eq_zero_iff.mp hlength.symm).symm
  | cons t pulled ih =>
      cases other with
      | nil => contradiction
      | cons u other =>
          obtain ⟨c₃, hnext, hrest⟩ := h
          obtain ⟨c₄, hnext', hrest'⟩ := h'
          obtain ⟨rfl, rfl⟩ := Prod.mk.inj (Except.ok.inj (hnext.symm.trans hnext'))
          rw [ih hrest hrest' (Nat.succ.inj hlength)]

theorem Streams.unique {c : Cursor} {tokens other : Stream' Token} (h : c.Streams tokens)
    (h' : c.Streams other) : tokens = other := by
  apply Stream'.take_theorem
  intro n
  obtain ⟨c₁, hpulls⟩ := h.pulls n
  obtain ⟨c₂, hpulls'⟩ := h'.pulls n
  exact hpulls.eq_of_length_eq hpulls' (by simp)

theorem exists_pulls_of_ahead (n : Nat) (h : Ahead bytes k ts) :
    ∃ c', (Cursor.mk bytes k).Pulls ((Token.stream bytes ts).take n) c' := by
  induction n generalizing k ts with
  | zero => exact ⟨_, rfl⟩
  | succ n ih =>
      obtain ⟨hnext, htail⟩ := next_of_ahead h
      obtain ⟨c', hrest⟩ := ih htail
      rw [Token.stream_eq_cons, Stream'.take_succ_cons]
      exact ⟨c', _, hnext, hrest⟩

theorem streams_of_ahead (h : Ahead bytes k ts) :
    (Cursor.mk bytes k).Streams (Token.stream bytes ts) where
  pulls n := exists_pulls_of_ahead n h
  ends := by
    refine ⟨ts.length, fun i hi => ?_, fun i hi => ?_⟩
    · rw [Token.get_stream, List.getElem?_eq_getElem hi]
      exact h.kind_ne (List.getElem_mem hi)
    · rw [Token.get_stream, List.getElem?_eq_none hi]
      rfl

end Cursor

/-! ## A production on the stream -/

theorem Token.take_succ_stream (bytes : Bytes) (ts : List Token) (n : Nat) :
    (stream bytes ts).take (n + 1) =
      ts.headD (endOf bytes) :: (stream bytes ts.tail).take n := by
  rw [stream_eq_cons, Stream'.take_succ_cons]

namespace Production

variable {bytes : Bytes} {ts : List Token} {production more : Production}
  {expected : List TokenKind}

/-- The token in the place has a kind that is expected there. Behind the last place none is. -/
def Fits (production : Production) (tokens : Stream' Token) (i : Nat) : Prop :=
  ∀ expected, production[i]? = some expected → (tokens.get i).kind ∈ expected

theorem fits_zero_iff :
    Fits (expected :: more) (Token.stream bytes ts) 0 ↔
      (ts.headD (Token.endOf bytes)).kind ∈ expected := by
  rw [Fits, Token.get_stream_zero]
  simp

theorem fits_succ_iff {i : Nat} :
    Fits (expected :: more) (Token.stream bytes ts) (i + 1) ↔
      Fits more (Token.stream bytes ts.tail) i := by
  rw [Fits, Fits, Token.get_stream_succ]
  simp

/-- If every token fits its place, as many are read as there are places. -/
theorem readFrom_stream_complete (h : ∀ i, production.Fits (Token.stream bytes ts) i) :
    (production.readFrom (Token.endOf bytes) ts).1 =
      .complete ((Token.stream bytes ts).take production.length) := by
  induction production generalizing ts with
  | nil => rfl
  | cons expected more ih =>
      have hrest := @ih ts.tail fun i => fits_succ_iff.mp (h (i + 1))
      rw [readFrom_of_mem (fits_zero_iff.mp (h 0)), hrest, List.length_cons,
        Token.take_succ_stream]
      rfl

/-- Otherwise the first token that does not fit is found instead of what is expected there. -/
theorem readFrom_stream_mismatch {m : Nat}
    (h : IsLeast {i | ¬ production.Fits (Token.stream bytes ts) i} m) :
    ∃ expected, production[m]? = some expected ∧
      (production.readFrom (Token.endOf bytes) ts).1 =
        .mismatch ((Token.stream bytes ts).take m) expected ((Token.stream bytes ts).get m) := by
  induction production generalizing ts m with
  | nil => exact absurd (by simp [Fits]) h.1
  | cons expected more ih =>
      cases m with
      | zero =>
          have hnot := mt fits_zero_iff.mpr h.1
          refine ⟨expected, rfl, ?_⟩
          rw [readFrom_of_not_mem hnot, Token.get_stream_zero]
          rfl
      | succ m =>
          have hzero : Fits (expected :: more) (Token.stream bytes ts) 0 := by
            by_contra hnot
            have hle := h.2 hnot
            omega
          have hleast : IsLeast {i | ¬ Fits more (Token.stream bytes ts.tail) i} m := by
            refine ⟨mt fits_succ_iff.mpr h.1, fun i hi => ?_⟩
            have hle := h.2 (show i + 1 ∈ _ from mt fits_succ_iff.mp hi)
            omega
          obtain ⟨found, hfound, hread⟩ := ih hleast
          refine ⟨found, hfound, ?_⟩
          rw [readFrom_of_mem (fits_zero_iff.mp hzero), hread, Token.get_stream_succ,
            Token.take_succ_stream]
          rfl

end Production

/-- Behind some tokens of a stream, the last of them ends where the next one is looked for. -/
theorem Token.lastStop_take_succ (k n : Nat) (tokens : Stream' Token) :
    lastStop k (tokens.take (n + 1)) = (tokens.get n).span.stop := by
  rw [Stream'.take_succ', lastStop_append]
  rfl

/-! ## A session on the stream -/

namespace Session

variable {bytes : Bytes} {k : Nat} {ts : List Token} {production : Production}

theorem behind_complete (us : List Token) (messages : List String) (log : List LogRecord) :
    behind bytes k messages log [.complete us] =
      collecting bytes (Token.lastStop k us) messages log := by
  have hmessages : messages ++ Reading.messages bytes [.complete us] = messages :=
    List.append_nil messages
  have hlog : log ++ [Reading.complete us].filterMap Reading.entry? = log := List.append_nil log
  rw [behind, hmessages, hlog, List.flatMap_singleton]
  rfl

theorem stop_get_stream_le (h : Ahead bytes k ts) (m : Nat) :
    ((Token.stream bytes ts).get m).span.stop ≤ bytes.length := by
  rw [Token.get_stream]
  cases hm : ts[m]? with
  | none => exact Nat.le_refl _
  | some t => exact h.stop_le (List.mem_of_getElem? hm)

theorem read_of_stream_complete (h : Ahead bytes k ts)
    (hfits : ∀ i, production.Fits (Token.stream bytes ts) i) (messages : List String)
    (log : List LogRecord) :
    let pulled := (Token.stream bytes ts).take production.length
    (collecting bytes k messages log).read production =
      (.ok (Statement.ofTokens? pulled),
        collecting bytes (Token.lastStop k pulled) messages log) := by
  intro pulled
  rw [read_of_ahead production h, Production.readFrom_stream_complete hfits, behind_complete]
  rfl

theorem read_of_stream_mismatch (h : Ahead bytes k ts) {m : Nat}
    (hm : IsLeast {i | ¬ production.Fits (Token.stream bytes ts) i} m) (messages : List String)
    (log : List LogRecord) :
    let found := (Token.stream bytes ts).get m
    ∃ expected p, production[m]? = some expected ∧ found.span.position bytes = .ok p ∧
      (collecting bytes k messages log).read production =
        (.ok none,
          collecting bytes found.span.stop
            (messages ++ [Diagnostic.message { expected, found := found.kind, position := p }])
            (log ++ [.mismatch found.span.start expected found.kind])) := by
  intro found
  obtain ⟨expected, hexpected, hread⟩ := Production.readFrom_stream_mismatch hm
  refine ⟨expected, _, hexpected, Span.position_of_le (stop_get_stream_le h m), ?_⟩
  rw [read_of_ahead production h, hread, behind, List.flatMap_singleton, Reading.pulled,
    ← Stream'.take_succ', Token.lastStop_take_succ]
  rfl

end Session

/--
From every offset in a source, a call on an open sink follows the stream of tokens. If the first
five fit the places of a binding, it returns the statement, ends behind the fifth and adds nothing
to the sink. Otherwise it returns none, ends behind the first token that does not fit, and adds one
message, which says what was expected in this place, what was found there, and where.
-/
theorem readBinding_of_stream {bytes : Bytes} {k : Nat} (h : k ≤ bytes.length)
    (messages : List String) (log : List LogRecord) :
    let s := Session.collecting bytes k messages log
    ∃ tokens, s.cursor.Streams tokens ∧
      ((∀ i, Production.binding.Fits tokens i) →
        s.readBinding =
          (.ok (some { ident := tokens.get 1, value := { token := tokens.get 3 } }),
            Session.collecting bytes (tokens.get 4).span.stop messages log)) ∧
      ∀ m, IsLeast {i | ¬ Production.binding.Fits tokens i} m →
        ∃ expected p, Production.binding[m]? = some expected ∧
          (tokens.get m).span.position bytes = .ok p ∧
          s.readBinding =
            (.ok none,
              Session.collecting bytes (tokens.get m).span.stop
                (messages ++
                  ["expected " ++ " or ".intercalate (expected.map TokenKind.describe) ++
                    " but got " ++ (tokens.get m).kind.describe ++ " at " ++ toString p.line ++
                    ":" ++ toString p.column])
                (log ++ [.mismatch (tokens.get m).span.start expected (tokens.get m).kind])) := by
  intro s
  obtain ⟨ts, hts⟩ := exists_ahead h
  refine ⟨Token.stream bytes ts, Cursor.streams_of_ahead hts, ?_, ?_⟩
  · intro hfits
    exact Session.read_of_stream_complete hts hfits messages log
  · intro m hm
    obtain ⟨expected, p, hexpected, hposition, hread⟩ :=
      Session.read_of_stream_mismatch hts hm messages log
    rw [Diagnostic.message_eq] at hread
    exact ⟨expected, p, hexpected, hposition, hread⟩

/-- From inside a word on, four tokens fit, and the input ends in the place of the semicolon. -/
theorem readBinding_of_stream_unfinished :
    let bytes := "outlet\nx = \"1\"".toList.map Char.toUInt8
    let s := Session.collecting bytes 3 ["kept"] []
    let tokens := Token.stream bytes
      [{ kind := .keyword .letKw, span := { start := 3, stop := 6 } },
        { kind := .identifier, span := { start := 7, stop := 8 } },
        { kind := .symbol .assign, span := { start := 9, stop := 10 } },
        { kind := .string, span := { start := 11, stop := 14 } }]
    3 ≤ bytes.length ∧ s.cursor.Streams tokens ∧
      IsLeast {i | ¬ Production.binding.Fits tokens i} 4 ∧
      s.readBinding =
        (.ok none,
          Session.collecting bytes 14 ["kept", "expected ';' but got end of input at 2:8"]
            [.mismatch 14 [.symbol .semicolon] .endOfInput]) := by
  intro bytes s tokens
  have hle : 3 ≤ bytes.length := by decide
  have hstreams : s.cursor.Streams tokens :=
    Cursor.streams_of_ahead ⟨rfl, by decide, rfl, by decide, rfl, by decide, rfl, by decide, rfl⟩
  have hleast : IsLeast {i | ¬ Production.binding.Fits tokens i} 4 := by
    refine ⟨fun hfits => absurd (hfits _ rfl) (by decide), fun i hi => ?_⟩
    by_contra hlt
    refine hi fun expected hexpected => ?_
    match i, hexpected with
    | 0, rfl => decide
    | 1, rfl => decide
    | 2, rfl => decide
    | 3, rfl => decide
    | n + 4, _ => omega
  obtain ⟨other, hother, -, hmismatch⟩ := readBinding_of_stream hle ["kept"] []
  obtain rfl := hstreams.unique hother
  obtain ⟨expected, p, hexpected, hposition, hread⟩ := hmismatch 4 hleast
  obtain rfl := Option.some.inj hexpected
  obtain rfl := Except.ok.inj hposition
  refine ⟨hle, hstreams, hleast, hread.trans ?_⟩
  decide

end LetLang
