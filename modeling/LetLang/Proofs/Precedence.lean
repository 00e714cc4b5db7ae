import LetLang.Proofs.Expectation
import LetLang.Proofs.Wraparound

/-!
# Which fault comes first

The tail of a binding is read without a look at the sink. So a released sink shows only when there
is something to report, and then the tokens up to the mismatch are pulled. A fault of the scan comes
before that, and so does a token that has no position: both are met with the first token, where
nothing is pulled yet.

Main statement: `readBindingTail_from_any_state`.
-/

namespace LetLang

/-! ## A cursor that finds a token -/

namespace Cursor

variable {c d : Cursor} {k : Nat} {ts : List Token} {expected : List TokenKind} {more : Production}

/-- The stream depends on where the cursor stands only through its first token. -/
theorem Streams.congr {tokens : Stream' Token} (h : d.Streams tokens) (hsource : c.source = d.source)
    (hpeek : c.peek = d.peek) : c.Streams tokens where
  pulls n := by
    cases n with
    | zero => exact ⟨c, rfl⟩
    | succ n =>
        obtain ⟨c', hpulls⟩ := h.pulls (n + 1)
        exact ⟨c', hpulls.congr (by simp [Stream'.take_succ]) (next_congr hsource hpeek)⟩
  ends := by
    rw [hsource]
    exact h.ends

/-- If every token fits, the cursor ends behind as many as there are places. -/
theorem read_of_stream_complete (h : Ahead c.source k ts)
    (hpeek : c.peek = (Cursor.mk c.source k).peek)
    (hfits : ∀ i, Production.Fits (expected :: more) (Token.stream c.source ts) i) :
    let tokens := Token.stream c.source ts
    c.read (expected :: more) =
      .ok (.complete (tokens.take (more.length + 1)),
        c.seek (tokens.get more.length).span.stop) := by
  intro tokens
  rw [read_of_peek_eq h hpeek, Production.readFrom_stream_complete hfits, Reading.pulled,
    List.length_cons, Token.lastStop_take_succ]

/-- Otherwise it ends behind the first token that does not fit. -/
theorem read_of_stream_mismatch (h : Ahead c.source k ts)
    (hpeek : c.peek = (Cursor.mk c.source k).peek) {m : Nat}
    (hm : IsLeast {i | ¬ Production.Fits (expected :: more) (Token.stream c.source ts) i} m) :
    let tokens := Token.stream c.source ts
    ∃ wanted, (expected :: more)[m]? = some wanted ∧
      c.read (expected :: more) =
        .ok (.mismatch (tokens.take m) wanted (tokens.get m),
          c.seek (tokens.get m).span.stop) := by
  intro tokens
  obtain ⟨wanted, hwanted, hreading⟩ := Production.readFrom_stream_mismatch hm
  refine ⟨wanted, hwanted, ?_⟩
  rw [read_of_peek_eq h hpeek, hreading, Reading.pulled, ← Stream'.take_succ',
    Token.lastStop_take_succ]

end Cursor

/-! ## What a reading becomes -/

namespace Session

variable {s : Session} {c : Cursor} {production : Production} {accepted : List Token}
  {expected : List TokenKind} {found : Token} {p : Position}

/-- A complete reading does not need the sink. -/
theorem read_of_complete {us : List Token} (h : s.cursor.read production = .ok (.complete us, c)) :
    s.read production = (.ok (Statement.ofTokens? us), { s with cursor := c }) := by
  rw [read, h]

theorem read_of_mismatch {messages : List String}
    (h : s.cursor.read production = .ok (.mismatch accepted expected found, c))
    (hposition : found.span.position c.source = .ok p) (hsink : s.sink = .collecting messages) :
    s.read production =
      (.ok none,
        { cursor := c
          sink := .collecting
            (messages ++ [Diagnostic.message { expected, found := found.kind, position := p }])
          log := s.log ++ [.mismatch found.span.start expected found.kind] }) := by
  rw [read, h]
  simp only [report, hposition, hsink, Sink.append]

/-- A released sink refuses the message once the token is pulled, and nothing is recorded. -/
theorem read_of_mismatch_released
    (h : s.cursor.read production = .ok (.mismatch accepted expected found, c))
    (hposition : found.span.position c.source = .ok p) (hsink : s.sink = .released) :
    s.read production = (.error .sinkReleased, { s with cursor := c }) := by
  rw [read, h]
  simp only [report, hposition, hsink, Sink.append]

/-! ## The tail of a binding -/

/-- What reading the tail of a binding comes to if these tokens are the next ones. -/
structure ReadsTail (s : Session) (tokens : Stream' Token) : Prop where
  complete : (∀ i, Production.bindingTail.Fits tokens i) →
    s.readBindingTail =
      (.ok (some { ident := tokens.get 0, value := { token := tokens.get 2 } }),
        { s with cursor := s.cursor.seek (tokens.get 3).span.stop })
  mismatch : ∀ m, IsLeast {i | ¬ Production.bindingTail.Fits tokens i} m →
    ∃ expected p, Production.bindingTail[m]? = some expected ∧
      (tokens.get m).span.position s.cursor.source = .ok p ∧
      (∀ messages, s.sink = .collecting messages →
        s.readBindingTail =
          (.ok none,
            { cursor := s.cursor.seek (tokens.get m).span.stop
              sink := .collecting
                (messages ++
                  ["expected " ++ " or ".intercalate (expected.map TokenKind.describe) ++
                    " but got " ++ (tokens.get m).kind.describe ++ " at " ++ toString p.line ++
                    ":" ++ toString p.column])
              log := s.log ++
                [.mismatch (tokens.get m).span.start expected (tokens.get m).kind] })) ∧
      (s.sink = .released →
        s.readBindingTail =
          (.error .sinkReleased,
            { s with cursor := s.cursor.seek (tokens.get m).span.stop }))

theorem readsTail_of_ahead {k : Nat} {ts : List Token} (h : Ahead s.cursor.source k ts)
    (hpeek : s.cursor.peek = (Cursor.mk s.cursor.source k).peek) :
    s.ReadsTail (Token.stream s.cursor.source ts) where
  complete hfits := read_of_complete (Cursor.read_of_stream_complete h hpeek hfits)
  mismatch m hm := by
    obtain ⟨expected, hexpected, hread⟩ := Cursor.read_of_stream_mismatch h hpeek hm
    have hposition := Span.position_of_le (stop_get_stream_le h m)
    refine ⟨expected, _, hexpected, hposition, fun messages hsink => ?_, fun hsink => ?_⟩
    · have hcall := read_of_mismatch hread hposition hsink
      rw [Diagnostic.message_eq] at hcall
      exact hcall
    · exact read_of_mismatch_released hread hposition hsink

theorem exists_readsTail_of_ahead {k : Nat} {ts : List Token} (h : Ahead s.cursor.source k ts)
    (hpeek : s.cursor.peek = (Cursor.mk s.cursor.source k).peek) :
    ∃ tokens, s.cursor.Streams tokens ∧ s.ReadsTail tokens :=
  ⟨_, (Cursor.streams_of_ahead h).congr rfl hpeek, readsTail_of_ahead h hpeek⟩

end Session

/--
Reading the tail of a binding follows the stream of tokens from every offset in the source, and from
every negative one from which a token is found, whether the sink is released or not: if the next
four tokens fit, the statement is returned. Otherwise the cursor ends behind the first that does not
fit. Then an open sink takes one message and the log one record, and a released one refuses. Past
the end, and where no token is found, the session fails for that reason and stays as it was.
-/
theorem readBindingTail_from_any_state (s : Session) :
    (∀ k : Nat, s.cursor.offset = k → k ≤ s.cursor.source.length →
        ∃ tokens, s.cursor.Streams tokens ∧ s.ReadsTail tokens) ∧
      (∀ t, s.cursor.offset < 0 → scan s.cursor.source s.cursor.offset = .ok t →
        ∃ tokens, s.cursor.Streams tokens ∧ s.ReadsTail tokens) ∧
      (∀ k : Nat, s.cursor.offset = k → s.cursor.source.length < k →
        s.readBindingTail = (.error (.span (.beyond k k s.cursor.source.length)), s)) ∧
      (∀ e, s.cursor.offset < 0 → scan s.cursor.source s.cursor.offset = .error e →
        s.readBindingTail = (.error (.span e), s)) ∧
      Fault.sinkReleased.message = "diagnostic sink used after release" := by
  refine ⟨fun k hoffset hk => ?_, fun t hneg hscan => ?_, fun k hoffset hk => ?_,
    fun e _ hscan => ?_, rfl⟩
  · obtain ⟨ts, hts⟩ := exists_ahead hk
    refine Session.exists_readsTail_of_ahead hts ?_
    rw [Cursor.peek, hoffset]
    rfl
  · obtain ⟨ts, hts⟩ := exists_ahead (Nat.zero_le s.cursor.source.length)
    have hzero : scan s.cursor.source 0 = .ok t := scan_zero_of_neg hneg hscan
    exact Session.exists_readsTail_of_ahead hts (hscan.trans hzero.symm)
  · exact Session.read_of_length_lt hoffset hk (by decide) _
  · exact Session.read_of_peek_error hscan _ _

/--
On a released sink, a brace in the place of the semicolon is pulled before the sink refuses. Past the
end, and three bytes before it, where a digit comes before the start, nothing is pulled.
-/
theorem readBindingTail_from_any_state_released :
    let bytes := "x = 5 \x7d".toList.map Char.toUInt8
    let placed (offset : Int) : Session :=
      { cursor := { source := bytes, offset }, sink := .released }
    (∃ tokens, (placed 0).cursor.Streams tokens ∧
        IsLeast {i | ¬ Production.bindingTail.Fits tokens i} 3 ∧
        (tokens.get 3).kind = .symbol .rbrace) ∧
      (placed 0).readBindingTail = (.error .sinkReleased, placed 7) ∧
      (placed 8).readBindingTail = (.error (.span (.beyond 8 8 7)), placed 8) ∧
      (placed (-3)).readBindingTail = (.error (.span (.invalid (-3) (-2))), placed (-3)) := by
  intro bytes placed
  let tokens := Token.stream bytes
    [{ kind := .identifier, span := { start := 0, stop := 1 } },
      { kind := .symbol .assign, span := { start := 2, stop := 3 } },
      { kind := .integer, span := { start := 4, stop := 5 } },
      { kind := .symbol .rbrace, span := { start := 6, stop := 7 } }]
  have hstreams : (placed 0).cursor.Streams tokens :=
    Cursor.streams_of_ahead ⟨rfl, by decide, rfl, by decide, rfl, by decide, rfl, by decide, rfl⟩
  have hleast : IsLeast {i | ¬ Production.bindingTail.Fits tokens i} 3 := by
    refine ⟨fun hfits => absurd (hfits _ rfl) (by decide), fun i hi => ?_⟩
    by_contra hlt
    have hplace : i = 0 ∨ i = 1 ∨ i = 2 := by omega
    refine hi fun expected hexpected => ?_
    rcases hplace with rfl | rfl | rfl
    all_goals
      cases hexpected
      decide
  obtain ⟨hwithin, -⟩ := readBindingTail_from_any_state (placed 0)
  obtain ⟨-, -, hbeyond, -⟩ := readBindingTail_from_any_state (placed 8)
  obtain ⟨-, -, -, hwrapped, -⟩ := readBindingTail_from_any_state (placed (-3))
  obtain ⟨other, hother, htail⟩ := hwithin 0 rfl (Nat.zero_le _)
  obtain rfl := hstreams.unique hother
  obtain ⟨expected, p, -, -, -, hreleased⟩ := htail.mismatch 3 hleast
  exact ⟨⟨tokens, hstreams, hleast, rfl⟩, hreleased rfl, hbeyond 8 rfl (by decide),
    hwrapped _ (by decide) rfl⟩

end LetLang
