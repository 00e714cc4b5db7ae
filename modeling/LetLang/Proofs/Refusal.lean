import LetLang.Proofs.Run

/-!
# When a session refuses to read

A cursor may be set to any integer. Within the source it reads on from there. From a negative offset
it either finds what it would find at the start (`scan_zero_of_neg`) or no token at all, and past
the end it finds an end of the input that has no position. So only the first token of a reading can
be at fault, and then nothing was pulled yet.

Main statement: `readBinding_all_or_nothing`. A session refuses to read a binding in three cases
(`Session.Refuses`), which leave it as it was. A whole parse meets none of them.
-/

namespace LetLang

/-! ## Negative offsets -/

theorem Token.nonneg_of_ofBounds {kind : TokenKind} {start stop : Int} {t : Token}
    (h : ofBounds kind start stop = .ok t) : 0 ≤ start := by
  by_contra hneg
  have hbounds : Span.ofBounds start stop = .error (.invalid start stop) := by
    rw [Span.ofBounds, dif_neg fun hb => hneg hb.1]
  rw [ofBounds, hbounds] at h
  contradiction

theorem Tape.nonneg_of_token {tape : Tape} {t : Token} (h : tape.token = .ok t) :
    0 ≤ tape.start := by
  unfold token at h
  split at h
  · exact Token.nonneg_of_ofBounds h
  · exact Token.nonneg_of_ofBounds h

/-- If nothing but blanks is in front of the source, a scan passes over to its start. -/
theorem scan_negSucc_of_isGap {bytes : Bytes} {k : Nat}
    (h : IsGap (bytes.drop (bytes.length - (k + 1))).dropLast) :
    scan bytes (Int.negSucc k) = scan bytes 0 := by
  have hspace : Byte.isBlank Byte.space = true := by decide
  have hskip : (Tape.ofOffset bytes (Int.negSucc k)).skipBlanks =
      (Tape.ofOffset bytes 0).skipBlanks := by
    have hzero : Tape.ofOffset bytes 0 = { start := 0, cells := bytes } := rfl
    rw [hzero]
    simp only [Tape.ofOffset, Tape.skipBlanks, List.takeWhile_append_of_pos h,
      List.dropWhile_append_of_pos h, List.takeWhile_cons_of_pos hspace,
      List.dropWhile_cons_of_pos hspace, List.length_append, List.length_cons, Tape.mk.injEq,
      and_true]
    omega
  rw [scan, hskip, scan]

/-- A token that is found from a negative offset is the first one of the source. -/
theorem scan_zero_of_neg {bytes : Bytes} {offset : Int} {t : Token} (hneg : offset < 0)
    (h : scan bytes offset = .ok t) : scan bytes 0 = .ok t := by
  obtain ⟨k, rfl⟩ := Int.eq_negSucc_of_lt_zero hneg
  set wrapped := (bytes.drop (bytes.length - (k + 1))).dropLast with hwrapped
  have htape : Tape.ofOffset bytes (Int.negSucc k) =
      { start := -(wrapped.length + 1), cells := wrapped ++ Byte.space :: bytes } := rfl
  have hspace : Byte.isBlank Byte.space = true := by decide
  have hstart := Tape.nonneg_of_token h
  rw [htape] at hstart
  simp only [Tape.skipBlanks, List.takeWhile_append, List.takeWhile_cons_of_pos hspace] at hstart
  split at hstart
  · rename_i hall
    have hself : wrapped.takeWhile Byte.isBlank = wrapped :=
      (List.takeWhile_prefix _).eq_of_length hall
    have hgap : IsGap wrapped := List.takeWhile_eq_self_iff.mp hself
    rwa [← scan_negSucc_of_isGap hgap]
  · have hle := (List.takeWhile_prefix Byte.isBlank (l := wrapped)).length_le
    omega

theorem SpanError.message_beyond (start stop length : Nat) :
    (beyond start stop length).message =
      "span [" ++ toString start ++ ", " ++ toString stop ++ ") exceeds source of length "
        ++ toString length := by
  have hopen : "span [" = "span " ++ "[" := rfl
  have hclose : ") exceeds source of length " = ")" ++ " exceeds source of length " := rfl
  rw [hopen, hclose, message, bounds]
  simp only [String.append_assoc]
  rfl

/-! ## Where a cursor stands -/

/-- The end of the input, found at the offset. -/
def Token.endAt (k : Nat) : Token where
  kind := .endOfInput
  span := { start := k, stop := k, start_le_stop := Nat.le_refl k }

namespace Cursor

/-- Past the end, a cursor finds the end of the input where it stands. -/
theorem next_of_length_lt {bytes : Bytes} {k : Nat} (hk : bytes.length < k) :
    (Cursor.mk bytes k).next = .ok (Token.endAt k, Cursor.mk bytes k) := by
  rw [next, peek, scan_of_length_le (Nat.le_of_lt hk)]
  rfl

theorem next_congr {c d : Cursor} (hsource : c.source = d.source) (hpeek : c.peek = d.peek) :
    c.next = d.next := by
  rw [next, next, hpeek, hsource]

/-- Only the first token of a reading depends on where the cursor stands. -/
theorem read_congr {c d : Cursor} (hsource : c.source = d.source) (hpeek : c.peek = d.peek)
    (expected : List TokenKind) (more : Production) :
    c.read (expected :: more) = d.read (expected :: more) := by
  rw [read, read, next_congr hsource hpeek]

/-- A cursor that finds what one with tokens ahead finds reads what these tokens give. -/
theorem read_of_peek_eq {c : Cursor} {k : Nat} {ts : List Token} (h : Ahead c.source k ts)
    (hpeek : c.peek = (Cursor.mk c.source k).peek) (expected : List TokenKind)
    (more : Production) :
    let reading := (Production.readFrom (Token.endOf c.source) (expected :: more) ts).1
    c.read (expected :: more) = .ok (reading, c.seek (Token.lastStop k reading.pulled)) := by
  intro reading
  rw [@read_congr c (Cursor.mk c.source k) rfl hpeek]
  exact (read_of_ahead (expected :: more) h).1

/-- A cursor has tokens ahead, or it is past the end, or it finds no token. -/
theorem exists_ahead_or (c : Cursor) :
    (∃ k ts, Ahead c.source k ts ∧ c.peek = (Cursor.mk c.source k).peek) ∨
      (∃ k : Nat, c.source.length < k ∧ c.offset = k) ∨
      c.offset < 0 ∧ ∃ e, c.peek = .error e := by
  by_cases hneg : c.offset < 0
  · cases hpeek : c.peek with
    | error e => exact Or.inr (Or.inr ⟨hneg, e, rfl⟩)
    | ok t =>
        left
        obtain ⟨ts, hts⟩ := exists_ahead (Nat.zero_le c.source.length)
        exact ⟨0, ts, hts, (scan_zero_of_neg hneg hpeek).symm⟩
  · obtain ⟨k, hk⟩ := Int.eq_ofNat_of_zero_le (Int.not_lt.mp hneg)
    by_cases hle : k ≤ c.source.length
    · left
      obtain ⟨ts, hts⟩ := exists_ahead hle
      refine ⟨k, ts, hts, ?_⟩
      rw [peek, hk]
      rfl
    · exact Or.inr (Or.inl ⟨k, Nat.not_le.mp hle, hk⟩)

end Cursor

/-! ## Reading from there -/

namespace Session

/-- Why a session refuses to read a binding. -/
inductive Refuses (s : Session) : Fault → Prop where
  | released (h : s.sink.isReleased = true) : Refuses s .sessionReleased
  /-- The end of the input that is found past the end has no position. -/
  | beyond (k : Nat) (h : s.sink.isReleased = false) (hoffset : s.cursor.offset = k)
      (hk : s.cursor.source.length < k) : Refuses s (.span (.beyond k k s.cursor.source.length))
  /-- From a negative offset, no token is found. -/
  | wrapped (e : SpanError) (h : s.sink.isReleased = false) (hoffset : s.cursor.offset < 0)
      (hscan : scan s.cursor.source s.cursor.offset = .error e) : Refuses s (.span e)

theorem read_of_read_eq {s : Session} {c : Cursor} {production : Production}
    {result : Reading × Cursor} (h : s.cursor.read production = .ok result)
    (hc : c.read production = .ok result) :
    s.read production = { s with cursor := c }.read production := by
  obtain ⟨reading, c'⟩ := result
  rw [read, read, h]
  simp only [hc]
  cases reading with
  | complete ts => rfl
  | mismatch accepted expected found => rfl

/-- Without a token there is no reading, and the session stays as it was. -/
theorem read_of_peek_error {s : Session} {e : SpanError} (h : s.cursor.peek = .error e)
    (expected : List TokenKind) (more : Production) :
    s.read (expected :: more) = (.error (.span e), s) := by
  have hread : s.cursor.read (expected :: more) = .error e := by
    rw [Cursor.read, Cursor.next, h]
  rw [read, hread]

/-- Past the end, the end of the input is found where the cursor stands, and it has no position. -/
theorem read_of_length_lt {s : Session} {k : Nat} (hoffset : s.cursor.offset = k)
    (hk : s.cursor.source.length < k) {expected : List TokenKind}
    (hend : .endOfInput ∉ expected) (more : Production) :
    s.read (expected :: more) = (.error (.span (.beyond k k s.cursor.source.length)), s) := by
  obtain ⟨⟨bytes, offset⟩, sink, log⟩ := s
  obtain rfl : offset = k := hoffset
  have hread : (Cursor.mk bytes k).read (expected :: more) =
      .ok (.mismatch [] expected (Token.endAt k), Cursor.mk bytes k) := by
    simp only [Cursor.read, Cursor.next_of_length_lt hk]
    exact if_neg hend
  have hposition : (Token.endAt k).span.position bytes = .error (.beyond k k bytes.length) := by
    have hout : ¬ (Token.endAt k).span.stop ≤ bytes.length := Nat.not_le.mpr hk
    rw [Span.position, Span.check, if_neg hout]
    rfl
  simp only [read, hread, report, hposition]

theorem readBinding_eq_read {s : Session} (hsink : s.sink.isReleased = false) :
    s.readBinding = s.read Production.binding := by
  rw [readBinding, if_neg (by simp [hsink])]

theorem readBinding_of_peek_error {s : Session} {e : SpanError}
    (hsink : s.sink.isReleased = false) (h : s.cursor.peek = .error e) :
    s.readBinding = (.error (.span e), s) :=
  (readBinding_eq_read hsink).trans (read_of_peek_error h _ _)

theorem readBinding_of_length_lt {s : Session} {k : Nat} (hsink : s.sink.isReleased = false)
    (hoffset : s.cursor.offset = k) (hk : s.cursor.source.length < k) :
    s.readBinding = (.error (.span (.beyond k k s.cursor.source.length)), s) :=
  (readBinding_eq_read hsink).trans (read_of_length_lt hoffset hk (by decide) _)

/-- An open session reads a binding off the tokens ahead of it. -/
theorem readBinding_of_peek_eq {s : Session} {messages : List String} {k : Nat} {ts : List Token}
    (hsink : s.sink = .collecting messages) (h : Ahead s.cursor.source k ts)
    (hpeek : s.cursor.peek = (Cursor.mk s.cursor.source k).peek) :
    let reading := (Production.binding.readFrom (Token.endOf s.cursor.source) ts).1
    s.readBinding =
      (.ok reading.statement?, behind s.cursor.source k messages s.log [reading]) := by
  obtain ⟨c, sink, log⟩ := s
  obtain rfl : sink = .collecting messages := hsink
  have hread := Cursor.read_of_peek_eq h hpeek [.keyword .letKw] Production.bindingTail
  have hahead := (Cursor.read_of_ahead Production.binding h).1
  exact (read_of_read_eq hread hahead).trans (read_of_ahead _ h)

theorem exists_readBinding_of_ahead {s : Session} {k : Nat} {ts : List Token}
    (hsink : s.sink.isReleased = false) (h : Ahead s.cursor.source k ts)
    (hpeek : s.cursor.peek = (Cursor.mk s.cursor.source k).peek) :
    ∃ outcome s', s.readBinding = (.ok outcome, s') := by
  cases hs : s.sink with
  | released => simp [hs, Sink.isReleased] at hsink
  | collecting messages => exact ⟨_, _, readBinding_of_peek_eq hs h hpeek⟩

/-- A session that refuses to read stays as it was. -/
theorem Refuses.readBinding_eq {s : Session} {e : Fault} (h : s.Refuses e) :
    s.readBinding = (.error e, s) := by
  cases h with
  | released h => exact readBinding_of_isReleased h
  | beyond k h hoffset hk => exact readBinding_of_length_lt h hoffset hk
  | wrapped e h hoffset hscan => exact readBinding_of_peek_error h hscan

theorem exists_readBinding_or_refuses (s : Session) :
    (∃ outcome s', s.readBinding = (.ok outcome, s')) ∨ ∃ e, s.Refuses e := by
  cases hsink : s.sink.isReleased with
  | true => exact Or.inr ⟨_, .released hsink⟩
  | false =>
      rcases s.cursor.exists_ahead_or with ⟨k, ts, hts, hpeek⟩ | ⟨k, hk, hoffset⟩ |
        ⟨hneg, e, hpeek⟩
      · exact Or.inl (exists_readBinding_of_ahead hsink hts hpeek)
      · exact Or.inr ⟨_, .beyond k hsink hoffset hk⟩
      · exact Or.inr ⟨_, .wrapped e hsink hneg hpeek⟩

theorem readBinding_error_iff {s : Session} {e : Fault} :
    s.readBinding.1 = .error e ↔ s.Refuses e := by
  constructor
  · intro herror
    rcases exists_readBinding_or_refuses s with ⟨outcome, s', hok⟩ | ⟨e', h⟩
    · rw [hok] at herror
      contradiction
    · rw [h.readBinding_eq] at herror
      exact Except.error.inj herror ▸ h
  · intro h
    rw [h.readBinding_eq]

end Session

/-! ## Whole parses -/

namespace Source

/-- A parse of a source that has a buffer finds a result; if it is strict, it may reject it. -/
theorem exists_parse {source : Source} {bytes : Bytes} (limit : Option Int)
    (h : source.buffer = .ok bytes) :
    ∃ result, (source.parse false limit).1 = .ok result ∧
      ((source.parse true limit).1 = .ok result ∨
        (source.parse true limit).1 = .error (.rejected { messages := result.diagnostics })) := by
  obtain ⟨ts, hts⟩ := exists_ahead (Nat.zero_le bytes.length)
  have hcollect := collect_of_ahead limit h hts
  refine ⟨_, congrArg Prod.fst (parse_false hcollect), ?_⟩
  rw [parse, hcollect]
  simp only [Bool.true_and]
  split
  · exact Or.inr rfl
  · exact Or.inl rfl

end Source

/--
A session that does not read a binding is as it was before, and it refuses to read exactly if its
sink is released, its cursor past the end, or its cursor at a negative offset from which no token is
found. A whole parse meets no fault: at most, a strict one rejects its result.
-/
theorem readBinding_all_or_nothing :
    (∀ (s s' : Session) (e : Fault), s.readBinding = (.error e, s') → s' = s) ∧
      (∀ (s : Session) (e : Fault), s.readBinding.1 = .error e ↔ s.Refuses e) ∧
      (∀ k n : Nat, (Fault.span (.beyond k k n)).message =
        "span [" ++ toString k ++ ", " ++ toString k ++ ") exceeds source of length "
          ++ toString n) ∧
      ∀ (source : Source) (bytes : Bytes) (limit : Option Int), source.buffer = .ok bytes →
        ∃ result, (source.parse false limit).1 = .ok result ∧
          ((source.parse true limit).1 = .ok result ∨
            (source.parse true limit).1 =
              .error (.rejected { messages := result.diagnostics })) := by
  refine ⟨fun s s' e h => ?_, fun s e => Session.readBinding_error_iff, fun k n => ?_,
    fun source bytes limit h => Source.exists_parse limit h⟩
  · have hrefuses := Session.readBinding_error_iff.mp (congrArg Prod.fst h)
    rw [hrefuses.readBinding_eq] at h
    exact (congrArg Prod.snd h).symm
  · exact SpanError.message_beyond k k n

/-- Two bytes before the end, the scan meets a word that starts before the source. -/
theorem readBinding_all_or_nothing_wrapped :
    let bytes := "ab".toList.map Char.toUInt8
    let s : Session := { cursor := { source := bytes, offset := -2 }, sink := .collecting ["kept"] }
    let e : Fault := .span (.invalid (-2) (-1))
    s.readBinding = (.error e, s.readBinding.2) ∧ s.readBinding.2 = s ∧ s.Refuses e ∧
      (Source.bytes bytes).buffer = .ok bytes ∧
        ∃ result, ((Source.bytes bytes).parse false (some 1)).1 = .ok result := by
  intro bytes s e
  obtain ⟨hkept, hrefuses, -, hparse⟩ := readBinding_all_or_nothing
  have hread : s.readBinding = (.error e, s.readBinding.2) := by decide
  obtain ⟨result, hresult, -⟩ := hparse (Source.bytes bytes) bytes (some 1) rfl
  exact ⟨hread, hkept s _ e hread, (hrefuses s e).mp (congrArg Prod.fst hread), rfl, result,
    hresult⟩

end LetLang
