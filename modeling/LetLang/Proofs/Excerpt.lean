import LetLang.Proofs.Boundary

/-!
# The text of a span that cuts characters

A span is a range of bytes, and in a text it may start, end or lie inside of a character. What is
left of a character that begins before the span are continuation bytes, and each of them is
replaced. What is left of a character that ends behind the span is replaced as a whole.
`Span.excerpt` says so on the characters and their offsets, without a word about decoding
(`Utf8.decode_partFrom`).

Main statement: `text_of_spans`.
-/

namespace LetLang

namespace Utf8

/-! ## Decoding parts of characters -/

/-- A character opens with a byte that continues nothing, and all its other bytes continue it. -/
theorem exists_encodeChar (c : Char) :
    ∃ b more, String.utf8EncodeChar c = b :: more ∧ isContinuation b = false ∧
      ∀ d ∈ more, isContinuation d = true := by
  obtain ⟨b, more, hc⟩ := List.exists_cons_of_ne_nil (@String.utf8EncodeChar_ne_nil c)
  refine ⟨b, more, hc, ?_, ?_⟩
  · have hfirst := @UInt8.isUTF8FirstByte_getElem_zero_utf8EncodeChar c
    simp only [hc, List.getElem_cons_zero] at hfirst
    simpa [isContinuation] using hfirst
  · intro d hd
    obtain ⟨i, hi, rfl⟩ := List.getElem_of_mem hd
    have hlt : i + 1 < (String.utf8EncodeChar c).length := by
      rw [hc, List.length_cons]
      omega
    have hfirst := @UInt8.isUTF8FirstByte_getElem_utf8EncodeChar c (i + 1) hlt
    simp only [hc, List.getElem_cons_succ] at hfirst
    simpa [isContinuation] using hfirst

/-- A character that bytes are found to spell is there in full. -/
theorem isPrefix_of_first? {bytes : Bytes} {c : Char} (h : first? bytes = some c) :
    String.utf8EncodeChar c <+: bytes := by
  have hfirst := ByteArray.eq_of_utf8DecodeChar?_eq_some h
  have hlist := congrArg (fun array => array.data.toList) hfirst
  simp only [ByteArray.data_append, List.data_toByteArray, Array.toList_append] at hlist
  exact (hlist ▸ List.prefix_append _ _).trans (List.take_prefix 4 bytes)

theorem first?_of_isContinuation {b : UInt8} (hb : isContinuation b = true) (rest : Bytes) :
    first? (b :: rest) = none := by
  cases h : first? (b :: rest) with
  | none => rfl
  | some c =>
      obtain ⟨lead, more, hc, hlead, -⟩ := exists_encodeChar c
      have hbegin := isPrefix_of_first? h
      rw [hc, List.cons_prefix_cons] at hbegin
      rw [hbegin.1, hb] at hlead
      contradiction

/-- Continuation bytes that continue nothing are replaced one by one. -/
theorem decode_append_of_isContinuation {front : Bytes}
    (h : ∀ b ∈ front, isContinuation b = true) (rest : Bytes) :
    decode (front ++ rest) = List.replicate front.length replacement ++ decode rest := by
  induction front with
  | nil => rfl
  | cons b front ih =>
      have hb := h b List.mem_cons_self
      have hrest := ih fun d hd => h d (List.mem_cons_of_mem b hd)
      rw [List.cons_append, decode, first?_of_isContinuation hb]
      simp only [hb, if_true, hrest]
      rfl

/-- The first bytes of a character, but not all of them, are replaced together. -/
theorem decode_take_encodeChar {c : Char} {m : Nat} (hpos : 0 < m) (hlt : m < c.utf8Size) :
    decode ((String.utf8EncodeChar c).take m) = [replacement] := by
  have hlength := String.length_utf8EncodeChar c
  have hnone : first? ((String.utf8EncodeChar c).take m) = none := by
    cases h : first? ((String.utf8EncodeChar c).take m) with
    | none => rfl
    | some d =>
        -- It would be the character itself, which has more bytes.
        obtain ⟨tail, htail⟩ := isPrefix_of_first? h
        have hsame : c = d := by
          apply @char_unique c d [] (tail ++ (String.utf8EncodeChar c).drop m)
          rw [← List.append_assoc, htail, List.take_append_drop, List.append_nil]
        have hcount := congrArg List.length htail
        rw [← hsame, List.length_append, List.length_take, hlength] at hcount
        omega
  obtain ⟨b, more, hc, hb, hmore⟩ := exists_encodeChar c
  obtain ⟨n, rfl⟩ := Nat.exists_eq_succ_of_ne_zero (Nat.ne_of_gt hpos)
  have hall : (more.take n).dropWhile isContinuation = [] :=
    List.dropWhile_eq_nil_iff.mpr fun d hd => hmore d (List.mem_of_mem_take hd)
  rw [hc, List.take_succ_cons] at hnone ⊢
  rw [decode, hnone]
  simp only [hb, Bool.false_eq_true, if_false, hall, decode]

/-- Bytes behind a whole character are decoded by themselves, wherever the bytes in front start. -/
theorem decode_drop_encode_append (cs : List Char) (n : Nat) (rest : Bytes) :
    decode ((encode cs).drop n ++ rest) = decode ((encode cs).drop n) ++ decode rest := by
  induction cs generalizing n with
  | nil => simp [decode]
  | cons c cs ih =>
      obtain ⟨b, more, hc, -, hmore⟩ := exists_encodeChar c
      rw [encode_cons, List.drop_append]
      cases n with
      | zero =>
          have hrest := ih 0
          rw [List.drop_zero] at hrest
          simp only [List.drop_zero, Nat.zero_sub, List.append_assoc, decode_encodeChar_append,
            hrest, List.cons_append]
      | succ n =>
          have hstray : ∀ d ∈ (String.utf8EncodeChar c).drop (n + 1), isContinuation d = true := by
            rw [hc, List.drop_succ_cons]
            exact fun d hd => hmore d (List.mem_of_mem_drop hd)
          rw [List.append_assoc, decode_append_of_isContinuation hstray,
            decode_append_of_isContinuation hstray, ih, List.append_assoc]

end Utf8

/-! ## Characters and their offsets -/

/-- A character of a text, and the offset of its first byte. -/
structure PlacedChar where
  char : Char
  start : Nat
deriving DecidableEq, Repr

/-- The offset behind the last byte of the character. -/
def PlacedChar.stop (p : PlacedChar) : Nat := p.start + p.char.utf8Size

theorem PlacedChar.start_lt_stop (p : PlacedChar) : p.start < p.stop :=
  Nat.lt_add_of_pos_right p.char.utf8Size_pos

/-- The characters with their offsets, the first of which is given. -/
def Utf8.places : Nat → List Char → List PlacedChar
  | _, [] => []
  | k, c :: cs => { char := c, start := k } :: places (k + c.utf8Size) cs

theorem Utf8.le_start_of_mem_places {k : Nat} {cs : List Char} {p : PlacedChar}
    (h : p ∈ places k cs) : k ≤ p.start := by
  induction cs generalizing k with
  | nil => simp [places] at h
  | cons c cs ih =>
      rcases List.mem_cons.mp h with rfl | h
      · exact Nat.le_refl k
      · have hle := ih h
        omega

namespace Span

/-- How many bytes of the span belong to a character that begins before it. -/
def strayCount (s : Span) (ps : List PlacedChar) : Nat :=
  (List.range' s.start s.width).countP fun i =>
    ps.any fun p => p.start < s.start ∧ p.start ≤ i ∧ i < p.stop

/-- The characters that lie wholly inside of the span. -/
def wholeChars (s : Span) (ps : List PlacedChar) : List Char :=
  (ps.filter fun p => s.start ≤ p.start ∧ p.stop ≤ s.stop).map PlacedChar.char

/-- Whether a character begins in the span and ends behind it. -/
def cutsShort (s : Span) (ps : List PlacedChar) : Bool :=
  ps.any fun p => s.start ≤ p.start ∧ p.start < s.stop ∧ s.stop < p.stop

/-- What is seen of the characters through the span. -/
def excerpt (s : Span) (ps : List PlacedChar) : List Char :=
  List.replicate (s.strayCount ps) Utf8.replacement ++ s.wholeChars ps ++
    if s.cutsShort ps then [Utf8.replacement] else []

/-! ## One character more -/

variable {s : Span} {p : PlacedChar} {ps : List PlacedChar} {k : Nat}

theorem countP_lt_range' (stop start width : Nat) :
    (List.range' start width).countP (· < stop) = min (start + width) stop - start := by
  induction width generalizing start with
  | zero => simp
  | succ width ih =>
      rw [List.range'_succ, List.countP_cons, ih]
      by_cases h : start < stop
      · simp only [h, decide_true, if_true]
        omega
      · simp only [h, decide_false, Bool.false_eq_true, if_false]
        omega

/-- Characters that begin in the span or behind it leave no stray bytes. -/
theorem strayCount_eq_zero (hps : ∀ q ∈ ps, s.start ≤ q.start) : s.strayCount ps = 0 := by
  rw [strayCount, List.countP_eq_zero]
  intro i _ hi
  obtain ⟨q, hq, hbefore⟩ := List.any_eq_true.mp hi
  have hle := hps q hq
  simp only [decide_eq_true_eq] at hbefore
  omega

/-- Characters behind the span are not in it. -/
theorem wholeChars_of_behind (hps : ∀ q ∈ ps, s.stop ≤ q.start) : s.wholeChars ps = [] := by
  rw [wholeChars, List.map_eq_nil_iff, List.filter_eq_nil_iff]
  intro q hq
  have hlt := q.start_lt_stop
  have hbehind := hps q hq
  simp only [decide_eq_true_eq]
  omega

theorem cutsShort_of_behind (hps : ∀ q ∈ ps, s.stop ≤ q.start) : s.cutsShort ps = false := by
  rw [cutsShort, List.any_eq_false]
  intro q hq
  have hbehind := hps q hq
  simp only [decide_eq_true_eq]
  omega

theorem excerpt_of_behind (hps : ∀ q ∈ ps, s.stop ≤ q.start) : s.excerpt ps = [] := by
  have hstray : s.strayCount ps = 0 :=
    strayCount_eq_zero fun q hq => Nat.le_trans s.start_le_stop (hps q hq)
  rw [excerpt, hstray, wholeChars_of_behind hps, cutsShort_of_behind hps]
  rfl

/-- A character in front of the span is not seen. -/
theorem excerpt_cons_of_stop_le (h : p.stop ≤ s.start) : s.excerpt (p :: ps) = s.excerpt ps := by
  have hlt := p.start_lt_stop
  have hstray : s.strayCount (p :: ps) = s.strayCount ps := by
    apply List.countP_congr
    intro i hi
    have hle := (List.mem_range'_1.mp hi).1
    have hnot : ¬ i < p.stop := by omega
    simp only [List.any_cons, hnot, and_false, decide_false, Bool.false_or]
  have hnot : ¬ s.start ≤ p.start := by omega
  simp [excerpt, hstray, wholeChars, cutsShort, hnot]

/-- Of a character that begins before the span, every byte in the span is replaced. -/
theorem excerpt_cons_of_start_lt (h : p.start < s.start)
    (hps : ∀ q ∈ ps, s.start ≤ q.start) :
    s.excerpt (p :: ps) =
      List.replicate (min s.stop p.stop - s.start) Utf8.replacement ++ s.excerpt ps := by
  have hnot : ¬ s.start ≤ p.start := by omega
  have hstray : s.strayCount (p :: ps) = min s.stop p.stop - s.start := by
    have hcount : s.strayCount (p :: ps) =
        (List.range' s.start s.width).countP (· < p.stop) := by
      apply List.countP_congr
      intro i hi
      have hle := (List.mem_range'_1.mp hi).1
      have hrest : ∀ q ∈ ps, ¬ q.start < s.start := fun q hq => Nat.not_lt.mpr (hps q hq)
      have hi : p.start ≤ i := by omega
      simp +contextual [h, hi, hrest]
    rw [hcount, countP_lt_range', width, Nat.add_sub_cancel' s.start_le_stop]
  simp [excerpt, hstray, strayCount_eq_zero hps, wholeChars, cutsShort, hnot]

/-- A character inside of the span is seen as it is. -/
theorem excerpt_cons_of_stop_le_stop (h : s.start ≤ p.start) (hstop : p.stop ≤ s.stop)
    (hps : ∀ q ∈ ps, s.start ≤ q.start) : s.excerpt (p :: ps) = p.char :: s.excerpt ps := by
  have hall : ∀ q ∈ p :: ps, s.start ≤ q.start := List.forall_mem_cons.mpr ⟨h, hps⟩
  have hnot : ¬ s.stop < p.stop := by omega
  simp [excerpt, strayCount_eq_zero hall, strayCount_eq_zero hps, wholeChars, cutsShort, h, hstop,
    hnot]

/-- A character that begins in the span and ends behind it is replaced. -/
theorem excerpt_cons_of_stop_lt (h : s.start ≤ p.start) (hlt : p.start < s.stop)
    (hstop : s.stop < p.stop) (hps : ∀ q ∈ ps, s.stop ≤ q.start) :
    s.excerpt (p :: ps) = [Utf8.replacement] := by
  have hall : ∀ q ∈ p :: ps, s.start ≤ q.start :=
    List.forall_mem_cons.mpr ⟨h, fun q hq => Nat.le_trans s.start_le_stop (hps q hq)⟩
  have hwhole : s.wholeChars (p :: ps) = s.wholeChars ps := by
    have hnot : ¬ p.stop ≤ s.stop := by omega
    simp [wholeChars, hnot]
  have hshort : s.cutsShort (p :: ps) = true := by
    simp [cutsShort, h, hlt, hstop]
  rw [excerpt, strayCount_eq_zero hall, hwhole, wholeChars_of_behind hps, hshort]
  rfl

/-! ## Decoding a part -/

/-- The bytes in the span, of bytes that start at the given offset. -/
def partFrom (s : Span) (k : Nat) (bytes : Bytes) : Bytes :=
  (bytes.take (s.stop - k)).drop (s.start - k)

theorem partFrom_append (s : Span) (k : Nat) (front rest : Bytes) :
    s.partFrom k (front ++ rest) = s.partFrom k front ++ s.partFrom (k + front.length) rest := by
  rw [partFrom, List.take_append, List.drop_append, List.length_take, partFrom, partFrom,
    Nat.sub_add_eq, Nat.sub_add_eq]
  by_cases h : front.length ≤ s.stop - k
  · rw [Nat.min_eq_right h]
  · have hzero : s.stop - k - front.length = 0 := by omega
    rw [hzero, List.take_zero, List.drop_nil, List.drop_nil]

theorem partFrom_of_stop_le (h : s.stop ≤ k) (bytes : Bytes) : s.partFrom k bytes = [] := by
  rw [partFrom, Nat.sub_eq_zero_of_le h, List.take_zero, List.drop_nil]

theorem partFrom_of_length_le {bytes : Bytes} (h : k + bytes.length ≤ s.start) :
    s.partFrom k bytes = [] := by
  apply List.drop_eq_nil_of_le
  rw [List.length_take]
  omega

theorem partFrom_of_le_start {bytes : Bytes} (h : s.start ≤ k) :
    s.partFrom k bytes = bytes.take (s.stop - k) := by
  rw [partFrom, Nat.sub_eq_zero_of_le h, List.drop_zero]

theorem length_partFrom (s : Span) (k : Nat) (bytes : Bytes) :
    (s.partFrom k bytes).length = min s.stop (k + bytes.length) - max s.start k := by
  rw [partFrom, List.length_drop, List.length_take]
  omega

/-- What is left of a character that begins before the span continues it. -/
theorem isContinuation_of_mem_partFrom {c : Char} (h : k < s.start) {b : UInt8}
    (hb : b ∈ s.partFrom k (String.utf8EncodeChar c)) : Utf8.isContinuation b = true := by
  obtain ⟨lead, more, hc, -, hmore⟩ := Utf8.exists_encodeChar c
  have hle := s.start_le_stop
  obtain ⟨skipped, hskipped⟩ := Nat.exists_eq_succ_of_ne_zero (show s.start - k ≠ 0 by omega)
  obtain ⟨taken, htaken⟩ := Nat.exists_eq_succ_of_ne_zero (show s.stop - k ≠ 0 by omega)
  rw [partFrom, hc, hskipped, htaken, List.take_succ_cons, List.drop_succ_cons] at hb
  exact hmore b (List.mem_of_mem_take (List.mem_of_mem_drop hb))

end Span

/-- Decoding the bytes of a span gives what is seen of the characters through it. -/
theorem Utf8.decode_partFrom (s : Span) (k : Nat) (cs : List Char) :
    decode (s.partFrom k (encode cs)) = s.excerpt (places k cs) := by
  induction cs generalizing k with
  | nil =>
      rw [places, Span.excerpt_of_behind (by simp)]
      simp [Span.partFrom, decode]
  | cons c cs ih =>
      let p : PlacedChar := { char := c, start := k }
      have hlength := String.length_utf8EncodeChar c
      have hstop : p.stop = k + c.utf8Size := rfl
      have hlater : ∀ q ∈ places p.stop cs, p.stop ≤ q.start :=
        fun q hq => le_start_of_mem_places hq
      have hpieces : s.partFrom k (encode (c :: cs)) =
          s.partFrom k (String.utf8EncodeChar c) ++ s.partFrom p.stop (encode cs) := by
        rw [encode_cons, Span.partFrom_append, hlength, hstop]
      rw [hpieces]
      change _ = s.excerpt (p :: places p.stop cs)
      -- The character is in front of the span, over its start, in it, over its end, or behind it.
      by_cases hfront : p.stop ≤ s.start
      · have hnone : s.partFrom k (String.utf8EncodeChar c) = [] :=
          Span.partFrom_of_length_le (hlength.symm ▸ hfront)
        rw [hnone, List.nil_append, ih, Span.excerpt_cons_of_stop_le hfront]
      have hinside : ∀ q ∈ places p.stop cs, s.start ≤ q.start := by
        intro q hq
        have hle := hlater q hq
        omega
      by_cases hstray : k < s.start
      · have hcount : (s.partFrom k (String.utf8EncodeChar c)).length =
            min s.stop p.stop - s.start := by
          rw [Span.length_partFrom, hlength, Nat.max_eq_left (Nat.le_of_lt hstray), hstop]
        have hcontinued : ∀ b ∈ s.partFrom k (String.utf8EncodeChar c), isContinuation b = true :=
          fun b hb => Span.isContinuation_of_mem_partFrom hstray hb
        rw [decode_append_of_isContinuation hcontinued, hcount, ih,
          Span.excerpt_cons_of_start_lt hstray hinside]
      have hstart : s.start ≤ k := Nat.not_lt.mp hstray
      rw [Span.partFrom_of_le_start hstart]
      by_cases hwhole : p.stop ≤ s.stop
      · rw [List.take_of_length_le (by omega), decode_encodeChar_append, ih,
          Span.excerpt_cons_of_stop_le_stop hstart hwhole hinside]
      have hbehind : ∀ q ∈ places p.stop cs, s.stop ≤ q.start := by
        intro q hq
        have hle := hlater q hq
        omega
      rw [Span.partFrom_of_stop_le (by omega), List.append_nil]
      by_cases hshort : k < s.stop
      · rw [decode_take_encodeChar (by omega) (by omega),
          Span.excerpt_cons_of_stop_lt hstart hshort (Nat.not_le.mp hwhole) hbehind]
      · have hzero : s.stop - k = 0 := by omega
        rw [hzero, List.take_zero, decode, Span.excerpt_of_behind]
        exact List.forall_mem_cons.mpr ⟨Nat.not_lt.mp hshort, hbehind⟩

/-! ## Texts of spans -/

namespace Span

theorem lexemeIn_of_lt {source : Source} {bytes : Bytes} {s : Span} (h : source.buffer = .ok bytes)
    (hs : bytes.length < s.stop) :
    s.lexemeIn source = .error (.span (.beyond s.start s.stop bytes.length)) := by
  rw [lexemeIn, h]
  simp only [slice, check, if_neg (Nat.not_le.mpr hs)]

theorem lexemeIn_bytes {bytes : Bytes} {s : Span} (hs : s.stop ≤ bytes.length) :
    s.lexemeIn (.bytes bytes) = .ok (.bytes ((bytes.drop s.start).take (s.stop - s.start))) := by
  rw [lexemeIn, Source.buffer_bytes]
  simp only [slice_of_le hs, width, Source.lexeme]

theorem lexemeIn_ofString {u : String} {s : Span} (hs : s.stop ≤ (Utf8.encode u.toList).length) :
    s.lexemeIn (.ofString u) =
      .ok (.text (String.ofList (Utf8.decode (s.partFrom 0 (Utf8.encode u.toList))))) := by
  have hpart : s.partFrom 0 (Utf8.encode u.toList) =
      ((Utf8.encode u.toList).drop s.start).take s.width := by
    rw [partFrom, Nat.sub_zero, Nat.sub_zero, List.drop_take, width]
  rw [lexemeIn, Source.buffer_ofString, hpart]
  simp only [slice_of_le hs, Source.ofString, Source.lexeme]

end Span

/-- What the spans of a text show, where these are its bytes. -/
structure ShownBySpans (u : String) (bytes : Bytes) : Prop where
  excerpt : ∀ s : Span, s.stop ≤ bytes.length →
    s.lexemeIn (.ofString u) = .ok (.text (String.ofList (s.excerpt (Utf8.places 0 u.toList))))
  all : Span.lexemeIn { start := 0, stop := bytes.length } (.ofString u) = .ok (.text u)
  /-- Cut where a character starts, a text loses nothing. -/
  joined : ∀ (a m b : Nat) (_ : a ≤ m) (_ : m ≤ b), b ≤ bytes.length →
    Utf8.IsBoundary u.toList m →
    ∃ x y, Span.lexemeIn { start := a, stop := m } (.ofString u) = .ok (.text x) ∧
      Span.lexemeIn { start := m, stop := b } (.ofString u) = .ok (.text y) ∧
      Span.lexemeIn { start := a, stop := b } (.ofString u) = .ok (.text (x ++ y))
  refused : ∀ s : Span, bytes.length < s.stop →
    s.lexemeIn (.ofString u) = .error (.span (.beyond s.start s.stop bytes.length))

theorem shownBySpans (u : String) : ShownBySpans u (Utf8.encode u.toList) := by
  constructor
  case excerpt =>
    intro s hs
    rw [Span.lexemeIn_ofString hs, Utf8.decode_partFrom]
  case all =>
    rw [Span.lexemeIn_ofString (Nat.le_refl _), Span.partFrom_of_le_start (Nat.le_refl _),
      Nat.sub_zero, List.take_length, Utf8.decode_encode, String.ofList_toList]
  case joined =>
    intro a m b ham hmb hb hboundary
    obtain ⟨before, after, hsplit, rfl⟩ := hboundary
    set front := Utf8.encode before
    set rest := Utf8.encode after
    have hbytes : Utf8.encode u.toList = front ++ rest := by rw [hsplit, Utf8.encode_append]
    have hleft : Span.partFrom { start := a, stop := front.length } 0 (front ++ rest) =
        front.drop a := by
      rw [Span.partFrom, Nat.sub_zero, Nat.sub_zero, List.take_left]
    have hright : Span.partFrom { start := front.length, stop := b } 0 (front ++ rest) =
        rest.take (b - front.length) := by
      rw [Span.partFrom, Nat.sub_zero, Nat.sub_zero, List.drop_take, List.drop_left]
    have hboth : Span.partFrom { start := a, stop := b } 0 (front ++ rest) =
        front.drop a ++ rest.take (b - front.length) := by
      rw [Span.partFrom, Nat.sub_zero, Nat.sub_zero, List.take_append,
        List.take_of_length_le hmb, List.drop_append_of_le_length ham]
    refine ⟨String.ofList (Utf8.decode (front.drop a)),
      String.ofList (Utf8.decode (rest.take (b - front.length))), ?_, ?_, ?_⟩
    · rw [Span.lexemeIn_ofString (Nat.le_trans hmb hb), hbytes, hleft]
    · rw [Span.lexemeIn_ofString hb, hbytes, hright]
    · rw [Span.lexemeIn_ofString hb, hbytes, hboth, Utf8.decode_drop_encode_append,
        String.ofList_append]
  case refused =>
    intro s hs
    exact Span.lexemeIn_of_lt (Source.buffer_ofString u) hs

/--
A text that has bytes is a string. A span of these bytes shows a replacement for each byte that is
left of a character in front of it, then the characters inside of it, then a replacement for a
character that it cuts short. So all bytes show the string, and spans that meet where a character
starts show together what they show as one. Of a source of bytes a span shows its bytes. Nothing is
shown by a span that goes beyond the end.
-/
theorem text_of_spans :
    (∀ (t : Text) (bytes : Bytes), t.encode = .ok bytes →
        ∃ u, t = Text.ofString u ∧ bytes = Utf8.encode u.toList ∧ ShownBySpans u bytes) ∧
      ∀ (bytes : Bytes) (s : Span),
        (s.stop ≤ bytes.length → s.lexemeIn (.bytes bytes) =
            .ok (.bytes ((bytes.drop s.start).take (s.stop - s.start)))) ∧
          (bytes.length < s.stop → s.lexemeIn (.bytes bytes) =
            .error (.span (.beyond s.start s.stop bytes.length))) := by
  refine ⟨fun t bytes h => ?_, fun bytes s => ⟨fun hs => ?_, fun hs => ?_⟩⟩
  · obtain ⟨cs, rfl, rfl⟩ := Text.exists_chars_of_encode h
    have hshown := shownBySpans (String.ofList cs)
    rw [String.toList_ofList] at hshown
    exact ⟨String.ofList cs, by rw [Text.ofString, String.toList_ofList],
      by rw [String.toList_ofList], hshown⟩
  · exact Span.lexemeIn_bytes hs
  · exact Span.lexemeIn_of_lt (Source.buffer_bytes bytes) hs

/-- From inside of one character to inside of the next one, in the text and in its bytes. -/
theorem text_of_spans_cut :
    let t := Text.ofString "aé😀b"
    let bytes := Utf8.encode ['a', 'é', '😀', 'b']
    let s : Span := { start := 2, stop := 5 }
    t.encode = .ok bytes ∧ s.stop ≤ bytes.length ∧
      s.lexemeIn (.text t) = .ok (.text "\uFFFD\uFFFD") ∧
      s.lexemeIn (.bytes bytes) = .ok (.bytes [0xA9, 0xF0, 0x9F]) := by
  intro t bytes s
  have hencode : t.encode = .ok bytes := Text.encode_ofString "aé😀b"
  have hs : s.stop ≤ bytes.length := by decide
  obtain ⟨htexts, hbytes⟩ := text_of_spans
  obtain ⟨u, ht, -, hshown⟩ := htexts t bytes hencode
  have hscalar : Function.Injective CodePoint.scalar := fun _ _ => CodePoint.scalar.inj
  have hu : u.toList = ['a', 'é', '😀', 'b'] := (List.map_injective_iff.mpr hscalar ht).symm
  have hexcerpt : s.excerpt (Utf8.places 0 u.toList) = [Utf8.replacement, Utf8.replacement] := by
    rw [hu]
    decide
  refine ⟨hencode, hs, ?_, (hbytes bytes s).1 hs⟩
  rw [ht, ← Source.ofString, hshown.excerpt s hs, hexcerpt]
  rfl

end LetLang
