import LetLang.Proofs.Production

/-!
# What a token depends on

A scan looks at nothing before its offset, so bytes put in front of a source only move its tokens
(`Ahead.shift`). It looks at no more than one byte behind the token that it finds, so bytes put
behind a source leave a token alone that ends before the end, or right there with a kind that
nothing extends (`scan_append_of_firm`).

Main statement: `rescan_of_edit`. After an edit, the tokens that end before it are the same, and so
are the tokens behind any place that lies within no token before and after the edit, up to the
difference in length.
-/

namespace LetLang

/-! ## Moving tokens -/

def Span.shift (n : Nat) (s : Span) : Span where
  start := n + s.start
  stop := n + s.stop
  start_le_stop := Nat.add_le_add_left s.start_le_stop n

/-- The token with `n` more bytes in front of it. -/
def Token.shift (n : Nat) (t : Token) : Token where
  kind := t.kind
  span := t.span.shift n

/-- Whether the token ends before the place. -/
def Token.endsBefore (n : Nat) (t : Token) : Bool := t.span.stop < n

/-- Whether the token starts at the place or behind it. -/
def Token.startsFrom (n : Nat) (t : Token) : Bool := n ≤ t.span.start

theorem Token.endsBefore_iff {n : Nat} {t : Token} : t.endsBefore n = true ↔ t.span.stop < n :=
  decide_eq_true_iff

theorem Token.startsFrom_iff {n : Nat} {t : Token} : t.startsFrom n = true ↔ n ≤ t.span.start :=
  decide_eq_true_iff

@[simp] theorem Token.kind_shift (n : Nat) (t : Token) : (t.shift n).kind = t.kind := rfl

theorem Token.shift_endOf (front bytes : Bytes) :
    (endOf bytes).shift front.length = endOf (front ++ bytes) := by
  simp only [shift, Span.shift, endOf, List.length_append]

theorem Piece.tokens_add (n k : Nat) (pieces : List Piece) :
    tokens (n + k) pieces = (tokens k pieces).map (Token.shift n) := by
  induction pieces generalizing k with
  | nil => rfl
  | cons p pieces ih =>
      have hp : p.token (n + k) = (p.token k).shift n := by
        simp only [token, Token.shift, Span.shift, Nat.add_assoc]
      rw [tokens, tokens, List.map_cons, hp, Nat.add_assoc, ih]

/-- Bytes in front of a source move what is ahead, and change nothing else. -/
theorem Ahead.shift {bytes : Bytes} {k : Nat} {ts : List Token} (front : Bytes)
    (h : Ahead bytes k ts) :
    Ahead (front ++ bytes) (front.length + k) (ts.map (Token.shift front.length)) := by
  have hk := h.le_length
  obtain ⟨l, hl, hsettled, rfl⟩ := (ahead_iff_layout hk).mp h
  have hdrop : (front ++ bytes).drop (front.length + k) = l.bytes := by
    rw [List.drop_length_add_append, hl]
  have hle : front.length + k ≤ (front ++ bytes).length := by
    rw [List.length_append]
    omega
  rw [← Piece.tokens_add]
  exact (ahead_tokens_iff hle hdrop).mpr hsettled

/-! ## Passing over blanks -/

theorem scan_of_gap {bytes gap rest : Bytes} {k : Nat} (hgap : IsGap gap)
    (h : bytes.drop k = gap ++ rest) : scan bytes (k + gap.length : Nat) = scan bytes k := by
  have hrest : bytes.drop (k + gap.length) = rest := by
    rw [← List.drop_drop, h, List.drop_left]
  simp only [scan, Tape.ofOffset_natCast, Tape.skipBlanks, h, hrest,
    List.takeWhile_append_of_pos hgap, List.dropWhile_append_of_pos hgap]
  rw [List.length_append, Int.natCast_add, Int.natCast_add, Int.add_assoc]

theorem ahead_of_gap_iff {bytes gap rest : Bytes} {k : Nat} {ts : List Token} (hgap : IsGap gap)
    (h : bytes.drop k = gap ++ rest) : Ahead bytes (k + gap.length) ts ↔ Ahead bytes k ts := by
  cases ts with
  | nil => rw [Ahead, Ahead, scan_of_gap hgap h]
  | cons t ts => rw [Ahead, Ahead, scan_of_gap hgap h]

namespace Ahead

variable {bytes : Bytes} {k i : Nat} {ts : List Token}

/-- Where nothing is ahead, nothing but blanks is left. -/
theorem isGap (h : Ahead bytes k []) : IsGap (bytes.drop k) := by
  obtain ⟨⟨pieces, tail, hgap⟩, hl, -, hnil⟩ := (ahead_iff_layout h.le_length).mp h
  have hlength := congrArg List.length hnil
  rw [Piece.length_tokens, List.length_nil] at hlength
  obtain rfl := List.length_eq_zero_iff.mp hlength.symm
  rw [hl]
  exact hgap

/-- The same tokens are ahead wherever one starts in the blanks before the first of them. -/
theorem skip (h : Ahead bytes k ts) (hk : k ≤ i)
    (hi : i ≤ (ts.headD (Token.endOf bytes)).span.start) : Ahead bytes i ts := by
  have hblank : ∃ gap rest, IsGap gap ∧ bytes.drop k = gap ++ rest ∧ i - k ≤ gap.length := by
    cases ts with
    | nil =>
        refine ⟨bytes.drop k, [], h.isGap, (List.append_nil _).symm, ?_⟩
        have hend : i ≤ bytes.length := hi
        rw [List.length_drop]
        omega
    | cons t ts =>
        obtain ⟨⟨pieces, tail, hgap⟩, hl, -, htokens⟩ := (ahead_iff_layout h.le_length).mp h
        cases pieces with
        | nil => contradiction
        | cons p pieces =>
            obtain ⟨rfl, -⟩ := List.cons_eq_cons.mp htokens
            refine ⟨p.gap, p.lexeme ++ Piece.join pieces ++ tail, p.isGap, ?_, ?_⟩
            · rw [hl, Layout.bytes, Piece.join_cons]
              simp only [List.append_assoc]
            · rw [List.headD_cons, Piece.start_token] at hi
              omega
  obtain ⟨gap, rest, hgap, hdrop, hle⟩ := hblank
  have hsplit : bytes.drop k = gap.take (i - k) ++ (gap.drop (i - k) ++ rest) := by
    rw [hdrop, ← List.append_assoc, List.take_append_drop]
  have htake : IsGap (gap.take (i - k)) := fun b hb => hgap b (List.mem_of_mem_take hb)
  have hoffset : k + (gap.take (i - k)).length = i := by
    rw [List.length_take]
    omega
  have hskip := (ahead_of_gap_iff htake hsplit).mpr h
  rwa [hoffset] at hskip

/-- From a place within no token, the tokens that start behind it are ahead. -/
theorem filter_startsFrom (h : Ahead bytes k ts) (hk : k ≤ i) (hi : i ≤ bytes.length)
    (hclear : ∀ t ∈ ts, ¬ (t.span.start < i ∧ i < t.span.stop)) :
    Ahead bytes i (ts.filter (Token.startsFrom i)) := by
  induction ts generalizing k with
  | nil => exact h.skip hk hi
  | cons t ts ih =>
      by_cases ht : i ≤ t.span.start
      · have hall : ∀ u ∈ t :: ts, u.startsFrom i = true := by
          intro u hu
          rw [Token.startsFrom_iff]
          rcases List.mem_cons.mp hu with rfl | hu
          · exact ht
          · have hlater := h.2.2.le_start hu
            have hordered := t.span.start_le_stop
            omega
        rw [List.filter_eq_self.mpr hall]
        exact h.skip hk ht
      · have hstop : t.span.stop ≤ i := by
          have hnot := hclear t List.mem_cons_self
          omega
        rw [List.filter_cons_of_neg (mt Token.startsFrom_iff.mp ht)]
        exact ih h.2.2 hstop fun u hu => hclear u (List.mem_cons_of_mem t hu)

end Ahead

/-! ## Bytes behind a token -/

/-- Nothing extends a lexeme of the kind. -/
def TokenKind.IsClosed (kind : TokenKind) : Prop := ∀ tail, kind.StopsBefore tail

/-- Whatever follows the bytes, the token stays as it is. -/
def Token.Firm (bytes : Bytes) (t : Token) : Prop :=
  t.span.stop < bytes.length ∨ t.span.stop ≤ bytes.length ∧ t.kind.IsClosed

theorem Token.Firm.stop_le {bytes : Bytes} {t : Token} (h : t.Firm bytes) :
    t.span.stop ≤ bytes.length := by
  rcases h with hlt | ⟨hle, -⟩
  · exact Nat.le_of_lt hlt
  · exact hle

/-- Of what follows a lexeme, only the first byte matters. -/
theorem TokenKind.StopsBefore.of_cons {kind : TokenKind} {b : UInt8} {rest : Bytes}
    (h : kind.StopsBefore (b :: rest)) (more : Bytes) : kind.StopsBefore (b :: more) where
  word := h.word
  operator := h.operator
  illegal hk := absurd (h.illegal hk) (List.cons_ne_nil b rest)

/-- A token that is scanned is the token of a piece which stops before what follows. -/
theorem scan_spec {bytes : Bytes} {k : Nat} {t : Token} (h : scan bytes k = .ok t)
    (ht : t.kind ≠ .endOfInput) :
    ∃ (p : Piece) (tail : Bytes), bytes.drop k = p.bytes ++ tail ∧ t = p.token k ∧
      p.kind.StopsBefore tail := by
  have hk : k ≤ bytes.length := by
    by_contra hlt
    rw [scan_of_length_le (by omega)] at h
    exact ht (Except.ok.inj h ▸ rfl)
  obtain ⟨⟨pieces, tail, hgap⟩, hl, hsettled⟩ := exists_layout (bytes.drop k)
  have hahead := (ahead_tokens_iff hk hl.symm).mpr hsettled
  cases pieces with
  | nil =>
      have hend : scan bytes k = .ok (Token.endOf bytes) := hahead
      rw [hend] at h
      exact absurd (Except.ok.inj h ▸ rfl) ht
  | cons p pieces =>
      refine ⟨p, Piece.join pieces ++ tail, ?_, Except.ok.inj (h.symm.trans hahead.1), hsettled.1⟩
      rw [← hl, Layout.bytes, Piece.join_cons, Piece.bytes]
      simp only [List.append_assoc]

/-- A firm token is found again, whatever follows instead. -/
theorem scan_append_of_firm {bytes more : Bytes} {k : Nat} {t : Token} (other : Bytes)
    (h : scan (bytes ++ more) k = .ok t) (ht : t.kind ≠ .endOfInput) (hfirm : t.Firm bytes) :
    scan (bytes ++ other) k = .ok t := by
  obtain ⟨p, tail, hdrop, rfl, hstop⟩ := scan_spec h ht
  have hle := hfirm.stop_le
  rw [Piece.stop_token] at hle
  have hk : k ≤ bytes.length := by omega
  rw [List.drop_append_of_le_length hk] at hdrop
  have hlength : p.bytes.length ≤ (bytes.drop k).length := by
    rw [List.length_drop]
    omega
  obtain ⟨left, hleft⟩ : p.bytes <+: bytes.drop k :=
    List.prefix_of_prefix_length_le ⟨tail, hdrop.symm⟩ (List.prefix_append _ more) hlength
  rw [← hleft, List.append_assoc] at hdrop
  obtain rfl := List.append_cancel_left hdrop
  have hother : (bytes ++ other).drop k = p.bytes ++ (left ++ other) := by
    rw [List.drop_append_of_le_length hk, ← hleft, List.append_assoc]
  rw [scan_eq_token_iff hother]
  rcases hfirm with hlt | ⟨-, hclosed⟩
  · cases left with
    | nil =>
        have hfull := congrArg List.length hleft
        rw [List.append_nil, List.length_drop] at hfull
        rw [Piece.stop_token] at hlt
        omega
    | cons b left => exact hstop.of_cons _
  · exact hclosed _

namespace Ahead

variable {bytes more other : Bytes} {k : Nat} {t : Token} {ts us : List Token}

/-- Firm tokens stay ahead, and behind them comes what the new bytes give. -/
theorem replace (h : Ahead (bytes ++ more) k (ts ++ us)) (hfirm : ∀ t ∈ ts, t.Firm bytes)
    {vs : List Token} (hvs : Ahead (bytes ++ other) (Token.lastStop k ts) vs) :
    Ahead (bytes ++ other) k (ts ++ vs) := by
  induction ts generalizing k with
  | nil => exact hvs
  | cons t ts ih =>
      have hscan := scan_append_of_firm other h.1 h.2.1 (hfirm t List.mem_cons_self)
      exact ⟨hscan, h.2.1, ih h.2.2 (fun u hu => hfirm u (List.mem_cons_of_mem t hu)) hvs⟩

/-- The first tokens, as long as they end before the end of the bytes, come first in both. -/
theorem takeWhile_isPrefix (h : Ahead (bytes ++ more) k ts) (h' : Ahead (bytes ++ other) k us) :
    ts.takeWhile (Token.endsBefore bytes.length) <+: us := by
  induction ts generalizing k us with
  | nil => exact List.nil_prefix
  | cons t ts ih =>
      by_cases ht : t.span.stop < bytes.length
      · have hscan := scan_append_of_firm other h.1 h.2.1 (Or.inl ht)
        rw [List.takeWhile_cons_of_pos (Token.endsBefore_iff.mpr ht)]
        cases us with
        | nil =>
            have hend := Except.ok.inj (hscan.symm.trans h')
            exact absurd (congrArg Token.kind hend) h.2.1
        | cons u us =>
            obtain rfl := Except.ok.inj (hscan.symm.trans h'.1)
            exact List.cons_prefix_cons.mpr ⟨rfl, ih h.2.2 h'.2.2⟩
      · rw [List.takeWhile_cons_of_neg (mt Token.endsBefore_iff.mp ht)]
        exact List.nil_prefix

/-- Tokens end in the order in which they come. -/
theorem filter_endsBefore (h : Ahead bytes k ts) (n : Nat) :
    ts.filter (Token.endsBefore n) = ts.takeWhile (Token.endsBefore n) := by
  induction ts generalizing k with
  | nil => rfl
  | cons t ts ih =>
      by_cases ht : t.span.stop < n
      · have hpos := Token.endsBefore_iff.mpr ht
        rw [List.filter_cons_of_pos hpos, List.takeWhile_cons_of_pos hpos, ih h.2.2]
      · have hall : ∀ u ∈ t :: ts, ¬ u.endsBefore n = true := by
          intro u hu
          rw [Token.endsBefore_iff]
          rcases List.mem_cons.mp hu with rfl | hu
          · exact ht
          · have hlater := h.2.2.le_start hu
            have hordered := u.span.start_le_stop
            omega
        rw [List.filter_eq_nil_iff.mpr hall,
          List.takeWhile_cons_of_neg (hall t List.mem_cons_self)]

theorem filter_endsBefore_isPrefix (h : Ahead (bytes ++ more) k ts)
    (h' : Ahead (bytes ++ other) k us) :
    ts.filter (Token.endsBefore bytes.length) <+: us.filter (Token.endsBefore bytes.length) := by
  have hprefix := (h.takeWhile_isPrefix h').filter (Token.endsBefore bytes.length)
  simpa only [← h.filter_endsBefore, List.filter_filter, Bool.and_self] using hprefix

theorem filter_endsBefore_eq (h : Ahead (bytes ++ more) k ts)
    (h' : Ahead (bytes ++ other) k us) :
    ts.filter (Token.endsBefore bytes.length) = us.filter (Token.endsBefore bytes.length) :=
  (h.filter_endsBefore_isPrefix h').eq_of_length_le (h'.filter_endsBefore_isPrefix h).length_le

end Ahead

/-! ## Edits -/

/-- The place is outside each token or at an edge of it, never within. -/
def ClearOf (ts : List Token) (i : Nat) : Prop :=
  ∀ t ∈ ts, t.kind ≠ .endOfInput → ¬ (t.span.start < i ∧ i < t.span.stop)

instance (ts : List Token) (i : Nat) : Decidable (ClearOf ts i) :=
  inferInstanceAs (Decidable (∀ t ∈ ts, _))

/-- The second token is the first one, `d` bytes further on. -/
structure Token.MovedBy (d : Int) (t u : Token) : Prop where
  kind : u.kind = t.kind
  start : (u.span.start : Int) = t.span.start + d
  stop : (u.span.stop : Int) = t.span.stop + d

theorem Token.movedBy_shift {d : Int} {m n : Nat} (h : d = n - m) (t : Token) :
    MovedBy d (t.shift m) (t.shift n) where
  kind := rfl
  start := by
    simp only [shift, Span.shift]
    omega
  stop := by
    simp only [shift, Span.shift]
    omega

/-- The tokens that end before the end of the front are the first ones, and those of the front. -/
theorem filter_endsBefore_tokens {front rest : Bytes} {ts : List Token}
    (h : Ahead (front ++ rest) 0 ts) :
    let tokens := ts ++ [Token.endOf (front ++ rest)]
    tokens.filter (Token.endsBefore front.length) = ts.filter (Token.endsBefore front.length) ∧
      tokens.filter (Token.endsBefore front.length) <+: tokens := by
  intro tokens
  have hend : (Token.endOf (front ++ rest)).endsBefore front.length = false := by
    simp [Token.endOf, Token.endsBefore]
  have htokens : tokens.filter (Token.endsBefore front.length) =
      ts.filter (Token.endsBefore front.length) := by
    rw [List.filter_append, List.filter_singleton, hend]
    exact List.append_nil _
  refine ⟨htokens, ?_⟩
  rw [htokens, h.filter_endsBefore]
  exact (List.takeWhile_prefix _).trans (List.prefix_append _ _)

/-- Behind a clear place come the tokens of what is left there, moved to the place. -/
theorem filter_startsFrom_tokens {front rest : Bytes} {ts us : List Token}
    (h : Ahead (front ++ rest) 0 ts) (hus : Ahead rest 0 us)
    (hclear : ClearOf (ts ++ [Token.endOf (front ++ rest)]) front.length) :
    (ts ++ [Token.endOf (front ++ rest)]).filter (Token.startsFrom front.length) =
      (us ++ [Token.endOf rest]).map (Token.shift front.length) := by
  have hle : front.length ≤ (front ++ rest).length := by simp
  have hfront := h.filter_startsFrom (Nat.zero_le _) hle fun t ht =>
    hclear t (List.mem_append_left _ ht) (h.kind_ne ht)
  have hts : ts.filter (Token.startsFrom front.length) = us.map (Token.shift front.length) :=
    hfront.unique (hus.shift front)
  have hend : (Token.endOf (front ++ rest)).startsFrom front.length = true :=
    Token.startsFrom_iff.mpr hle
  rw [List.filter_append, hts, List.filter_singleton, hend, List.map_append, List.map_singleton,
    Token.shift_endOf]
  rfl

/--
Of two sources that differ in the middle, the tokens which end before the difference are the same.
Behind it, take two places that leave the same bytes and are within no token: from there on the
tokens are the same but for their offsets, which differ as the lengths do.
-/
theorem rescan_of_edit (p x y q : Bytes) :
    ∃ ts us, (Source.bytes (p ++ x ++ q)).tokenize = .ok ts ∧
      (Source.bytes (p ++ y ++ q)).tokenize = .ok us ∧
      (∃ shared, shared <+: ts ∧ shared <+: us ∧
        ts.filter (Token.endsBefore p.length) = shared ∧
        us.filter (Token.endsBefore p.length) = shared) ∧
      ∀ j ≤ q.length,
        ClearOf ts ((p ++ x).length + j) → ClearOf us ((p ++ y).length + j) →
          List.Forall₂ (Token.MovedBy ((y.length : Int) - x.length))
            (ts.filter (Token.startsFrom ((p ++ x).length + j)))
            (us.filter (Token.startsFrom ((p ++ y).length + j))) := by
  obtain ⟨ts, hts⟩ := exists_ahead (Nat.zero_le (p ++ x ++ q).length)
  obtain ⟨us, hus⟩ := exists_ahead (Nat.zero_le (p ++ y ++ q).length)
  refine ⟨_, _, (Source.tokenize_eq_iff rfl).mpr hts, (Source.tokenize_eq_iff rfl).mpr hus, ?_, ?_⟩
  · simp only [List.append_assoc] at hts hus ⊢
    obtain ⟨htokens, hprefix⟩ := filter_endsBefore_tokens hts
    obtain ⟨htokens', hprefix'⟩ := filter_endsBefore_tokens hus
    have hsame := htokens.trans ((hts.filter_endsBefore_eq hus).trans htokens'.symm)
    exact ⟨_, hprefix, hsame ▸ hprefix', rfl, hsame.symm⟩
  · intro j hj hclear hclear'
    obtain ⟨vs, hvs⟩ := exists_ahead (Nat.zero_le (q.drop j).length)
    have hsplit : ∀ z : Bytes, p ++ z ++ q = p ++ z ++ q.take j ++ q.drop j := fun z => by
      rw [List.append_assoc _ (q.take j), List.take_append_drop]
    have hlength : ∀ z : Bytes, (p ++ z).length + j = (p ++ z ++ q.take j).length := fun z => by
      rw [@List.length_append _ (p ++ z), List.length_take_of_le hj]
    rw [hsplit] at hts hus
    rw [hsplit, hlength] at hclear hclear'
    rw [hsplit x, hsplit y, hlength, hlength, filter_startsFrom_tokens hts hvs hclear,
      filter_startsFrom_tokens hus hvs hclear', List.forall₂_map_left_iff,
      List.forall₂_map_right_iff, List.forall₂_same]
    have hmoved : (y.length : Int) - x.length =
        (p ++ y ++ q.take j).length - (p ++ x ++ q.take j).length := by
      simp only [List.length_append, Int.natCast_add]
      omega
    exact fun t _ => Token.movedBy_shift hmoved t

/-- A word grows by a byte, and the place is the end of the word. -/
theorem rescan_of_edit_word :
    let p := "let a".toList.map Char.toUInt8
    let y := "b".toList.map Char.toUInt8
    let q := ";".toList.map Char.toUInt8
    ∃ ts us, (Source.bytes (p ++ [] ++ q)).tokenize = .ok ts ∧
      (Source.bytes (p ++ y ++ q)).tokenize = .ok us ∧
      ClearOf ts ((p ++ []).length + 0) ∧ ClearOf us ((p ++ y).length + 0) ∧
      List.Forall₂ (Token.MovedBy ((y.length : Int) - ([] : Bytes).length))
        (ts.filter (Token.startsFrom ((p ++ []).length + 0)))
        (us.filter (Token.startsFrom ((p ++ y).length + 0))) := by
  intro p y q
  obtain ⟨ts, us, hts, hus, -, hbehind⟩ := rescan_of_edit p [] y q
  have hbefore : (Source.bytes (p ++ [] ++ q)).tokenize = .ok
      [{ kind := .keyword .letKw, span := { start := 0, stop := 3 } },
        { kind := .identifier, span := { start := 4, stop := 5 } },
        { kind := .symbol .semicolon, span := { start := 5, stop := 6 } },
        { kind := .endOfInput, span := { start := 6, stop := 6 } }] := by decide
  have hafter : (Source.bytes (p ++ y ++ q)).tokenize = .ok
      [{ kind := .keyword .letKw, span := { start := 0, stop := 3 } },
        { kind := .identifier, span := { start := 4, stop := 6 } },
        { kind := .symbol .semicolon, span := { start := 6, stop := 7 } },
        { kind := .endOfInput, span := { start := 7, stop := 7 } }] := by decide
  have hclear : ClearOf ts ((p ++ []).length + 0) := by
    rw [Except.ok.inj (hts.symm.trans hbefore)]
    decide
  have hclear' : ClearOf us ((p ++ y).length + 0) := by
    rw [Except.ok.inj (hus.symm.trans hafter)]
    decide
  exact ⟨ts, us, hts, hus, hclear, hclear', hbehind 0 (Nat.zero_le _) hclear hclear'⟩

end LetLang
