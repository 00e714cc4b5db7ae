import Mathlib.Order.Bounds.Basic
import LetLang.Proofs.Stream

/-!
# Scanning by least indices

`ScansTo` says which token is the first one from an offset on, without a word about how it is found:
blanks end at the least index that holds none, a string at the least quote that no backslash
escapes, a word at the least delimiter. The end of the bytes is an index that holds nothing.

Main statement: `scan_by_least_indices`. From every offset in a source a scan finds the one token
that is so described.
-/

namespace LetLang

/-! ## What an index holds -/

/-- The characters that are tokens by themselves. -/
def marks : List (Char × Symbol) :=
  [('(', .lparen), (')', .rparen), ('{', .lbrace), ('}', .rbrace), ('[', .lbracket),
    (']', .rbracket), (';', .semicolon), (',', .comma), ('.', .dot), (':', .colon),
    ('+', .plus), ('-', .minus), ('*', .star), ('/', .slash), ('%', .percent)]

/-- The characters that a directly following `=` turns into another token, which comes last. -/
def openMarks : List (Char × Symbol × Symbol) :=
  [('=', .assign, .equal), ('<', .less, .lessEqual), ('>', .greater, .greaterEqual),
    ('!', .bang, .notEqual)]

/-- The bytes, blanks apart, that do not begin a word. -/
def Byte.marked : List UInt8 :=
  (marks.map Prod.fst ++ openMarks.map Prod.fst ++ ['\"']).map Char.toUInt8

/-- The index holds a byte that is not blank, or none. -/
def VisibleAt (bytes : Bytes) (i : Nat) : Prop :=
  ∀ b, bytes[i]? = some b → Byte.isBlank b = false

/-- The index holds a delimiter, or no byte. -/
def DelimitedAt (bytes : Bytes) (i : Nat) : Prop :=
  ∀ b, bytes[i]? = some b → Byte.isDelimiter b = true

/-- The index holds a quote, and the one before it no backslash. -/
def ClosedAt (bytes : Bytes) (i : Nat) : Prop :=
  bytes[i]? = some Byte.quote ∧ bytes[i - 1]? ≠ some Byte.backslash

/-- A word has the kind of the keyword that it is, or it is a number or an identifier. -/
structure Classifies (word : Bytes) (kind : TokenKind) : Prop where
  keyword : ∀ k : Keyword, kind = .keyword k ↔ word = k.lexeme
  integer : kind = .integer ↔ ∀ b ∈ word, Byte.isDigit b = true
  identifier : kind = .identifier ↔
    (∀ k : Keyword, word ≠ k.lexeme) ∧ ¬ ∀ b ∈ word, Byte.isDigit b = true

/-- The kind and the end of the token that starts at the index. -/
inductive TokenAt (bytes : Bytes) (p : Nat) : TokenKind → Nat → Prop
  | endOfInput (hp : p = bytes.length) : TokenAt bytes p .endOfInput p
  | mark {c : Char} {s : Symbol} (hmark : (c, s) ∈ marks) (hp : bytes[p]? = some c.toUInt8) :
      TokenAt bytes p (.symbol s) (p + 1)
  | simple {c : Char} {simple compound : Symbol} (hmark : (c, simple, compound) ∈ openMarks)
      (hp : bytes[p]? = some c.toUInt8) (hnext : bytes[p + 1]? ≠ some Byte.equals) :
      TokenAt bytes p (.symbol simple) (p + 1)
  | compound {c : Char} {simple compound : Symbol} (hmark : (c, simple, compound) ∈ openMarks)
      (hp : bytes[p]? = some c.toUInt8) (hnext : bytes[p + 1]? = some Byte.equals) :
      TokenAt bytes p (.symbol compound) (p + 2)
  | string {i : Nat} (hp : bytes[p]? = some Byte.quote)
      (hi : IsLeast {j | p < j ∧ ClosedAt bytes j} i) : TokenAt bytes p .string (i + 1)
  | illegal (hp : bytes[p]? = some Byte.quote) (hopen : ∀ j, p < j → ¬ ClosedAt bytes j) :
      TokenAt bytes p .illegal bytes.length
  | word {b : UInt8} {stop : Nat} {kind : TokenKind} (hp : bytes[p]? = some b)
      (hb : b ∉ Byte.marked) (hstop : IsLeast {j | p < j ∧ DelimitedAt bytes j} stop)
      (hkind : Classifies ((bytes.drop p).take (stop - p)) kind) : TokenAt bytes p kind stop

/-- The token is the first one from the offset on. -/
structure ScansTo (bytes : Bytes) (offset : Nat) (t : Token) : Prop where
  start : IsLeast {i | offset ≤ i ∧ VisibleAt bytes i} t.span.start
  token : TokenAt bytes t.span.start t.kind t.span.stop

/-! ## The tables -/

theorem ofByte?_of_mem_marks :
    ∀ mark ∈ marks, Symbol.ofByte? mark.1.toUInt8 = some mark.2 := by
  decide

theorem operator?_of_mem_openMarks : ∀ mark ∈ openMarks,
    Symbol.ofByte? mark.1.toUInt8 = none ∧ Symbol.operator? mark.1.toUInt8 = some mark.2 := by
  decide

theorem exists_mark_of_ofByte? {b : UInt8} {s : Symbol} (h : Symbol.ofByte? b = some s) :
    ∃ c, (c, s) ∈ marks ∧ c.toUInt8 = b := by
  have table : ∀ s ∈ Symbol.singles, ∃ mark ∈ marks, mark.2 = s ∧ s.lexeme = [mark.1.toUInt8] := by
    decide
  obtain ⟨hm, hl⟩ := Symbol.ofByte?_eq_some h
  obtain ⟨⟨c, s'⟩, hmark, rfl, hc⟩ := table s hm
  rw [hl] at hc
  exact ⟨c, hmark, (List.cons.inj hc).1.symm⟩

theorem exists_openMark_of_operator? {b : UInt8} {pair : Symbol × Symbol}
    (h : Symbol.operator? b = some pair) : ∃ c, (c, pair) ∈ openMarks ∧ c.toUInt8 = b := by
  have table : ∀ pair ∈ Symbol.operators,
      ∃ mark ∈ openMarks, mark.2 = pair ∧ pair.1.lexeme = [mark.1.toUInt8] := by
    decide
  obtain ⟨hm, hl⟩ := Symbol.operator?_eq_some h
  obtain ⟨⟨c, pair'⟩, hmark, rfl, hc⟩ := table pair hm
  rw [hl] at hc
  exact ⟨c, hmark, (List.cons.inj hc).1.symm⟩

/-- The bytes that begin words are those that the tables and the blanks leave. -/
theorem startsWord_iff_not_mem_marked {b : UInt8} (hb : Byte.isBlank b = false) :
    Byte.startsWord b = true ↔ b ∉ Byte.marked := by
  have none_starts : Byte.marked.any Byte.startsWord = false := by decide
  have covered : (Byte.delimiters ++ Byte.openers).all
      (fun c => Byte.isBlank c || Byte.marked.contains c) = true := by
    decide
  constructor
  · intro h hm
    rw [Byte.eq_false_of_any none_starts hm] at h
    contradiction
  · intro hm
    by_contra hw
    have h := List.all_eq_true.mp covered b (Byte.mem_of_startsWord_eq_false (by simpa using hw))
    simp [hb, hm] at h

/-! ## Least indices -/

variable {bytes rest : Bytes} {b : UInt8} {k p : Nat}

/-- The bytes that are skipped end at the least index that holds none of them. -/
theorem isLeast_length_takeWhile (skip : UInt8 → Bool) (bytes : Bytes) (k : Nat) :
    IsLeast {i | k ≤ i ∧ ∀ b, bytes[i]? = some b → skip b = false}
      (k + ((bytes.drop k).takeWhile skip).length) := by
  set front := (bytes.drop k).takeWhile skip with hfront
  have hsplit : front ++ (bytes.drop k).dropWhile skip = bytes.drop k :=
    List.takeWhile_append_dropWhile
  refine ⟨⟨Nat.le_add_right k _, ?_⟩, ?_⟩
  · intro b hb
    rw [← List.getElem?_drop, ← hsplit, List.getElem?_append_right (Nat.le_refl _),
      Nat.sub_self, ← List.head?_eq_getElem?] at hb
    have hnot := List.head?_dropWhile_not skip (bytes.drop k)
    rw [hb] at hnot
    simpa using hnot
  · rintro i ⟨hki, hi⟩
    by_contra hlt
    obtain ⟨d, rfl⟩ := Nat.exists_eq_add_of_le hki
    have hd : d < front.length := by omega
    have hget : bytes[k + d]? = some front[d] := by
      rw [← List.getElem?_drop, ← hsplit, List.getElem?_append_left hd,
        List.getElem?_eq_getElem hd]
    have hskip : skip front[d] = true := List.mem_takeWhile_imp (List.getElem_mem hd)
    rw [hi _ hget] at hskip
    contradiction

theorem getElem?_of_drop (h : bytes.drop p = b :: rest) :
    bytes[p]? = some b ∧ bytes.drop (p + 1) = rest := by
  constructor
  · have hhead := congrArg List.head? h
    rwa [List.head?_drop] at hhead
  · rw [← List.tail_drop, h, List.tail_cons]

theorem getElem?_succ_of_drop (h : bytes.drop p = b :: rest) : bytes[p + 1]? = rest.head? := by
  rw [← (getElem?_of_drop h).2, List.head?_drop]

theorem drop_of_getElem? (h : bytes[p]? = some b) : bytes.drop p = b :: bytes.drop (p + 1) := by
  obtain ⟨hlt, rfl⟩ := List.getElem?_eq_some_iff.mp h
  exact List.drop_eq_getElem_cons hlt

/-- The quote that closes a string is at the least index that can close it. -/
theorem isLeast_of_closingQuote? {previous : UInt8} {n : Nat}
    (hp : bytes.drop p = previous :: rest) (h : closingQuote? previous rest = some n) :
    IsLeast {j | p < j ∧ ClosedAt bytes j} (p + n) := by
  induction rest generalizing previous p n with
  | nil => simp [closingQuote?] at h
  | cons b rest ih =>
      obtain ⟨hprevious, hb⟩ := getElem?_of_drop hp
      have hnext := (getElem?_of_drop hb).1
      have hclosed : ClosedAt bytes (p + 1) ↔ b = Byte.quote ∧ previous ≠ Byte.backslash := by
        simp [ClosedAt, hnext, hprevious]
      by_cases hq : b = Byte.quote ∧ previous ≠ Byte.backslash
      · rw [closingQuote?, if_pos hq] at h
        cases h
        exact ⟨⟨Nat.lt_succ_self p, hclosed.mpr hq⟩, fun j hj => hj.1⟩
      · rw [closingQuote?, if_neg hq] at h
        obtain ⟨m, hm, rfl⟩ := Option.map_eq_some_iff.mp h
        obtain ⟨⟨hlt, hfound⟩, hleast⟩ := ih hb hm
        refine ⟨⟨by omega, ?_⟩, fun j hj => ?_⟩
        · rwa [show p + (m + 1) = p + 1 + m by omega]
        · -- The next index cannot close the string, so a closing one is behind it.
          have hne : j ≠ p + 1 := by
            rintro rfl
            exact hq (hclosed.mp hj.2)
          have hle := hleast ⟨show p + 1 < j by have := hj.1; omega, hj.2⟩
          omega

theorem not_closedAt_of_closingQuote? {previous : UInt8} (hp : bytes.drop p = previous :: rest)
    (h : closingQuote? previous rest = none) {j : Nat} (hj : p < j) : ¬ ClosedAt bytes j := by
  induction rest generalizing previous p with
  | nil =>
      have hend := (getElem?_of_drop hp).2
      have hnone : bytes[j]? = none := by
        rw [List.drop_eq_nil_iff] at hend
        exact List.getElem?_eq_none (by omega)
      simp [ClosedAt, hnone]
  | cons b rest ih =>
      obtain ⟨hprevious, hb⟩ := getElem?_of_drop hp
      have hnext := (getElem?_of_drop hb).1
      unfold closingQuote? at h
      split at h
      · contradiction
      · rename_i hq
        by_cases hlast : j = p + 1
        · subst hlast
          simpa [ClosedAt, hnext, hprevious] using hq
        · exact ih hb (by simpa using h) (by omega)

/-- A word that begins here ends at the least delimiter behind. -/
theorem isLeast_stop_of_word (hp : bytes.drop p = b :: rest) :
    IsLeast {j | p < j ∧ DelimitedAt bytes j}
      (p + ((rest.takeWhile fun c => !Byte.isDelimiter c).length + 1)) := by
  have hleast := isLeast_length_takeWhile (fun c => !Byte.isDelimiter c) bytes (p + 1)
  rw [(getElem?_of_drop hp).2, Nat.add_assoc, Nat.add_comm 1] at hleast
  simpa [DelimitedAt, Nat.succ_le_iff] using hleast

theorem take_of_word (hp : bytes.drop p = b :: rest) (inside : UInt8 → Bool) :
    (bytes.drop p).take ((rest.takeWhile inside).length + 1) = b :: rest.takeWhile inside := by
  rw [hp, List.take_succ_cons, ← List.prefix_iff_eq_take.mp (List.takeWhile_prefix inside)]

/-! ## The kind of a word -/

theorem classifies_wordKind (word : Bytes) : Classifies word (wordKind word) := by
  unfold wordKind
  cases hk : Keyword.ofBytes? word with
  | some k =>
      have hword := Keyword.ofBytes?_eq_some hk
      have hdigits : ¬ ∀ b ∈ word, Byte.isDigit b = true := by
        intro hd
        rw [Keyword.ofBytes?_of_digits hd] at hk
        contradiction
      constructor
      case keyword =>
        intro k'
        constructor
        · intro h
          cases h
          exact hword
        · rintro rfl
          rw [Keyword.ofBytes?_lexeme] at hk
          cases hk
          rfl
      case integer => simpa using hdigits
      case identifier =>
        have hno : ¬ ∀ k : Keyword, word ≠ k.lexeme := fun h => h k hword
        simp [hno]
  | none =>
      have hno := Keyword.ofBytes?_eq_none_iff.mp hk
      by_cases hd : word.all Byte.isDigit = true
      · have hdigits : ∀ b ∈ word, Byte.isDigit b = true := by simpa using hd
        rw [if_pos hd]
        exact
          { keyword := fun k => by simp [hno k]
            integer := ⟨fun _ => hdigits, fun _ => rfl⟩
            identifier := by simpa using fun _ => hdigits }
      · have hdigits : ¬ ∀ b ∈ word, Byte.isDigit b = true := by simpa using hd
        rw [if_neg hd]
        exact
          { keyword := fun k => by simp [hno k]
            integer := by simp [hdigits]
            identifier := by simp [hno, hdigits] }

theorem Classifies.unique {word : Bytes} {kind kind' : TokenKind} (h : Classifies word kind)
    (h' : Classifies word kind') : kind = kind' := by
  by_cases hk : ∃ k : Keyword, word = k.lexeme
  · obtain ⟨k, hk⟩ := hk
    rw [(h.keyword k).mpr hk, (h'.keyword k).mpr hk]
  · by_cases hd : ∀ b ∈ word, Byte.isDigit b = true
    · rw [h.integer.mpr hd, h'.integer.mpr hd]
    · have hno : ∀ k : Keyword, word ≠ k.lexeme := by simpa using hk
      rw [h.identifier.mpr ⟨hno, hd⟩, h'.identifier.mpr ⟨hno, hd⟩]

/-! ## What a scan takes, by indices -/

theorem length_of_drop (hp : bytes.drop p = b :: rest) : bytes.length = p + (rest.length + 1) := by
  have hlen := congrArg List.length hp
  rw [List.length_drop, List.length_cons] at hlen
  omega

/-- What a scan takes at an index is what is described there. -/
theorem tokenAt_munch (hp : bytes.drop p = b :: rest) (hb : Byte.isBlank b = false) :
    TokenAt bytes p (munch b rest).1 (p + (munch b rest).2) := by
  have hget := (getElem?_of_drop hp).1
  cases hs : Symbol.ofByte? b with
  | some s =>
      obtain ⟨c, hmark, rfl⟩ := exists_mark_of_ofByte? hs
      rw [munch_of_single hs]
      exact .mark hmark hget
  | none =>
  cases ho : Symbol.operator? b with
  | some pair =>
      obtain ⟨c, hmark, rfl⟩ := exists_openMark_of_operator? ho
      have hnext := getElem?_succ_of_drop hp
      rw [munch_of_operator hs ho]
      split
      · rename_i he
        exact .compound hmark hget (hnext.trans he)
      · rename_i he
        exact .simple hmark hget (by rwa [hnext])
  | none =>
  by_cases hq : b = Byte.quote
  · subst hq
    cases hc : closingQuote? Byte.quote rest with
    | none =>
        rw [munch_quote_of_none hc]
        show TokenAt bytes p .illegal (p + (rest.length + 1))
        rw [← length_of_drop hp]
        exact .illegal hget fun j hj => not_closedAt_of_closingQuote? hp hc hj
    | some n =>
        rw [munch_quote_of_some hc]
        exact .string hget (isLeast_of_closingQuote? hp hc)
  · have hw := Symbol.startsWord_of_none hb hs ho hq
    rw [munch_of_startsWord hw]
    refine .word hget ((startsWord_iff_not_mem_marked hb).mp hw) (isLeast_stop_of_word hp) ?_
    rw [Nat.add_sub_cancel_left, take_of_word hp]
    exact classifies_wordKind _

/-- What is described at an index is what a scan takes there. -/
theorem TokenAt.munch_eq {kind : TokenKind} {stop : Nat} (h : TokenAt bytes p kind stop)
    (hp : bytes.drop p = b :: rest) (hb : Byte.isBlank b = false) :
    (munch b rest).1 = kind ∧ p + (munch b rest).2 = stop := by
  have hget := (getElem?_of_drop hp).1
  have hnext := getElem?_succ_of_drop hp
  cases h with
  | endOfInput hend =>
      have hlen := length_of_drop hp
      omega
  | mark hmark hc =>
      obtain rfl := Option.some.inj (hget.symm.trans hc)
      rw [munch_of_single (ofByte?_of_mem_marks _ hmark)]
      exact ⟨rfl, rfl⟩
  | simple hmark hc he =>
      obtain rfl := Option.some.inj (hget.symm.trans hc)
      obtain ⟨hs, ho⟩ := operator?_of_mem_openMarks _ hmark
      rw [munch_of_operator hs ho, if_neg (hnext ▸ he)]
      exact ⟨rfl, rfl⟩
  | compound hmark hc he =>
      obtain rfl := Option.some.inj (hget.symm.trans hc)
      obtain ⟨hs, ho⟩ := operator?_of_mem_openMarks _ hmark
      rw [munch_of_operator hs ho, if_pos (hnext ▸ he)]
      exact ⟨rfl, rfl⟩
  | @string i hc hi =>
      obtain rfl := Option.some.inj (hget.symm.trans hc)
      cases hq : closingQuote? Byte.quote rest with
      | none => exact absurd hi.1.2 (not_closedAt_of_closingQuote? hp hq hi.1.1)
      | some n =>
          rw [munch_quote_of_some hq, hi.unique (isLeast_of_closingQuote? hp hq)]
          exact ⟨rfl, rfl⟩
  | illegal hc hopen =>
      obtain rfl := Option.some.inj (hget.symm.trans hc)
      cases hq : closingQuote? Byte.quote rest with
      | none =>
          rw [munch_quote_of_none hq]
          exact ⟨rfl, (length_of_drop hp).symm⟩
      | some n =>
          obtain ⟨⟨hlt, hclosed⟩, -⟩ := isLeast_of_closingQuote? hp hq
          exact absurd hclosed (hopen _ hlt)
  | word hc hmarked hstop hkind =>
      obtain rfl := Option.some.inj (hget.symm.trans hc)
      have hw := (startsWord_iff_not_mem_marked hb).mpr hmarked
      have hend := hstop.unique (isLeast_stop_of_word hp)
      rw [hend, Nat.add_sub_cancel_left, take_of_word hp] at hkind
      rw [munch_of_startsWord hw, hend]
      exact ⟨(classifies_wordKind _).unique hkind, rfl⟩

/-- Where no byte is, only the end of the input is described. -/
theorem TokenAt.eq_of_none {kind : TokenKind} {stop : Nat} (h : TokenAt bytes p kind stop)
    (hp : bytes[p]? = none) : kind = .endOfInput ∧ stop = p := by
  cases h with
  | endOfInput => exact ⟨rfl, rfl⟩
  | mark _ hc => simp [hp] at hc
  | simple _ hc => simp [hp] at hc
  | compound _ hc => simp [hp] at hc
  | string hc => simp [hp] at hc
  | illegal hc => simp [hp] at hc
  | word hc => simp [hp] at hc

theorem TokenAt.unique {kind kind' : TokenKind} {stop stop' : Nat}
    (h : TokenAt bytes p kind stop) (h' : TokenAt bytes p kind' stop')
    (hvisible : VisibleAt bytes p) : kind = kind' ∧ stop = stop' := by
  cases hp : bytes[p]? with
  | none =>
      obtain ⟨rfl, rfl⟩ := h.eq_of_none hp
      obtain ⟨rfl, rfl⟩ := h'.eq_of_none hp
      exact ⟨rfl, rfl⟩
  | some b =>
      have hdrop := drop_of_getElem? hp
      obtain ⟨rfl, rfl⟩ := h.munch_eq hdrop (hvisible b hp)
      exact h'.munch_eq hdrop (hvisible b hp)

/-! ## Scans -/

theorem ScansTo.unique {t u : Token} (h : ScansTo bytes k t) (h' : ScansTo bytes k u) : t = u := by
  obtain ⟨kind, start, stop, hle⟩ := t
  obtain ⟨kind', start', stop', hle'⟩ := u
  obtain rfl : start = start' := h.start.unique h'.start
  obtain ⟨rfl, rfl⟩ : kind = kind' ∧ stop = stop' := h.token.unique h'.token h.start.1.2
  rfl

theorem exists_scansTo (hk : k ≤ bytes.length) : ∃ t, scan bytes k = .ok t ∧ ScansTo bytes k t := by
  set gap := (bytes.drop k).takeWhile Byte.isBlank with hgap
  have hisGap : IsGap gap := isGap_takeWhile _
  have hstart : IsLeast {i | k ≤ i ∧ VisibleAt bytes i} (k + gap.length) :=
    isLeast_length_takeWhile Byte.isBlank bytes k
  have hsplit : gap ++ (bytes.drop k).dropWhile Byte.isBlank = bytes.drop k :=
    List.takeWhile_append_dropWhile
  cases hrest : (bytes.drop k).dropWhile Byte.isBlank with
  | nil =>
      rw [hrest, List.append_nil] at hsplit
      have hend : k + gap.length = bytes.length := by
        rw [hsplit, List.length_drop]
        omega
      refine ⟨_, scan_of_isGap hk (hsplit ▸ hisGap), ?_⟩
      rw [hend] at hstart
      exact { start := hstart, token := .endOfInput rfl }
  | cons b rest =>
      rw [hrest] at hsplit
      have hdrop : bytes.drop (k + gap.length) = b :: rest := by
        rw [← List.drop_drop, ← hsplit, List.drop_left]
      have hb : Byte.isBlank b = false := hstart.1.2 b (getElem?_of_drop hdrop).1
      refine ⟨_, scan_of_munch hisGap hb hsplit.symm rfl, ?_⟩
      exact { start := hstart, token := tokenAt_munch hdrop hb }

/--
From every offset in a source, its end included, a scan finds a token. It is the only one that
starts at the least index behind the offset where no blank is, and that has the kind and the end
described at this index.
-/
theorem scan_by_least_indices {source : Source} {offset : Nat} (h : source.buffer = .ok bytes)
    (hoffset : offset ≤ bytes.length) :
    ∃ t, source.scan offset = .ok t ∧ ScansTo bytes offset t ∧
      ∀ u, ScansTo bytes offset u → u = t := by
  obtain ⟨t, hscan, ht⟩ := exists_scansTo hoffset
  refine ⟨t, ?_, ht, fun u hu => hu.unique ht⟩
  rw [Source.scan, h]
  simp only [hscan]

/-- From the blank in front of it on, a string with an escaped quote, which `==` follows. -/
theorem scan_by_least_indices_escaped :
    let bytes := "x \"a\\\"b\"==1".toList.map Char.toUInt8
    (Source.bytes bytes).buffer = .ok bytes ∧ 1 ≤ bytes.length ∧
      ∃ t, (Source.bytes bytes).scan (1 : Nat) = .ok t ∧ ScansTo bytes 1 t ∧
        (∀ u, ScansTo bytes 1 u → u = t) ∧ t.kind = .string ∧ t.span.start = 2 ∧
        t.span.stop = 8 := by
  intro bytes
  have hle : 1 ≤ bytes.length := by decide
  obtain ⟨t, hscan, ht, hunique⟩ := @scan_by_least_indices bytes (.bytes bytes) 1 rfl hle
  have hfound : (Source.bytes bytes).scan (1 : Nat) =
      .ok { kind := .string, span := { start := 2, stop := 8 } } := by
    rfl
  obtain rfl := Except.ok.inj (hscan.symm.trans hfound)
  exact ⟨rfl, hle, _, hscan, ht, hunique, rfl, rfl, rfl⟩

end LetLang
