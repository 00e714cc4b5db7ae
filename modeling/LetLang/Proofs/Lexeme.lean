import Mathlib.Data.List.Chain
import Mathlib.Data.List.TakeWhile
import LetLang.Token.Scan

/-!
# The language of each kind of token

`TokenKind.Spells` says which runs of bytes are lexemes of a kind, and `TokenKind.StopsBefore` what
may follow such a lexeme without becoming part of it. Neither mentions the scanner.

The rest of the file is about the two open-ended classes: words, which `wordKind_eq_iff` sorts into
keywords, integers and identifiers, and quoted bodies, which end at the first quote that no
backslash escapes.
-/

namespace LetLang

/-! ## First bytes -/

namespace Byte

/-- The bytes that open a token of another class than words, although no word stops at them. -/
def openers : List UInt8 :=
  ['\"', '-', '*', '/', '%', '<', '>', '!'].map Char.toUInt8

/-- Whether a word may start with the byte. -/
def startsWord (b : UInt8) : Bool := !isDelimiter b && !openers.contains b

theorem startsWord_eq_true_iff {b : UInt8} :
    startsWord b = true ↔ isDelimiter b = false ∧ b ∉ openers := by
  simp [startsWord]

theorem mem_of_startsWord_eq_false {b : UInt8} (h : startsWord b = false) :
    b ∈ delimiters ++ openers := by
  by_cases hd : isDelimiter b = true
  · exact List.mem_append_left _ (by simpa [isDelimiter] using hd)
  · exact List.mem_append_right _ (by simpa [startsWord, hd] using h)

theorem eq_false_of_any {p : UInt8 → Bool} {bytes : Bytes} (h : bytes.any p = false) {b : UInt8}
    (hb : b ∈ bytes) : p b = false :=
  Bool.eq_false_iff.mpr (List.any_eq_false.mp h b hb)

theorem startsWord_of_isDigit {b : UInt8} (h : isDigit b = true) : startsWord b = true := by
  have no_digit : (delimiters ++ openers).any isDigit = false := by decide
  cases hw : startsWord b with
  | true => rfl
  | false =>
      rw [eq_false_of_any no_digit (mem_of_startsWord_eq_false hw)] at h
      contradiction

theorem isDelimiter_of_isDigit {b : UInt8} (h : isDigit b = true) : isDelimiter b = false :=
  (startsWord_eq_true_iff.mp (startsWord_of_isDigit h)).1

end Byte

namespace Symbol

theorem ofByte?_eq_some {b : UInt8} {s : Symbol} (h : ofByte? b = some s) :
    s ∈ singles ∧ s.lexeme = [b] := by
  have hl := List.find?_some h
  exact ⟨List.mem_of_find?_eq_some h, by simpa using hl⟩

theorem operator?_eq_some {b : UInt8} {pair : Symbol × Symbol} (h : operator? b = some pair) :
    pair ∈ operators ∧ pair.1.lexeme = [b] := by
  have hl := List.find?_some h
  exact ⟨List.mem_of_find?_eq_some h, by simpa using hl⟩

theorem none_of_startsWord {b : UInt8} (h : Byte.startsWord b = true) :
    ofByte? b = none ∧ operator? b = none ∧ b ≠ Byte.quote := by
  have single : ∀ s ∈ singles, s.lexeme.any Byte.startsWord = false := by decide
  have operator : ∀ pair ∈ operators, pair.1.lexeme.any Byte.startsWord = false := by decide
  refine ⟨?_, ?_, ?_⟩
  · cases hs : ofByte? b with
    | none => rfl
    | some s =>
        rcases ofByte?_eq_some hs with ⟨hm, hl⟩
        have hmem : b ∈ s.lexeme := by simp [hl]
        have hb := Byte.eq_false_of_any (single s hm) hmem
        rw [hb] at h
        contradiction
  · cases hp : operator? b with
    | none => rfl
    | some pair =>
        rcases operator?_eq_some hp with ⟨hm, hl⟩
        have hmem : b ∈ pair.1.lexeme := by simp [hl]
        have hb := Byte.eq_false_of_any (operator pair hm) hmem
        rw [hb] at h
        contradiction
  · rintro rfl
    exact absurd h (by decide)

/-- Every delimiter and every opener has its own branch, so what is left starts a word. -/
theorem startsWord_of_none {b : UInt8} (hb : Byte.isBlank b = false) (hs : ofByte? b = none)
    (ho : operator? b = none) (hq : b ≠ Byte.quote) : Byte.startsWord b = true := by
  have covered : (Byte.delimiters ++ Byte.openers).all (fun c =>
      Byte.isBlank c || (ofByte? c).isSome || (operator? c).isSome || c == Byte.quote) = true := by
    decide
  cases hw : Byte.startsWord b with
  | true => rfl
  | false =>
      have h := List.all_eq_true.mp covered b (Byte.mem_of_startsWord_eq_false hw)
      rw [hb, hs, ho, beq_eq_false_iff_ne.mpr hq] at h
      contradiction

end Symbol

/-! ## Languages -/

/-- Every quote among the bytes directly follows a backslash; `previous` stands before them. -/
def Escaped (previous : UInt8) (bytes : Bytes) : Prop :=
  (previous :: bytes).IsChain fun b c => c = Byte.quote → b = Byte.backslash

/-- A word stops at none of its bytes and starts with none of the `openers`. -/
structure IsWord (word : Bytes) : Prop where
  ne_nil : word ≠ []
  plain : ∀ b ∈ word, Byte.isDelimiter b = false
  opens : ∀ b, word.head? = some b → b ∉ Byte.openers

theorem IsWord.exists_head {word : Bytes} (h : IsWord word) :
    ∃ b rest, word = b :: rest ∧ Byte.isBlank b = false := by
  rcases List.exists_cons_of_ne_nil h.ne_nil with ⟨b, rest, rfl⟩
  refine ⟨b, rest, rfl, ?_⟩
  cases hb : Byte.isBlank b with
  | false => rfl
  | true =>
      have hd := h.plain b (by simp)
      rw [Byte.isDelimiter_of_isBlank hb] at hd
      contradiction

namespace TokenKind

/-- The language of a kind. The end of the input has no lexeme. -/
def Spells : TokenKind → Bytes → Prop
  | illegal, w => ∃ rest, w = Byte.quote :: rest ∧ Escaped Byte.quote rest
  | endOfInput, _ => False
  | identifier, w => IsWord w ∧ (∀ k : Keyword, w ≠ k.lexeme) ∧ ¬ ∀ b ∈ w, Byte.isDigit b = true
  | integer, w => w ≠ [] ∧ ∀ b ∈ w, Byte.isDigit b = true
  | string, w => ∃ body, w = Byte.quote :: (body ++ [Byte.quote]) ∧ Escaped Byte.quote body ∧
      body.getLast? ≠ some Byte.backslash
  | symbol s, w => w = s.lexeme
  | keyword k, w => w = k.lexeme

/-- Identifiers, integers and keywords. -/
def isWord : TokenKind → Bool
  | identifier | integer | keyword _ => true
  | _ => false

/-- The four symbols that a directly following `=` turns into another one. -/
def isOperator : TokenKind → Bool
  | symbol s => (Symbol.operators.map Prod.fst).contains s
  | _ => false

/--
Whether a lexeme of the kind is settled when the given bytes follow it: a word ends at a delimiter,
a simple operator before anything but `=`, and a string without an end only at the end.
-/
structure StopsBefore (kind : TokenKind) (tail : Bytes) : Prop where
  word : kind.isWord = true → ∀ b, tail.head? = some b → Byte.isDelimiter b = true
  operator : kind.isOperator = true → tail.head? ≠ some Byte.equals
  illegal : kind = .illegal → tail = []

end TokenKind

/-! ## Words -/

theorem Keyword.ofBytes?_eq_some {word : Bytes} {k : Keyword} (h : ofBytes? word = some k) :
    word = k.lexeme := by
  have hl := List.find?_some h
  simpa using (eq_of_beq hl).symm

theorem Keyword.ofBytes?_eq_none_iff {word : Bytes} :
    ofBytes? word = none ↔ ∀ k : Keyword, word ≠ k.lexeme := by
  constructor
  · rintro h k rfl
    rw [ofBytes?_lexeme] at h
    contradiction
  · intro h
    cases hk : ofBytes? word with
    | none => rfl
    | some k => exact absurd (ofBytes?_eq_some hk) (h k)

theorem Keyword.isWord_lexeme (k : Keyword) : IsWord k.lexeme where
  ne_nil := by cases k <;> decide
  plain b hb := by
    have plain : k.lexeme.any Byte.isDelimiter = false := by cases k <;> decide
    exact Byte.eq_false_of_any plain hb
  opens b hb := by
    have opens : k.lexeme.any Byte.openers.contains = false := by cases k <;> decide
    have hb := Byte.eq_false_of_any opens (List.mem_of_head? hb)
    simpa using hb

theorem isWord_of_digits {word : Bytes} (hne : word ≠ [])
    (hd : ∀ b ∈ word, Byte.isDigit b = true) : IsWord word where
  ne_nil := hne
  plain b hb := Byte.isDelimiter_of_isDigit (hd b hb)
  opens b hb :=
    (Byte.startsWord_eq_true_iff.mp
      (Byte.startsWord_of_isDigit (hd b (List.mem_of_head? hb)))).2

theorem Keyword.ofBytes?_of_digits {word : Bytes} (hd : ∀ b ∈ word, Byte.isDigit b = true) :
    ofBytes? word = none := by
  rw [ofBytes?_eq_none_iff]
  rintro k rfl
  have letters : k.lexeme.all Byte.isDigit = false := by cases k <;> decide
  rw [List.all_eq_true.mpr hd] at letters
  contradiction

theorem isWord_of_spells {kind : TokenKind} {word : Bytes} (hk : kind.isWord = true)
    (h : kind.Spells word) : IsWord word := by
  cases kind with
  | identifier => exact h.1
  | integer => exact isWord_of_digits h.1 h.2
  | keyword k =>
      have hw : word = k.lexeme := h
      exact hw ▸ k.isWord_lexeme
  | _ => simp [TokenKind.isWord] at hk

/-- A word is a lexeme of the kind that it is given, and of no other class of words. -/
theorem wordKind_eq_iff {kind : TokenKind} {word : Bytes} (hw : IsWord word) :
    wordKind word = kind ↔ kind.isWord = true ∧ kind.Spells word := by
  unfold wordKind
  constructor
  · rintro rfl
    cases hk : Keyword.ofBytes? word with
    | some k => exact ⟨rfl, Keyword.ofBytes?_eq_some hk⟩
    | none =>
        by_cases hd : word.all Byte.isDigit = true
        · rw [if_pos hd]
          exact ⟨rfl, hw.ne_nil, by simpa using hd⟩
        · rw [if_neg hd]
          exact ⟨rfl, hw, Keyword.ofBytes?_eq_none_iff.mp hk, by simpa using hd⟩
  · rintro ⟨hk, h⟩
    cases kind with
    | identifier =>
        have hd : ¬ word.all Byte.isDigit = true := by simpa using h.2.2
        rw [Keyword.ofBytes?_eq_none_iff.mpr h.2.1]
        exact if_neg hd
    | integer =>
        have hd : word.all Byte.isDigit = true := by simpa using h.2
        rw [Keyword.ofBytes?_of_digits h.2]
        exact if_pos hd
    | keyword k =>
        have hl : word = k.lexeme := h
        rw [hl, Keyword.ofBytes?_lexeme]
    | _ => simp [TokenKind.isWord] at hk

theorem TokenKind.Spells.exists_head {kind : TokenKind} {lexeme : Bytes}
    (h : kind.Spells lexeme) : ∃ b rest, lexeme = b :: rest ∧ Byte.isBlank b = false := by
  cases kind with
  | illegal =>
      rcases h with ⟨rest, rfl, -⟩
      exact ⟨_, rest, rfl, by decide⟩
  | endOfInput => exact h.elim
  | string =>
      rcases h with ⟨body, rfl, -, -⟩
      exact ⟨_, _, rfl, by decide⟩
  | symbol s =>
      have hl : lexeme = s.lexeme := h
      have nonempty : s.lexeme ≠ [] := by cases s <;> decide
      have visible : s.lexeme.any Byte.isBlank = false := by cases s <;> decide
      rcases List.exists_cons_of_ne_nil nonempty with ⟨b, rest, he⟩
      exact ⟨b, rest, by rw [hl, he], Byte.eq_false_of_any visible (by simp [he])⟩
  | identifier => exact (isWord_of_spells rfl h).exists_head
  | integer => exact (isWord_of_spells rfl h).exists_head
  | keyword k => exact (isWord_of_spells rfl h).exists_head

/-! ## Strings -/

theorem escaped_nil (previous : UInt8) : Escaped previous [] := List.isChain_singleton _

theorem escaped_cons {previous b : UInt8} {rest : Bytes} :
    Escaped previous (b :: rest) ↔ (b = Byte.quote → previous = Byte.backslash) ∧ Escaped b rest :=
  List.isChain_cons_cons

theorem escaped_of_closingQuote?_eq_none {previous : UInt8} {bytes : Bytes}
    (h : closingQuote? previous bytes = none) : Escaped previous bytes := by
  induction bytes generalizing previous with
  | nil => exact escaped_nil previous
  | cons b rest ih =>
      unfold closingQuote? at h
      split at h
      · contradiction
      · rename_i hb
        rw [escaped_cons]
        refine ⟨fun hq => ?_, ih (by simpa using h)⟩
        by_contra hp
        exact hb ⟨hq, hp⟩

theorem closingQuote?_eq_none {previous : UInt8} {bytes : Bytes} (h : Escaped previous bytes) :
    closingQuote? previous bytes = none := by
  induction bytes generalizing previous with
  | nil => rfl
  | cons b rest ih =>
      rcases escaped_cons.mp h with ⟨hb, hrest⟩
      have hn : ¬ (b = Byte.quote ∧ previous ≠ Byte.backslash) := fun hq => hq.2 (hb hq.1)
      rw [closingQuote?, if_neg hn, ih hrest]
      rfl

/-- The closing quote is the first one that is not escaped. -/
theorem exists_body_of_closingQuote? {previous : UInt8} {bytes : Bytes} {n : Nat}
    (h : closingQuote? previous bytes = some n) :
    ∃ body tail, bytes = body ++ Byte.quote :: tail ∧ n = body.length + 1 ∧
      Escaped previous body ∧ (previous :: body).getLast? ≠ some Byte.backslash := by
  induction bytes generalizing previous n with
  | nil => simp [closingQuote?] at h
  | cons b rest ih =>
      unfold closingQuote? at h
      split at h
      · rename_i hb
        cases h
        exact ⟨[], rest, by simp [hb.1], rfl, escaped_nil previous, by simpa using hb.2⟩
      · rename_i hb
        rcases Option.map_eq_some_iff.mp h with ⟨m, hm, rfl⟩
        rcases ih hm with ⟨body, tail, rfl, rfl, he, hl⟩
        refine ⟨b :: body, tail, rfl, rfl, escaped_cons.mpr ⟨fun hq => ?_, he⟩, ?_⟩
        · by_contra hp
          exact hb ⟨hq, hp⟩
        · rwa [List.getLast?_cons_cons]

theorem closingQuote?_append {previous : UInt8} {body : Bytes} (he : Escaped previous body)
    (hl : (previous :: body).getLast? ≠ some Byte.backslash) (tail : Bytes) :
    closingQuote? previous (body ++ Byte.quote :: tail) = some (body.length + 1) := by
  induction body generalizing previous with
  | nil =>
      have hp : previous ≠ Byte.backslash := by simpa using hl
      simp [closingQuote?, hp]
  | cons b rest ih =>
      rcases escaped_cons.mp he with ⟨hb, hrest⟩
      have hn : ¬ (b = Byte.quote ∧ previous ≠ Byte.backslash) := fun hq => hq.2 (hb hq.1)
      rw [List.getLast?_cons_cons] at hl
      rw [List.cons_append, closingQuote?, if_neg hn, ih hrest hl]
      rfl

/-- The opening quote is no backslash, so it does not matter for the end of the body. -/
theorem getLast?_quote_cons {body : Bytes} :
    (Byte.quote :: body).getLast? ≠ some Byte.backslash ↔
      body.getLast? ≠ some Byte.backslash := by
  cases body with
  | nil => simp; decide
  | cons b rest => rw [List.getLast?_cons_cons]

end LetLang
