import LetLang.Proofs.Lexeme

/-!
# What a scan takes

Each branch of the scanner has one equation here, and every later proof goes through
`munch_eq_iff`: at a byte that is no blank, the scanner takes a lexeme of the given kind exactly if
the lexeme is in the language of the kind and stops before the bytes behind it.
-/

namespace LetLang

open TokenKind

/-! ## One equation for each branch -/

theorem munch_of_single {b : UInt8} {s : Symbol} (h : Symbol.ofByte? b = some s) (rest : Bytes) :
    munch b rest = (.symbol s, 1) := by
  simp [munch, h]

theorem munch_of_operator {b : UInt8} {pair : Symbol × Symbol} (hs : Symbol.ofByte? b = none)
    (ho : Symbol.operator? b = some pair) (rest : Bytes) :
    munch b rest =
      if rest.head? = some Byte.equals then (.symbol pair.2, 2) else (.symbol pair.1, 1) := by
  simp [munch, hs, ho]

theorem munch_quote_of_none {rest : Bytes} (h : closingQuote? Byte.quote rest = none) :
    munch Byte.quote rest = (.illegal, rest.length + 1) := by
  have hs : Symbol.ofByte? Byte.quote = none := by decide
  have ho : Symbol.operator? Byte.quote = none := by decide
  simp [munch, hs, ho, h]

theorem munch_quote_of_some {rest : Bytes} {n : Nat}
    (h : closingQuote? Byte.quote rest = some n) :
    munch Byte.quote rest = (.string, n + 1) := by
  have hs : Symbol.ofByte? Byte.quote = none := by decide
  have ho : Symbol.operator? Byte.quote = none := by decide
  simp [munch, hs, ho, h]

theorem munch_of_startsWord {b : UInt8} (h : Byte.startsWord b = true) (rest : Bytes) :
    munch b rest =
      (wordKind (b :: rest.takeWhile fun c => !Byte.isDelimiter c),
        (rest.takeWhile fun c => !Byte.isDelimiter c).length + 1) := by
  rcases Symbol.none_of_startsWord h with ⟨hs, ho, hq⟩
  simp [munch, hs, ho, hq]

/-! ## Where a lexeme stops -/

namespace TokenKind

theorem stopsBefore_of_isWord {kind : TokenKind} {tail : Bytes} (hk : kind.isWord = true)
    (h : ∀ b, tail.head? = some b → Byte.isDelimiter b = true) : kind.StopsBefore tail where
  word _ := h
  operator ho := by cases kind <;> simp [isWord, isOperator] at hk ho
  illegal hi := by simp [hi, isWord] at hk

theorem stopsBefore_symbol {s : Symbol} {tail : Bytes}
    (h : (symbol s).isOperator = true → tail.head? ≠ some Byte.equals) :
    (symbol s).StopsBefore tail where
  word hw := by simp [isWord] at hw
  operator := h
  illegal hi := by simp at hi

theorem stopsBefore_string (tail : Bytes) : string.StopsBefore tail where
  word hw := by simp [isWord] at hw
  operator ho := by simp [isOperator] at ho
  illegal hi := by simp at hi

theorem stopsBefore_illegal : illegal.StopsBefore [] where
  word hw := by simp [isWord] at hw
  operator ho := by simp [isOperator] at ho
  illegal _ := rfl

theorem isOperator_of_mem_singles : ∀ s ∈ Symbol.singles, (symbol s).isOperator = false := by
  decide

theorem isOperator_of_mem_operators : ∀ pair ∈ Symbol.operators,
    (symbol pair.1).isOperator = true ∧ (symbol pair.2).isOperator = false := by
  decide

end TokenKind

/-! ## Languages and scans -/

theorem isDelimiter_of_head?_dropWhile {rest : Bytes} {b : UInt8}
    (h : (rest.dropWhile fun c => !Byte.isDelimiter c).head? = some b) :
    Byte.isDelimiter b = true := by
  have hn := List.head?_dropWhile_not (fun c => !Byte.isDelimiter c) rest
  rw [h] at hn
  simpa using hn

/-- What a scan takes is a lexeme of its kind, and as long as it can be. -/
theorem munch_spells {b : UInt8} (hb : Byte.isBlank b = false) (rest : Bytes) :
    (munch b rest).1.Spells ((b :: rest).take (munch b rest).2) ∧
      (munch b rest).1.StopsBefore ((b :: rest).drop (munch b rest).2) := by
  cases hs : Symbol.ofByte? b with
  | some s =>
      rcases Symbol.ofByte?_eq_some hs with ⟨hm, hl⟩
      rw [munch_of_single hs]
      refine ⟨hl.symm, stopsBefore_symbol fun ho => ?_⟩
      rw [isOperator_of_mem_singles s hm] at ho
      contradiction
  | none =>
  cases ho : Symbol.operator? b with
  | some pair =>
      rcases Symbol.operator?_eq_some ho with ⟨hm, hl⟩
      rw [munch_of_operator hs ho]
      split
      · rename_i he
        rcases List.head?_eq_some_iff.mp he with ⟨rest, rfl⟩
        have hc := Symbol.lexeme_compound pair hm
        refine ⟨?_, stopsBefore_symbol fun hp => ?_⟩
        · show [b, Byte.equals] = pair.2.lexeme
          rw [hc, hl]
          rfl
        · rw [(isOperator_of_mem_operators pair hm).2] at hp
          contradiction
      · rename_i he
        exact ⟨hl.symm, stopsBefore_symbol fun _ => he⟩
  | none =>
  by_cases hq : b = Byte.quote
  · subst hq
    cases hc : closingQuote? Byte.quote rest with
    | none =>
        rw [munch_quote_of_none hc]
        have ht : (Byte.quote :: rest).take (rest.length + 1) = Byte.quote :: rest := by simp
        have hd : (Byte.quote :: rest).drop (rest.length + 1) = [] := by simp
        rw [ht, hd]
        exact ⟨⟨rest, rfl, escaped_of_closingQuote?_eq_none hc⟩, stopsBefore_illegal⟩
    | some n =>
        rw [munch_quote_of_some hc]
        rcases exists_body_of_closingQuote? hc with ⟨body, tail, rfl, rfl, he, hl⟩
        have ht : (Byte.quote :: (body ++ Byte.quote :: tail)).take (body.length + 1 + 1) =
            Byte.quote :: (body ++ [Byte.quote]) := by
          simp [List.take_append, List.take_of_length_le]
        rw [ht]
        exact ⟨⟨body, rfl, he, getLast?_quote_cons.mp hl⟩, stopsBefore_string _⟩
  · have hw := Symbol.startsWord_of_none hb hs ho hq
    rcases Byte.startsWord_eq_true_iff.mp hw with ⟨hd, hn⟩
    rw [munch_of_startsWord hw]
    set word := rest.takeWhile fun c => !Byte.isDelimiter c with hword
    set tail := rest.dropWhile fun c => !Byte.isDelimiter c with htail
    have hr : rest = word ++ tail := (List.takeWhile_append_dropWhile).symm
    have hisWord : IsWord (b :: word) := by
      refine ⟨by simp, ?_, ?_⟩
      · intro c hc
        rcases List.mem_cons.mp hc with rfl | hc
        · exact hd
        · simpa using List.mem_takeWhile_imp hc
      · intro c hc
        cases hc
        exact hn
    rcases (wordKind_eq_iff hisWord).mp rfl with ⟨hk, hsp⟩
    have ht : (b :: rest).take (word.length + 1) = b :: word := by rw [hr]; simp
    have hdrop : (b :: rest).drop (word.length + 1) = tail := by rw [hr]; simp
    rw [ht, hdrop]
    exact ⟨hsp, stopsBefore_of_isWord hk fun c hc => isDelimiter_of_head?_dropWhile hc⟩

theorem Symbol.singles_or_operators (s : Symbol) :
    s ∈ singles ∨ ∃ pair ∈ operators, s = pair.1 ∨ s = pair.2 := by
  cases s <;> decide

theorem munch_of_symbol {b : UInt8} {rest tail : Bytes} {s : Symbol}
    (h : b :: rest = s.lexeme ++ tail) (hst : (symbol s).StopsBefore tail) :
    munch b rest = (.symbol s, s.lexeme.length) := by
  have single : ∀ s ∈ Symbol.singles, s.lexeme.map Symbol.ofByte? = [some s] := by decide
  have operator : ∀ pair ∈ Symbol.operators,
      pair.1.lexeme.map (fun c => (Symbol.ofByte? c, Symbol.operator? c)) =
        [(none, some pair)] := by decide
  rcases s.singles_or_operators with hm | ⟨pair, hm, rfl | rfl⟩
  · rcases List.map_eq_singleton_iff.mp (single s hm) with ⟨c, hl, hc⟩
    rw [hl] at h
    cases h
    rw [munch_of_single hc, hl]
    rfl
  · rcases List.map_eq_singleton_iff.mp (operator pair hm) with ⟨c, hl, hc⟩
    rcases Prod.mk.inj hc with ⟨hs, ho⟩
    rw [hl, List.singleton_append] at h
    cases h
    rw [munch_of_operator hs ho, hl,
      if_neg (hst.operator (isOperator_of_mem_operators pair hm).1)]
    rfl
  · rcases List.map_eq_singleton_iff.mp (operator pair hm) with ⟨c, hl, hc⟩
    rcases Prod.mk.inj hc with ⟨hs, ho⟩
    have hl₂ : pair.2.lexeme = [c, Byte.equals] := by
      rw [Symbol.lexeme_compound pair hm, hl]
      rfl
    rw [hl₂] at h
    cases h
    rw [munch_of_operator hs ho, hl₂]
    rfl

theorem munch_of_isWord {kind : TokenKind} {b : UInt8} {rest lexeme tail : Bytes}
    (h : b :: rest = lexeme ++ tail) (hk : kind.isWord = true) (hsp : kind.Spells lexeme)
    (hst : kind.StopsBefore tail) : munch b rest = (kind, lexeme.length) := by
  have hw := isWord_of_spells hk hsp
  have hkind := (wordKind_eq_iff hw).mpr ⟨hk, hsp⟩
  cases lexeme with
  | nil => exact absurd rfl hw.ne_nil
  | cons c word =>
      rw [List.cons_append] at h
      cases h
      have hc : Byte.startsWord b = true :=
        Byte.startsWord_eq_true_iff.mpr ⟨hw.plain b (by simp), hw.opens b rfl⟩
      have inside : ∀ c ∈ word, (!Byte.isDelimiter c) = true := by
        intro c hc
        simp [hw.plain c (List.mem_cons_of_mem _ hc)]
      have stop : (tail.takeWhile fun c => !Byte.isDelimiter c) = [] := by
        cases tail with
        | nil => rfl
        | cons c tail => simp [hst.word hk c rfl]
      rw [munch_of_startsWord hc, List.takeWhile_append_of_pos inside, stop, List.append_nil,
        hkind]
      rfl

theorem munch_of_spells {kind : TokenKind} {b : UInt8} {rest lexeme tail : Bytes}
    (h : b :: rest = lexeme ++ tail) (hsp : kind.Spells lexeme) (hst : kind.StopsBefore tail) :
    munch b rest = (kind, lexeme.length) := by
  cases kind with
  | illegal =>
      rcases hsp with ⟨body, rfl, he⟩
      obtain rfl := hst.illegal rfl
      rw [List.append_nil] at h
      cases h
      exact munch_quote_of_none (closingQuote?_eq_none he)
  | endOfInput => exact hsp.elim
  | string =>
      rcases hsp with ⟨body, rfl, he, hl⟩
      rw [List.cons_append, List.append_assoc, List.singleton_append] at h
      cases h
      have hc := closingQuote?_append he (getLast?_quote_cons.mpr hl) tail
      rw [munch_quote_of_some hc]
      simp
  | symbol s =>
      have hl : lexeme = s.lexeme := hsp
      subst hl
      exact munch_of_symbol h hst
  | identifier => exact munch_of_isWord h rfl hsp hst
  | integer => exact munch_of_isWord h rfl hsp hst
  | keyword k => exact munch_of_isWord h rfl hsp hst

/-- What a scan takes is fixed by the languages and by what follows. -/
theorem munch_eq_iff {kind : TokenKind} {b : UInt8} {rest lexeme tail : Bytes}
    (hb : Byte.isBlank b = false) (h : b :: rest = lexeme ++ tail) :
    munch b rest = (kind, lexeme.length) ↔ kind.Spells lexeme ∧ kind.StopsBefore tail := by
  constructor
  · intro hm
    have hs := munch_spells hb rest
    rw [hm, h] at hs
    simpa only [List.take_left, List.drop_left] using hs
  · rintro ⟨hsp, hst⟩
    exact munch_of_spells h hsp hst

theorem TokenKind.stopsBefore_nil (kind : TokenKind) : kind.StopsBefore [] where
  word _ b hb := by simp at hb
  operator _ := by simp
  illegal _ := rfl

/-- A lexeme that stands alone is scanned as itself, so a scan decides the languages. -/
theorem TokenKind.spells_cons_iff {kind : TokenKind} {b : UInt8} {rest : Bytes} :
    kind.Spells (b :: rest) ↔
      Byte.isBlank b = false ∧ munch b rest = (kind, rest.length + 1) := by
  have hcons : b :: rest = (b :: rest) ++ [] := (List.append_nil _).symm
  constructor
  · intro h
    rcases h.exists_head with ⟨c, tail, he, hc⟩
    cases he
    exact ⟨hc, munch_of_spells hcons h kind.stopsBefore_nil⟩
  · rintro ⟨hb, hm⟩
    exact ((munch_eq_iff hb hcons).mp hm).1

instance (kind : TokenKind) : (lexeme : Bytes) → Decidable (kind.Spells lexeme)
  | [] => isFalse fun h => by
      rcases h.exists_head with ⟨b, rest, he, -⟩
      contradiction
  | _ :: _ => decidable_of_iff _ TokenKind.spells_cons_iff.symm

end LetLang
