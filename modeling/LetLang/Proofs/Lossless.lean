import LetLang.Proofs.Stream

/-!
# Tokens and blanks are the whole source

Main statement: `tokenize_lossless`. Tokenizing never fails on a source that has a buffer. The tokens
stand in order and apart from each other, what lies between them is blank, and a string without an
end can only be the last of them. So the lexemes and the blanks around them are the source again.
-/

namespace LetLang

/-! ## Losing nothing -/

/-- The tokens and the blanks around them are the bytes. -/
structure Lossless (bytes : Bytes) (ts : List Token) : Prop where
  no_end : ∀ t ∈ ts, t.kind ≠ .endOfInput
  nonempty : ∀ t ∈ ts, t.span.start < t.span.stop
  ordered : ts.IsChain fun t u => t.span.stop ≤ u.span.start
  within : ∀ t ∈ ts, t.span.stop ≤ bytes.length
  /-- What lies in no token is blank. -/
  blank : ∀ i b, bytes[i]? = some b →
    (∀ t ∈ ts, ¬ (t.span.start ≤ i ∧ i < t.span.stop)) → Byte.isBlank b = true
  /-- No token starts with a blank. -/
  opens : ∀ t ∈ ts, ∃ b, bytes[t.span.start]? = some b ∧ Byte.isBlank b = false
  /-- A string without an end is the last token and takes all there is. -/
  illegal : ∀ i t, ts[i]? = some t → t.kind = .illegal →
    i + 1 = ts.length ∧ t.span.stop = bytes.length
  /-- The bytes are blanks and lexemes by turns. -/
  rebuilt : ∃ l : Layout, bytes = l.bytes ∧
    List.Forall₂ (fun p t => t.kind = p.kind ∧ t.span.slice bytes = .ok p.lexeme) l.pieces ts

theorem Layout.lossless {l : Layout} (h : l.Settled) :
    Lossless l.bytes (Piece.tokens 0 l.pieces) where
  no_end _ ht := Piece.kind_ne_of_mem_tokens ht
  nonempty t ht := by
    rcases Piece.exists_of_mem_tokens ht with ⟨before, p, after, -, rfl⟩
    exact Piece.start_lt_stop _ p
  ordered := Piece.isChain_tokens 0 l.pieces
  within t ht := by
    rcases Piece.exists_of_mem_tokens ht with ⟨before, p, after, hp, rfl⟩
    rw [l.bytes_of_pieces hp, Piece.stop_token, List.length_append, List.length_append]
    omega
  blank i b hb hi := by
    apply Piece.isBlank_of_not_mem_tokens (k := 0) l.isGap hb
    rwa [Nat.zero_add]
  opens t ht := by
    rcases Piece.exists_of_mem_tokens ht with ⟨before, p, after, hp, rfl⟩
    rcases p.spells.exists_head with ⟨b, rest, hl, hb⟩
    refine ⟨b, ?_, hb⟩
    have hdrop := Piece.drop_start_token (l.bytes_of_pieces hp)
    rw [Nat.zero_add, ← List.head?_drop, hdrop, hl]
    rfl
  illegal i t ht hk := by
    rcases Piece.exists_of_getElem?_tokens ht with ⟨before, p, after, hp, rfl, rfl⟩
    have hs : Piece.Settled l.tail (before ++ p :: after) := hp ▸ h
    have hend := (Piece.settled_append hs).illegal hk
    rcases List.append_eq_nil_iff.mp hend with ⟨hafter, -⟩
    have hlast : after = [] := by
      have hlen := Piece.length_le_length_join after
      rw [hafter] at hlen
      exact List.length_eq_zero_iff.mp (Nat.le_zero.mp hlen)
    subst hlast
    refine ⟨by simp [hp], ?_⟩
    rw [Piece.stop_token, l.bytes_of_pieces hp, hend]
    simp
  rebuilt := ⟨l, rfl, Piece.forall₂_slice_tokens l.tail [] rfl⟩

/--
Every source that has a buffer is tokenized. The end of the input comes once, behind all other
tokens and at the end of the bytes, and the other tokens lose nothing.
-/
theorem tokenize_lossless {source : Source} {bytes : Bytes} (h : source.buffer = .ok bytes) :
    ∃ ts, source.tokenize = .ok (ts ++ [Token.endOf bytes]) ∧ Lossless bytes ts ∧
      ts.length ≤ bytes.length := by
  rcases exists_layout bytes with ⟨l, rfl, hs⟩
  have hahead := (ahead_tokens_iff (Nat.zero_le _) List.drop_zero).mpr hs
  refine ⟨_, (Source.tokenize_eq_iff h).mpr hahead, l.lossless hs, ?_⟩
  simpa using hahead.length_le

theorem tokenize_lossless_unclosed :
    let bytes := [Byte.newline, Byte.quote, Byte.backslash, Byte.quote, 0xFF, Byte.space]
    (Source.bytes bytes).buffer = .ok bytes ∧
      ∃ ts, (Source.bytes bytes).tokenize = .ok (ts ++ [Token.endOf bytes]) ∧
        Lossless bytes ts ∧ ts.length ≤ bytes.length :=
  ⟨rfl, tokenize_lossless rfl⟩

end LetLang
