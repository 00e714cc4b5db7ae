import Mathlib.Data.Set.List
import LetLang.Proofs.Locality

/-!
# Tokens and characters

A text is scanned through its bytes, by a scanner that knows nothing of characters. Blanks,
delimiters, quotes and the bytes of symbols are characters of their own (`Utf8.IsSingle`), and such
a byte stands in no other character. So bytes that spell characters can be cut before and behind it
(`Utf8.exists_split_of_head`, `Utf8.exists_split_of_last`), and every token starts and ends at such
a cut or at an end of the source.

Main statement: `tokens_cover_characters`. From any place between two characters, a scan finds a
token that covers whole characters, and so it is with every token of a source.
-/

namespace LetLang

/-! ## Reading characters back -/

namespace Utf8

theorem first?_append (c : Char) (rest : Bytes) :
    first? (String.utf8EncodeChar c ++ rest) = some c := by
  have hlength : (String.utf8EncodeChar c).length ≤ 4 := by
    rw [String.length_utf8EncodeChar]
    exact c.utf8Size_le_four
  rw [first?, List.take_append, List.take_of_length_le hlength, List.toByteArray_append]
  exact ByteArray.utf8DecodeChar?_utf8EncodeChar_append

/-- No character is spelled by the first bytes of another one. -/
theorem char_unique {c d : Char} {x y : Bytes}
    (h : String.utf8EncodeChar c ++ x = String.utf8EncodeChar d ++ y) : c = d := by
  have hc := first?_append c x
  rw [h, first?_append] at hc
  exact (Option.some.inj hc).symm

/-- Decoding takes a whole character off the bytes. -/
theorem decode_encodeChar_append (c : Char) (rest : Bytes) :
    decode (String.utf8EncodeChar c ++ rest) = c :: decode rest := by
  obtain ⟨b, more, hc⟩ := List.exists_cons_of_ne_nil (@String.utf8EncodeChar_ne_nil c)
  have hfirst := first?_append c rest
  have hsize : c.utf8Size - 1 = more.length := by
    rw [← String.length_utf8EncodeChar, hc]
    rfl
  rw [hc, List.cons_append] at hfirst ⊢
  rw [decode, hfirst]
  simp only [hsize, List.drop_left]

theorem decode_encode (cs : List Char) : decode (encode cs) = cs := by
  induction cs with
  | nil => rw [encode_nil, decode]
  | cons c cs ih => rw [encode_cons, decode_encodeChar_append, ih]

/-! ## Bytes that are characters of their own -/

/-- The byte alone spells a character. -/
def IsSingle (b : UInt8) : Prop := ∃ c, String.utf8EncodeChar c = [b]

theorem IsSingle.isUTF8FirstByte {b : UInt8} (h : IsSingle b) : b.IsUTF8FirstByte := by
  obtain ⟨c, hc⟩ := h
  have hfirst := @UInt8.isUTF8FirstByte_getElem_zero_utf8EncodeChar c
  simpa only [hc, List.getElem_cons_zero] using hfirst

theorem isSingle_of_mem {b : UInt8} (h : b ∈ Byte.delimiters ++ Byte.openers) : IsSingle b := by
  have spelled : (Byte.delimiters ++ Byte.openers).all
      (fun b => String.utf8EncodeChar (Char.ofNat b.toNat) = [b]) = true := by decide
  exact ⟨_, of_decide_eq_true (List.all_eq_true.mp spelled b h)⟩

theorem isSingle_of_isDelimiter {b : UInt8} (h : Byte.isDelimiter b = true) : IsSingle b :=
  isSingle_of_mem (List.mem_append_left _ (by simpa [Byte.isDelimiter] using h))

theorem isSingle_of_mem_symbol {s : Symbol} {b : UInt8} (h : b ∈ s.lexeme) : IsSingle b := by
  have listed : s.lexeme.all (· ∈ Byte.delimiters ++ Byte.openers) = true := by
    cases s <;> decide
  exact isSingle_of_mem (of_decide_eq_true (List.all_eq_true.mp listed b h))

variable {cs : List Char} {front rest : Bytes}

/-- Such a byte stands in no other character. -/
theorem exists_char_of_isSingle {b : UInt8} (hb : IsSingle b)
    (h : encode cs = front ++ b :: rest) :
    ∃ before c after, cs = before ++ c :: after ∧ encode before = front ∧
      String.utf8EncodeChar c = [b] ∧ encode after = rest := by
  induction cs generalizing front with
  | nil => simp at h
  | cons c cs ih =>
      rw [encode_cons] at h
      have skip : ∀ front', front = String.utf8EncodeChar c ++ front' →
          encode cs = front' ++ b :: rest →
          ∃ before d after, c :: cs = before ++ d :: after ∧ encode before = front ∧
            String.utf8EncodeChar d = [b] ∧ encode after = rest := by
        rintro front' rfl hrest
        obtain ⟨before, d, after, rfl, rfl, hd, hafter⟩ := ih hrest
        exact ⟨c :: before, d, after, rfl, encode_cons c before, hd, hafter⟩
      rcases List.append_eq_append_iff.mp h with ⟨front', hfront, hrest⟩ | ⟨inside, hc, hrest⟩
      · exact skip front' hfront hrest
      · cases inside with
        | nil => exact skip [] (by simpa using hc.symm) (by simpa using hrest.symm)
        | cons b' inside =>
            obtain ⟨rfl, rfl⟩ := List.cons_eq_cons.mp hrest
            -- The byte opens a character, so nothing of this one comes before it.
            have hzero : front.length = 0 := by
              have hi : front.length < (String.utf8EncodeChar c).length := by
                rw [hc, List.length_append, List.length_cons]
                omega
              apply (@UInt8.isUTF8FirstByte_getElem_utf8EncodeChar c _ hi).mp
              simpa only [hc, List.getElem_append_right (Nat.le_refl _), Nat.sub_self,
                List.getElem_cons_zero] using hb.isUTF8FirstByte
            obtain rfl := List.length_eq_zero_iff.mp hzero
            obtain ⟨d, hd⟩ := hb
            have hsame : c = d := by
              apply @char_unique c d [] inside
              rw [hc, hd]
              simp
            subst hsame
            rw [hd, List.nil_append] at hc
            obtain ⟨-, rfl⟩ := List.cons_eq_cons.mp hc
            exact ⟨[], c, cs, rfl, rfl, hd, rfl⟩

/-- The bytes can be cut before a byte that is a character of its own, and at their end. -/
theorem exists_split_of_head (hrest : ∀ b, rest.head? = some b → IsSingle b)
    (h : encode cs = front ++ rest) :
    ∃ before after, cs = before ++ after ∧ encode before = front ∧ encode after = rest := by
  cases rest with
  | nil => exact ⟨cs, [], by simp, by simpa using h, rfl⟩
  | cons b rest =>
      obtain ⟨before, c, after, rfl, hbefore, hc, hafter⟩ :=
        exists_char_of_isSingle (hrest b rfl) h
      refine ⟨before, c :: after, rfl, hbefore, ?_⟩
      rw [encode_cons, hc, hafter]
      rfl

/-- The bytes can be cut behind a byte that is a character of its own, and at their start. -/
theorem exists_split_of_last (hfront : ∀ b, front.getLast? = some b → IsSingle b)
    (h : encode cs = front ++ rest) :
    ∃ before after, cs = before ++ after ∧ encode before = front ∧ encode after = rest := by
  rcases List.eq_nil_or_concat front with rfl | ⟨init, b, rfl⟩
  · exact ⟨[], cs, rfl, rfl, h⟩
  · rw [List.concat_eq_append] at h hfront ⊢
    rw [List.append_assoc] at h
    obtain ⟨before, c, after, rfl, hbefore, hc, hafter⟩ :=
      exists_char_of_isSingle (hfront b (by simp)) h
    refine ⟨before ++ [c], after, by simp, ?_, hafter⟩
    rw [encode_append, hbefore, encode_cons, hc]
    rfl

end Utf8

/-! ## Tokens cut no character -/

/-- A lexeme ends with a character of its own, or what follows it starts with one. -/
theorem TokenKind.Spells.isSingle_at_end {kind : TokenKind} {lexeme tail : Bytes}
    (h : kind.Spells lexeme) (hstop : kind.StopsBefore tail) :
    (∀ b, lexeme.getLast? = some b → Utf8.IsSingle b) ∨
      ∀ b, tail.head? = some b → Utf8.IsSingle b := by
  have word (hw : kind.isWord = true) : ∀ b, tail.head? = some b → Utf8.IsSingle b :=
    fun b hb => Utf8.isSingle_of_isDelimiter (hstop.word hw b hb)
  cases kind with
  | illegal =>
      right
      intro b hb
      rw [hstop.illegal rfl] at hb
      contradiction
  | endOfInput => exact h.elim
  | string =>
      left
      obtain ⟨body, rfl, -, -⟩ := h
      intro b hb
      rw [← List.cons_append, List.getLast?_concat] at hb
      obtain rfl := Option.some.inj hb
      exact Utf8.isSingle_of_mem (by decide)
  | symbol s =>
      left
      intro b hb
      have hl : lexeme = s.lexeme := h
      exact Utf8.isSingle_of_mem_symbol (hl ▸ List.mem_of_getLast? hb)
  | identifier => exact Or.inr (word rfl)
  | integer => exact Or.inr (word rfl)
  | keyword k => exact Or.inr (word rfl)

theorem Piece.exists_characters {cs : List Char} {p : Piece} {tail : Bytes}
    (h : Utf8.encode cs = p.bytes ++ tail) (hstop : p.kind.StopsBefore tail) :
    ∃ gap lexeme after, cs = gap ++ lexeme ++ after ∧ Utf8.encode gap = p.gap ∧
      Utf8.encode lexeme = p.lexeme := by
  rw [Piece.bytes, List.append_assoc] at h
  have hgap : ∀ b, p.gap.getLast? = some b → Utf8.IsSingle b := fun b hb =>
    Utf8.isSingle_of_isDelimiter
      (Byte.isDelimiter_of_isBlank (p.isGap b (List.mem_of_getLast? hb)))
  obtain ⟨gap, rest, rfl, hbefore, hrest⟩ := Utf8.exists_split_of_last hgap h
  have hlexeme : ∃ lexeme after, rest = lexeme ++ after ∧ Utf8.encode lexeme = p.lexeme ∧
      Utf8.encode after = tail := by
    rcases p.spells.isSingle_at_end hstop with hlast | hhead
    · exact Utf8.exists_split_of_last hlast hrest
    · exact Utf8.exists_split_of_head hhead hrest
  obtain ⟨lexeme, after, rfl, hl, -⟩ := hlexeme
  exact ⟨gap, lexeme, after, (List.append_assoc _ _ _).symm, hbefore, hl⟩

/-- The offset is that of a character, or the end. -/
def Utf8.IsBoundary (cs : List Char) (k : Nat) : Prop :=
  ∃ before after, cs = before ++ after ∧ k = (encode before).length

/--
The span starts at a character and ends at one or at the end. In the text it is the characters in
between, and in the bytes of the text it is exactly what these are encoded to.
-/
structure Span.Covers (span : Span) (before covered after : List Char) : Prop where
  start : span.start = (Utf8.encode before).length
  stop : span.stop = (Utf8.encode (before ++ covered)).length
  text : span.lexemeIn (.text ((before ++ covered ++ after).map .scalar)) =
    .ok (.text (String.ofList covered))
  bytes : span.lexemeIn (.bytes (Utf8.encode (before ++ covered ++ after))) =
    .ok (.bytes (Utf8.encode covered))

/-- The span covers some of the characters and no part of another one. -/
def Span.CoversPartOf (span : Span) (cs : List Char) : Prop :=
  ∃ before covered after, cs = before ++ covered ++ after ∧ span.Covers before covered after

theorem Text.encode_map_scalar (cs : List Char) :
    Text.encode (cs.map .scalar) = .ok (Utf8.encode cs) := by
  have h := Text.encode_ofString (String.ofList cs)
  rwa [Text.ofString, String.toList_ofList] at h

theorem Source.buffer_map_scalar (cs : List Char) :
    (Source.text (cs.map .scalar)).buffer = .ok (Utf8.encode cs) := by
  rw [buffer, Text.encode_map_scalar]

theorem Span.covers {span : Span} {before covered : List Char} (after : List Char)
    (hstart : span.start = (Utf8.encode before).length)
    (hstop : span.stop = (Utf8.encode (before ++ covered)).length) :
    span.Covers before covered after := by
  have hslice : span.slice (Utf8.encode (before ++ covered ++ after)) =
      .ok (Utf8.encode covered) := by
    have hle : span.stop ≤ (Utf8.encode (before ++ covered ++ after)).length := by
      rw [hstop, Utf8.encode_append (before ++ covered), List.length_append]
      exact Nat.le_add_right _ _
    have hwidth : span.width = (Utf8.encode covered).length := by
      rw [width, hstart, hstop, Utf8.encode_append, List.length_append, Nat.add_sub_cancel_left]
    rw [slice_of_le hle, hwidth, hstart, List.append_assoc, Utf8.encode_append, List.drop_left,
      Utf8.encode_append, List.take_left]
  refine ⟨hstart, hstop, ?_, ?_⟩
  · rw [lexemeIn, Source.buffer_map_scalar]
    simp only [hslice, Source.lexeme, Utf8.decode_encode]
  · rw [lexemeIn, Source.buffer_bytes]
    simp only [hslice, Source.lexeme]

/-- From a place between two characters, a scan finds whole characters. -/
theorem coversPartOf_of_scan {cs : List Char} {k : Nat} {t : Token} (hk : Utf8.IsBoundary cs k)
    (h : scan (Utf8.encode cs) k = .ok t) :
    t.span.CoversPartOf cs ∧ Utf8.IsBoundary cs t.span.stop := by
  obtain ⟨front, rest, rfl, rfl⟩ := hk
  by_cases ht : t.kind = .endOfInput
  · have hend : t = Token.endOf (Utf8.encode (front ++ rest)) := by
      obtain ⟨ts, hts⟩ : ∃ ts, Ahead (Utf8.encode (front ++ rest)) (Utf8.encode front).length ts :=
        exists_ahead (by simp)
      cases ts with
      | nil => exact Except.ok.inj (h.symm.trans hts)
      | cons u us => exact absurd ht (Except.ok.inj (h.symm.trans hts.1) ▸ hts.2.1)
    subst hend
    refine ⟨⟨front ++ rest, [], [], by simp, Span.covers [] rfl ?_⟩, ?_⟩
    · rw [List.append_nil]
      rfl
    · exact ⟨front ++ rest, [], by simp, rfl⟩
  · obtain ⟨p, tail, hdrop, rfl, hstop⟩ := scan_spec h ht
    rw [Utf8.encode_append, List.drop_left] at hdrop
    obtain ⟨gap, lexeme, after, rfl, hgap, hlexeme⟩ := Piece.exists_characters hdrop hstop
    have hend : (p.token (Utf8.encode front).length).span.stop =
        (Utf8.encode (front ++ gap ++ lexeme)).length := by
      simp only [Piece.stop_token, Piece.length_bytes, Utf8.encode_append, List.length_append,
        hgap, hlexeme]
      omega
    refine ⟨⟨front ++ gap, lexeme, after, by simp, Span.covers after ?_ hend⟩, ?_⟩
    · simp only [Piece.start_token, Utf8.encode_append, List.length_append, hgap]
    · exact ⟨front ++ gap ++ lexeme, after, by simp, hend⟩

theorem Ahead.coversPartOf {cs : List Char} {k : Nat} {ts : List Token}
    (h : Ahead (Utf8.encode cs) k ts) (hk : Utf8.IsBoundary cs k) :
    ∀ t ∈ ts, t.span.CoversPartOf cs := by
  -- A token ends between two characters, and the next scan starts there.
  induction ts generalizing k with
  | nil => simp
  | cons t ts ih =>
      obtain ⟨hcovers, hstop⟩ := coversPartOf_of_scan hk h.1
      intro u hu
      rcases List.mem_cons.mp hu with rfl | hu
      · exact hcovers
      · exact ih h.2.2 hstop u hu

theorem Text.exists_chars_of_encode {t : Text} {bytes : Bytes} (h : t.encode = .ok bytes) :
    ∃ cs : List Char, t = cs.map .scalar ∧ bytes = Utf8.encode cs := by
  have hnone : t.surrogates? = none := by
    cases hs : t.surrogates? with
    | none => rfl
    | some run =>
        rw [encode, hs] at h
        contradiction
  have hscalar : ∀ p ∈ t, ∃ c, CodePoint.scalar c = p := by
    intro p hp
    have hall : t.dropWhile (fun p => !p.isSurrogate) = [] := by
      cases hd : t.dropWhile (fun p => !p.isSurrogate) with
      | nil => rfl
      | cons p rest => simp [surrogates?, hd] at hnone
    have hplain := List.dropWhile_eq_nil_iff.mp hall p hp
    cases p with
    | scalar c => exact ⟨c, rfl⟩
    | surrogate index => contradiction
  obtain ⟨cs, rfl⟩ : t ∈ Set.range (List.map CodePoint.scalar) := by
    rw [Set.range_list_map]
    exact hscalar
  rw [encode_map_scalar] at h
  exact ⟨cs, rfl, (Except.ok.inj h).symm⟩

/--
A text without surrogates is a list of characters. From the offset of any character, a scan finds a
token that covers whole characters, and every token of the text covers whole characters.
-/
theorem tokens_cover_characters {t : Text} {bytes : Bytes} (h : t.encode = .ok bytes) :
    ∃ cs : List Char, t = cs.map .scalar ∧ bytes = Utf8.encode cs ∧
      (∀ k : Nat, Utf8.IsBoundary cs k →
        ∃ token, (Source.text t).scan k = .ok token ∧ token.span.CoversPartOf cs) ∧
      ∃ ts, (Source.text t).tokenize = .ok ts ∧ ∀ token ∈ ts, token.span.CoversPartOf cs := by
  obtain ⟨cs, rfl, rfl⟩ := Text.exists_chars_of_encode h
  have hbuffer := Source.buffer_map_scalar cs
  refine ⟨cs, rfl, rfl, fun k hk => ?_, ?_⟩
  · obtain ⟨token, hscan, -⟩ := exists_scan_natCast (Utf8.encode cs) k
    refine ⟨token, ?_, (coversPartOf_of_scan hk hscan).1⟩
    rw [Source.scan, hbuffer]
    simp only [hscan]
  · have hstart : Utf8.IsBoundary cs 0 := ⟨[], cs, rfl, rfl⟩
    obtain ⟨ts, hts⟩ := exists_ahead (Nat.zero_le (Utf8.encode cs).length)
    refine ⟨_, (Source.tokenize_eq_iff hbuffer).mpr hts, ?_⟩
    intro token htoken
    rcases List.mem_append.mp htoken with htoken | htoken
    · exact hts.coversPartOf hstart token htoken
    · obtain rfl := List.mem_singleton.mp htoken
      have hend : Utf8.IsBoundary cs (Utf8.encode cs).length := ⟨cs, [], by simp, rfl⟩
      exact (coversPartOf_of_scan hend (ahead_length (Utf8.encode cs))).1

/-- A scan from between two characters passes over a blank and takes an identifier of four bytes. -/
theorem tokens_cover_characters_wide :
    let cs := ['é', ' ', '😀', ';']
    let t : Text := cs.map .scalar
    t.encode = .ok (Utf8.encode cs) ∧ Utf8.IsBoundary cs 2 ∧
      ∃ token, (Source.text t).scan 2 = .ok token ∧ token.span.CoversPartOf cs ∧
        token = { kind := .identifier, span := { start := 3, stop := 7 } } := by
  intro cs t
  have hencode : t.encode = .ok (Utf8.encode cs) := Text.encode_map_scalar cs
  have hboundary : Utf8.IsBoundary cs 2 := ⟨['é'], [' ', '😀', ';'], rfl, by decide⟩
  obtain ⟨ds, hds, -, hscan, -⟩ := tokens_cover_characters hencode
  have hscalar : Function.Injective CodePoint.scalar := fun _ _ => CodePoint.scalar.inj
  obtain rfl : cs = ds := List.map_injective_iff.mpr hscalar hds
  obtain ⟨token, htoken, hcovers⟩ := hscan 2 hboundary
  refine ⟨hencode, hboundary, token, htoken, hcovers, ?_⟩
  have hfound : (Source.text t).scan 2 =
      .ok { kind := .identifier, span := { start := 3, stop := 7 } } := by decide
  exact Except.ok.inj (htoken.symm.trans hfound)

end LetLang
