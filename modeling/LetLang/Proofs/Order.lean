import LetLang.Proofs.Reported

/-!
# The order of diagnostics

What the calls of a parse find instead of what they expect, they find further and further on: a call
starts behind the last token of the call before it. A later token is at a later position, whatever
newlines lie in between, so the diagnostics of a parse come in the order of their positions.

Main statement: `parse_diagnostics_in_order`.
-/

namespace LetLang

/-- How the diagnostics of a parse stand in its source, of which these are the tokens. -/
structure InOrder (bytes : Bytes) (tokens : List Token) (diagnostics : List Diagnostic) : Prop where
  increasing : diagnostics.Pairwise fun d e => d.position < e.position
  about : ∀ d ∈ diagnostics, ∃ t ∈ tokens,
    t.kind = d.found ∧ t.span.position bytes = .ok d.position
  end_last : ∀ (i : Nat) (d : Diagnostic), diagnostics[i]? = some d → d.found = .endOfInput →
    i + 1 = diagnostics.length ∧ d.position = Position.after bytes

/-- A diagnostic is about the token that the reading found, and names its place. -/
theorem Reading.exists_found_of_diagnostic {bytes : Bytes} {r : Reading} {d : Diagnostic}
    (h : r.diagnostic? bytes = some d) :
    ∃ t, r.found? = some t ∧ t.kind = d.found ∧ d.position = t.place bytes := by
  cases r with
  | complete ts => contradiction
  | mismatch accepted expected found =>
      rw [diagnostic?, Option.some.injEq] at h
      subst h
      exact ⟨found, rfl, rfl, rfl⟩

namespace Ahead

variable {bytes : Bytes} {k : Nat} {ts : List Token} {t u : Token}

theorem place_lt (h : Ahead bytes k ts) (hu : u ∈ ts ++ [Token.endOf bytes])
    (hlt : t.span.start < u.span.start) : t.place bytes < u.place bytes :=
  Position.after_take_lt hlt (h.start_le hu)

/-- Only the last token has the kind of the end of the input. -/
theorem eq_endOf_of_kind (h : Ahead bytes k ts) (ht : t ∈ ts ++ [Token.endOf bytes])
    (hkind : t.kind = .endOfInput) : t = Token.endOf bytes := by
  rcases List.mem_append.mp ht with ht | ht
  · exact absurd hkind (h.kind_ne ht)
  · exact List.mem_singleton.mp ht

section Found

variable {rs : List Reading} {d : Diagnostic}

/-- A diagnostic is about one of the tokens that the readings found. -/
theorem exists_token_of_diagnostic
    (hfound : (rs.filterMap Reading.found?).Sublist (ts ++ [Token.endOf bytes]))
    (hd : d ∈ rs.filterMap (Reading.diagnostic? bytes)) :
    ∃ t ∈ ts ++ [Token.endOf bytes], t.kind = d.found ∧ d.position = t.place bytes := by
  rcases List.mem_filterMap.mp hd with ⟨r, hr, hdiagnostic⟩
  rcases Reading.exists_found_of_diagnostic hdiagnostic with ⟨t, ht, hkind, hplace⟩
  exact ⟨t, hfound.subset (List.mem_filterMap.mpr ⟨r, hr, ht⟩), hkind, hplace⟩

/-- Where tokens are found further and further on, so are the positions of the diagnostics. -/
theorem pairwise_position_lt (h : Ahead bytes k ts)
    (hfound : (rs.filterMap Reading.found?).Sublist (ts ++ [Token.endOf bytes])) :
    (rs.filterMap (Reading.diagnostic? bytes)).Pairwise fun d e => d.position < e.position := by
  have hstarts := h.pairwise_start_lt.sublist hfound
  rw [List.pairwise_filterMap] at hstarts ⊢
  apply hstarts.imp_of_mem
  intro r s _ hs hlt d hd e he
  rcases Reading.exists_found_of_diagnostic hd with ⟨t, ht, -, hplace⟩
  rcases Reading.exists_found_of_diagnostic he with ⟨u, hu, -, hplace'⟩
  rw [hplace, hplace']
  exact h.place_lt (hfound.subset (List.mem_filterMap.mpr ⟨s, hs, hu⟩)) (hlt t ht u hu)

theorem inOrder (h : Ahead bytes k ts)
    (hfound : (rs.filterMap Reading.found?).Sublist (ts ++ [Token.endOf bytes])) :
    InOrder bytes (ts ++ [Token.endOf bytes]) (rs.filterMap (Reading.diagnostic? bytes)) := by
  have hincreasing := h.pairwise_position_lt hfound
  constructor
  case increasing => exact hincreasing
  case about =>
    intro d hd
    rcases exists_token_of_diagnostic hfound hd with ⟨t, ht, hkind, hplace⟩
    refine ⟨t, ht, hkind, ?_⟩
    rw [hplace]
    exact Span.position_of_le (h.stop_le_of_mem_append ht)
  case end_last =>
    intro i d hd hend
    rcases exists_token_of_diagnostic hfound (List.mem_of_getElem? hd) with ⟨t, ht, hkind, hplace⟩
    have hposition : d.position = Position.after bytes := by
      rw [hplace, h.eq_endOf_of_kind ht (hkind.trans hend), Token.place]
      exact congrArg Position.after (List.take_length)
    refine ⟨?_, hposition⟩
    -- A diagnostic behind this one would name a position behind the end.
    by_contra hnot
    rcases List.getElem?_eq_some_iff.mp hd with ⟨hi, hget⟩
    have hnext : i + 1 < (rs.filterMap (Reading.diagnostic? bytes)).length := by omega
    have hlt := List.pairwise_iff_getElem.mp hincreasing i (i + 1) hi hnext (Nat.lt_succ_self i)
    rcases exists_token_of_diagnostic hfound (List.getElem_mem hnext) with ⟨u, -, -, hu⟩
    rw [hget, hposition, hu] at hlt
    exact Position.not_after_lt_after_take bytes u.span.start hlt

end Found

end Ahead

/-- Messages that name different positions are different. -/
theorem Diagnostic.nodup_messages {diagnostics : List Diagnostic}
    (h : diagnostics.Pairwise fun d e => d.position < e.position) :
    (diagnostics.map message).Nodup := by
  apply List.pairwise_map.mpr
  apply h.imp
  intro d e hlt hsame
  apply Position.ne_of_lt hlt
  have he := e.says_message
  rw [← hsame] at he
  exact d.says_message.position_unique he

/--
The diagnostics of a parse, with or without a limit, come in strictly increasing order of lines and
columns, so their messages are all different. Each names a token of the source, by kind and
position. The end of the input is named by the last one at most, and at the end of the source.
-/
theorem parse_diagnostics_in_order {source : Source} {bytes : Bytes}
    (h : source.buffer = .ok bytes) (limit : Option Int) :
    ∃ tokens statements diagnostics log, source.tokenize = .ok tokens ∧
      source.parse false limit =
        (.ok { statements, diagnostics := diagnostics.map Diagnostic.message }, log) ∧
      (diagnostics.map Diagnostic.message).Nodup ∧ InOrder bytes tokens diagnostics := by
  rcases exists_ahead (Nat.zero_le bytes.length) with ⟨ts, hahead⟩
  have hstop : (Token.endOf bytes).kind = .endOfInput := rfl
  have hfirst := List.take_sublist (callBound limit bytes.length)
    (Production.readings (Token.endOf bytes) ts)
  have hfound := (hfirst.filterMap Reading.found?).trans (Production.found_sublist hstop ts)
  have horder := hahead.inOrder hfound
  exact ⟨_, _, _, _, (Source.tokenize_eq_iff h).mpr hahead,
    Source.parse_false (Source.collect_of_ahead limit h hahead),
    Diagnostic.nodup_messages horder.increasing, horder⟩

/-- Two diagnostics on one line, one on the next and one about the end, as the limit allows. -/
theorem parse_diagnostics_in_order_lines :
    let bytes := "; ;\nx let".toList.map Char.toUInt8
    (Source.bytes bytes).buffer = .ok bytes ∧
      ∃ tokens statements diagnostics log, (Source.bytes bytes).tokenize = .ok tokens ∧
        (Source.bytes bytes).parse false (some 4) =
          (.ok { statements, diagnostics := diagnostics.map Diagnostic.message }, log) ∧
        (diagnostics.map Diagnostic.message).Nodup ∧ InOrder bytes tokens diagnostics := by
  intro bytes
  exact ⟨rfl, @parse_diagnostics_in_order (Source.bytes bytes) bytes rfl (some 4)⟩

end LetLang
