import LetLang.Proofs.Composition
import LetLang.Proofs.Limit

/-!
# What a parse depends on

A parse decides what to do by the kinds of tokens alone, so sources whose tokens have the same kinds
are read alike (`Production.readings_alike`), and what their calls yield differs in places only. A
place is named by line and column, and depends on where the newlines stand and on no other byte
(`Position.after_congr`).

Main statement: `parse_alike`.
-/

namespace LetLang

/-! ## Positions and newlines -/

/-- Newlines stand at the same offsets. -/
def SameNewlines (x y : Bytes) : Prop :=
  ∀ i : Nat, x[i]? = some Byte.newline ↔ y[i]? = some Byte.newline

theorem getElem?_map_beq {bytes : Bytes} {i : Nat} :
    (bytes.map (· == Byte.newline))[i]? = some true ↔ bytes[i]? = some Byte.newline := by
  rw [List.getElem?_map, Option.map_eq_some_iff]
  simp

theorem sameNewlines_of_map_eq {x y : Bytes}
    (h : x.map (· == Byte.newline) = y.map (· == Byte.newline)) : SameNewlines x y := by
  intro i
  rw [← getElem?_map_beq, ← getElem?_map_beq, h]

theorem SameNewlines.map_eq {x y : Bytes} (h : SameNewlines x y) (hlength : x.length = y.length) :
    x.map (· == Byte.newline) = y.map (· == Byte.newline) := by
  apply List.ext_getElem (by simpa using hlength)
  intro i hx hy
  have hi := h i
  rw [← getElem?_map_beq, ← getElem?_map_beq, List.getElem?_eq_getElem hx,
    List.getElem?_eq_getElem hy, Option.some.injEq, Option.some.injEq] at hi
  exact Bool.eq_iff_iff.mpr hi

namespace Position

theorem count_map_beq (bytes : Bytes) :
    (bytes.map (· == Byte.newline)).count true = bytes.count Byte.newline := by
  rw [List.count_eq_countP, List.countP_map, List.count_eq_countP]
  congr 1
  funext b
  simp

theorem idxOf_map_beq (bytes : Bytes) :
    (bytes.map (· == Byte.newline)).idxOf true = bytes.idxOf Byte.newline := by
  induction bytes with
  | nil => rfl
  | cons b bytes ih => cases h : b == Byte.newline <;> simp [List.idxOf_cons, h, ih]

/-- Which bytes are newlines is all that a position depends on. -/
theorem after_congr {x y : Bytes}
    (h : x.map (· == Byte.newline) = y.map (· == Byte.newline)) : after x = after y := by
  have hline := congrArg (List.count true) h
  have hcolumn := congrArg (fun marks => marks.reverse.idxOf true) h
  rw [count_map_beq, count_map_beq] at hline
  simp only [← List.map_reverse, idxOf_map_beq] at hcolumn
  rw [after, after, hline, hcolumn]

theorem after_take_congr {x y : Bytes} (hlength : x.length = y.length) (h : SameNewlines x y)
    (i : Nat) : after (x.take i) = after (y.take i) := by
  apply after_congr
  rw [List.map_take, List.map_take, h.map_eq hlength]

end Position

/-! ## Readings of tokens of the same kinds -/

/-- A token of the kind, without a place of its own. -/
def TokenKind.bare (kind : TokenKind) : Token where
  kind := kind
  span := { start := 0, stop := 0 }

/-- The reading with only the kinds of its tokens. -/
def Reading.bare (r : Reading) : Reading := r.map fun t => t.kind.bare

/-- From tokens of the same kinds the same is read, but for places. -/
theorem Production.readings_alike {stop stop' : Token} {ts us : List Token}
    (hstop : stop.kind = stop'.kind) (h : ts.map Token.kind = us.map Token.kind) :
    (readings stop ts).map Reading.bare = (readings stop' us).map Reading.bare := by
  have hbare : ts.map (fun t => t.kind.bare) = us.map (fun t => t.kind.bare) := by
    have hkinds := congrArg (List.map TokenKind.bare) h
    rwa [List.map_map, List.map_map] at hkinds
  have hkind : ∀ t : Token, t.kind.bare.kind = t.kind := fun _ => rfl
  have hleft := readings_map hkind stop ts
  have hright := readings_map hkind stop' us
  rw [hstop, hbare] at hleft
  exact hleft.symm.trans hright

/-! ## Alike yields -/

/-- The two messages are the same up to the position that they name at the end. -/
def SameBeforePlace (m n : String) : Prop :=
  ∃ (text : String) (p q : Position), m = text ++ " at " ++ p.text ∧ n = text ++ " at " ++ q.text

/-- Both calls yield a statement, with values of one kind, or messages that differ in the place. -/
inductive Yield.Alike : Yield → Yield → Prop
  | statement {s t : Statement} (h : s.value.token.kind = t.value.token.kind) :
      Alike (.statement s) (.statement t)
  | message {m n : String} (h : SameBeforePlace m n) : Alike (.message m) (.message n)

theorem Reading.Yields.alike {x y : Bytes} {r s : Reading} {v w : Yield} (h : r.bare = s.bare)
    (hv : r.Yields x v) (hw : s.Yields y w) : v.Alike w := by
  cases hv with
  | @statement ts first hts =>
      cases hw with
      | @statement us second hus =>
          have htokens := Reading.complete.inj h
          have hfirst := Statement.ofTokens?_map (fun t => t.kind.bare) hts
          have hsecond := Statement.ofTokens?_map (fun t => t.kind.bare) hus
          rw [htokens, hsecond] at hfirst
          have hvalue := congrArg (fun s => s.value.token.kind) (Option.some.inj hfirst)
          exact .statement hvalue.symm
      | message accepted expected found => contradiction
  | message accepted expected found =>
      cases hw with
      | statement hus => contradiction
      | message accepted' expected' found' =>
          rcases Reading.mismatch.inj h with ⟨-, rfl, hfound⟩
          have hkind := congrArg Token.kind hfound
          change found.kind = found'.kind at hkind
          rw [hkind]
          exact .message ⟨_, _, _, rfl, rfl⟩

theorem Reading.forall₂_alike {x y : Bytes} {rs ss : List Reading} {vs ws : List Yield}
    (h : rs.map bare = ss.map bare) (hvs : List.Forall₂ (Reading.Yields x) rs vs)
    (hws : List.Forall₂ (Reading.Yields y) ss ws) : List.Forall₂ Yield.Alike vs ws := by
  induction hvs generalizing ss ws with
  | nil =>
      obtain rfl := List.map_eq_nil_iff.mp h.symm
      cases hws
      exact .nil
  | cons hv _ ih =>
      cases hws with
      | nil => contradiction
      | cons hw hrest =>
          rcases List.cons_eq_cons.mp h with ⟨hhead, htail⟩
          exact .cons (hv.alike hhead hw) (ih htail hrest)

/-- Where the calls yield alike, the diagnostics come in pairs. -/
theorem Yield.forall₂_diagnostics {vs ws : List Yield} (h : List.Forall₂ Alike vs ws) :
    List.Forall₂ SameBeforePlace (ParseResult.ofYields vs).diagnostics
      (ParseResult.ofYields ws).diagnostics := by
  induction h with
  | nil => exact .nil
  | cons hv _ ih =>
      cases hv with
      | statement => exact ih
      | message hsame => exact .cons hsame ih

/-! ## Parses of two sources -/

/-- Positions of the same offsets are all that makes messages about the same readings differ. -/
theorem Reading.messages_congr {x y : Bytes}
    (h : ∀ i, Position.after (x.take i) = Position.after (y.take i)) (rs : List Reading) :
    messages x rs = messages y rs := by
  have hdiagnostic : diagnostic? x = diagnostic? y := by
    funext r
    cases r with
    | complete ts => rfl
    | mismatch accepted expected found => rw [diagnostic?, diagnostic?, h]
  rw [messages, messages, hdiagnostic]

/-- Equal results make equal parses, strict or not. -/
theorem Source.Yields.parse_eq {a b : Source} {limit : Option Int} {ys zs : List Yield}
    (ha : a.Yields limit ys) (hb : b.Yields limit zs)
    (h : ParseResult.ofYields ys = ParseResult.ofYields zs) (strict : Bool) :
    (a.parse strict limit).1 = (b.parse strict limit).1 := by
  cases strict with
  | false => rw [ha.parses, hb.parses, h]
  | true =>
      have hmessages := congrArg ParseResult.diagnostics h
      rw [ha.parse_true, hb.parse_true, h]
      simp only [ParseResult.ofYields] at hmessages
      rw [hmessages]

section

variable {x y : Bytes} {ts us : List Token} {ys zs : List Yield} (limit : Option Int)
  (hys : List.Forall₂ (Reading.Yields x) (Production.readings (Token.endOf x) ts) ys)
  (hzs : List.Forall₂ (Reading.Yields y) (Production.readings (Token.endOf y) us) zs)

include hys hzs

/-- The limit cuts both runs in the same place. -/
theorem forall₂_take_alike
    (h : (ts ++ [Token.endOf x]).map Token.kind = (us ++ [Token.endOf y]).map Token.kind) :
    List.Forall₂ Yield.Alike (ys.take (callBound limit ys.length))
      (zs.take (callBound limit zs.length)) := by
  rw [List.map_append, List.map_append] at h
  have hkinds := (List.append_inj' h rfl).1
  have hreadings := @Production.readings_alike (Token.endOf x) (Token.endOf y) ts us rfl hkinds
  have halike := Reading.forall₂_alike hreadings hys hzs
  rw [halike.length_eq]
  exact List.forall₂_take _ halike

/-- From the same tokens the same is read, places included. -/
theorem exists_readings_of_same (h : ts ++ [Token.endOf x] = us ++ [Token.endOf y]) :
    x.length = y.length ∧
      ∃ rs, List.Forall₂ (Reading.Yields x) rs (ys.take (callBound limit ys.length)) ∧
        List.Forall₂ (Reading.Yields y) rs (zs.take (callBound limit zs.length)) := by
  rcases List.append_inj' h rfl with ⟨rfl, hend⟩
  have hstop := List.singleton_inj.mp hend
  rw [← hstop] at hzs
  rw [← hys.length_eq, ← hzs.length_eq]
  exact ⟨congrArg (fun t => t.span.stop) hstop, _, List.forall₂_take _ hys,
    List.forall₂_take _ hzs⟩

end

/--
A parse depends on its source through the kinds of the tokens, their spans and the places of the
newlines. If the tokens of two sources have the same kinds, the calls are as many and yield alike.
If the tokens are the same, so are the statements, and if the newlines stand at the same offsets as
well, the results are.
-/
theorem parse_alike {a b : Source} {x y : Bytes} (ha : a.buffer = .ok x) (hb : b.buffer = .ok y)
    (limit : Option Int) :
    ∃ ts us ys zs, a.tokenize = .ok ts ∧ b.tokenize = .ok us ∧
      a.Yields limit ys ∧ b.Yields limit zs ∧
      (ts.map Token.kind = us.map Token.kind →
        List.Forall₂ Yield.Alike ys zs ∧
          List.Forall₂ SameBeforePlace (ParseResult.ofYields ys).diagnostics
            (ParseResult.ofYields zs).diagnostics) ∧
      (ts = us →
        (ParseResult.ofYields ys).statements = (ParseResult.ofYields zs).statements) ∧
      (ts = us → SameNewlines x y → ∀ strict : Bool,
        (a.parse strict limit).1 = (b.parse strict limit).1) := by
  rcases exists_ahead (Nat.zero_le x.length) with ⟨ts, hts⟩
  rcases exists_ahead (Nat.zero_le y.length) with ⟨us, hus⟩
  rcases Production.exists_yields x (Token.endOf x) ts with ⟨ys, hys⟩
  rcases Production.exists_yields y (Token.endOf y) us with ⟨zs, hzs⟩
  have hfirst := Source.yields_of_ahead ha hts hys limit
  have hsecond := Source.yields_of_ahead hb hus hzs limit
  refine ⟨_, _, _, _, (Source.tokenize_eq_iff ha).mpr hts, (Source.tokenize_eq_iff hb).mpr hus,
    hfirst, hsecond, ?_, ?_, ?_⟩
  · intro hkinds
    have halike := forall₂_take_alike limit hys hzs hkinds
    exact ⟨halike, Yield.forall₂_diagnostics halike⟩
  · intro hsame
    rcases exists_readings_of_same limit hys hzs hsame with ⟨-, rs, hx, hy⟩
    rw [← Reading.result_eq_ofYields hx, ← Reading.result_eq_ofYields hy]
  · intro hsame hnewlines
    rcases exists_readings_of_same limit hys hzs hsame with ⟨hlength, rs, hx, hy⟩
    have hplaces := Position.after_take_congr hlength hnewlines
    apply hfirst.parse_eq hsecond
    rw [← Reading.result_eq_ofYields hx, ← Reading.result_eq_ofYields hy,
      Reading.messages_congr hplaces]

/-- Another name, another value and other blanks, and newlines in the same places. -/
theorem parse_alike_renamed :
    let x := "let a = \"1\n\"; +".toList.map Char.toUInt8
    let y := "let b\t= \"2\n\";\t+".toList.map Char.toUInt8
    (Source.bytes x).buffer = .ok x ∧ (Source.bytes y).buffer = .ok y ∧ SameNewlines x y ∧
      ∃ ts us ys zs, (Source.bytes x).tokenize = .ok ts ∧ (Source.bytes y).tokenize = .ok us ∧
        ts = us ∧ (Source.bytes x).Yields (some 7) ys ∧ (Source.bytes y).Yields (some 7) zs ∧
        List.Forall₂ Yield.Alike ys zs ∧
        ((Source.bytes x).parse false (some 7)).1 = ((Source.bytes y).parse false (some 7)).1 := by
  intro x y
  have hnewlines : SameNewlines x y := sameNewlines_of_map_eq (by decide)
  have htokens : (Source.bytes x).tokenize = (Source.bytes y).tokenize := by decide +kernel
  rcases @parse_alike (Source.bytes x) (Source.bytes y) x y rfl rfl (some 7) with
    ⟨ts, us, ys, zs, hts, hus, hys, hzs, hkinds, -, hresults⟩
  have hsame : ts = us := Except.ok.inj (hts.symm.trans (htokens.trans hus))
  exact ⟨rfl, rfl, hnewlines, ts, us, ys, zs, hts, hus, hsame, hys, hzs,
    (hkinds (congrArg _ hsame)).1, hresults hsame hnewlines false⟩

end LetLang
