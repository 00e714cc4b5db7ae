import Mathlib.Data.List.TakeWhile
import LetLang.Proofs.Recording

/-!
# Rendering templates

A text with its braces doubled is a literal of a template (`Template.read_escape_append`), and an
argument is inserted as it is, so literals and arguments alternate in what is rendered as they do in
the template. There are two ways to write fields that take the arguments in order, by an empty name
or by the index (`Template.Addressing`); what they render is shown for both at once.

Main statement: `report_renders_or_refuses`. A report adds one message or nothing, and the fault of
the template comes before that of the sink.
-/

namespace LetLang

/-! ## Indices -/

namespace DecimalDigit

theorem value?_of_isDigit {c : Char} (h : c.isDigit = true) : value? c = some (c.toNat - 48) := by
  have hzeros : zeros = 0x30 :: zeros.tail := rfl
  have hbounds : 48 ≤ c.toNat ∧ c.toNat ≤ 57 := Char.isDigit_iff_toNat.mp h
  rw [value?, hzeros, List.find?_cons_of_pos (by simp; omega)]
  rfl

/-- The digits of a number in the usual script are read as this number. -/
theorem map_value?_toDigits (n : Nat) :
    (Nat.toDigits 10 n).map value? = ((Nat.toDigits 10 n).map fun c => c.toNat - 48).map some := by
  rw [List.map_map]
  exact List.map_congr_left fun c hc =>
    value?_of_isDigit (Nat.isDigit_of_mem_toDigits (by decide) (by decide) hc)

theorem number_toDigits (n : Nat) :
    number ((Nat.toDigits 10 n).map fun c => c.toNat - 48) = n := by
  rw [number, List.foldl_map]
  exact Nat.ofDigitChars_eq_foldl.symm.trans Nat.ofDigitChars_ten_toDigits

end DecimalDigit

namespace Template

/-- A field of decimal digits is an index, if that fits. -/
theorem Field.ofName_toDigits (n : Nat) :
    Field.ofName (Nat.toDigits 10 n) =
      if maxIndex < n then .error .hugeIndex else .ok (.index n) := by
  have hnumber : DecimalDigit.number
      (((Nat.toDigits 10 n).map DecimalDigit.value?).takeWhile Option.isSome).reduceOption = n := by
    rw [DecimalDigit.map_value?_toDigits, List.takeWhile_eq_self_iff.mpr (by simp)]
    show DecimalDigit.number (List.filterMap id _) = n
    rw [List.filterMap_map, Function.id_comp, List.filterMap_some]
    exact DecimalDigit.number_toDigits n
  have hall : ((Nat.toDigits 10 n).map DecimalDigit.value?).all Option.isSome = true := by
    rw [DecimalDigit.map_value?_toDigits]
    simp
  rw [ofName]
  simp only [hnumber, hall, if_true]
  rw [if_neg (by simp)]

/-! ## Writing a template -/

/-- A brace is written twice, and any other character once. -/
def escapeChar (c : Char) : List Char :=
  if c = '{' ∨ c = '}' then [c, c] else [c]

/-- A text with its braces doubled. -/
def escape (s : String) : String := String.ofList (s.toList.flatMap escapeChar)

/-- A template with the parts as its literals, and a field of the given name between any two. -/
def interleave (name : Nat → String) (first : String) (parts : List String) : String :=
  escape first ++
    String.join (parts.mapIdx fun i part => "\x7b" ++ name i ++ "\x7d" ++ escape part)

/-- The parts with an argument between any two, as long as there are both. -/
def filled (first : String) (parts args : List String) : String :=
  first ++ String.join (List.zipWith (· ++ ·) args parts)

/-- The characters of the parts from a field on. -/
def charsFrom (name : Nat → String) (n : Nat) : List String → List Char
  | [] => []
  | part :: parts =>
      '{' :: ((name n).toList ++ '}' :: (part.toList.flatMap escapeChar ++
        charsFrom name (n + 1) parts))

theorem toList_join_mapIdx (name : Nat → String) (n : Nat) (parts : List String) :
    (String.join
      (parts.mapIdx fun i part => "\x7b" ++ name (n + i) ++ "\x7d" ++ escape part)).toList =
      charsFrom name n parts := by
  induction parts generalizing n with
  | nil => rfl
  | cons part parts ih =>
      have hrest := ih (n + 1)
      simp only [Nat.add_assoc, Nat.add_comm 1] at hrest
      rw [String.toList_join] at hrest
      rw [List.mapIdx_cons, String.toList_join, List.flatMap_cons, hrest, charsFrom]
      simp [escape]

theorem toList_interleave (name : Nat → String) (first : String) (parts : List String) :
    (interleave name first parts).toList =
      first.toList.flatMap escapeChar ++ charsFrom name 0 parts := by
  have hparts := toList_join_mapIdx name 0 parts
  simp only [Nat.zero_add] at hparts
  rw [interleave, String.toList_append, hparts, escape, String.toList_ofList]

/-! ## Reading it -/

theorem read_escapeChar_append (c : Char) (rest : List Char) :
    read none (escapeChar c ++ rest) = (read none rest).cons (.literal c) := by
  by_cases hopen : c = '{'
  · subst hopen
    rfl
  by_cases hclose : c = '}'
  · subst hclose
    rfl
  rw [escapeChar, if_neg (by simp [hopen, hclose]), List.singleton_append]
  simp [read, hopen, hclose]

/-- A doubled brace is read as a literal one, whatever follows. -/
theorem read_escape_append (cs rest : List Char) :
    read none (cs.flatMap escapeChar ++ rest) =
      { pieces := cs.map .literal ++ (read none rest).pieces, flaw := (read none rest).flaw } := by
  induction cs with
  | nil => rfl
  | cons c cs ih =>
      rw [List.flatMap_cons, List.append_assoc, read_escapeChar_append, ih]
      rfl

/-- A template that begins with a field, if its name makes one. -/
def ofField (field : Except TemplateError Field) (rest : Template) : Template :=
  match field with
  | .error e => flawed e
  | .ok f => rest.cons (.field f)

theorem read_name_append {name : List Char} (h : ∀ c ∈ name, c ≠ '{' ∧ c ≠ '}')
    (before rest : List Char) :
    read (some before) (name ++ '}' :: rest) =
      ofField (Field.ofName (before ++ name)) (read none rest) := by
  induction name generalizing before with
  | nil =>
      rw [List.append_nil]
      rfl
  | cons c name ih =>
      obtain ⟨⟨hopen, hclose⟩, hname⟩ := List.forall_mem_cons.mp h
      have hrest := ih hname (before ++ [c])
      rw [List.append_assoc] at hrest
      rw [List.cons_append, read]
      · exact hrest
      · exact fun hc => hopen hc
      · exact fun hc => hclose hc

/-- A name without braces is read as one field. -/
theorem read_field_append {name : List Char} (h : ∀ c ∈ name, c ≠ '{' ∧ c ≠ '}')
    (rest : List Char) :
    read none ('{' :: (name ++ '}' :: rest)) = ofField (Field.ofName name) (read none rest) := by
  have hname := read_name_append h [] rest
  cases name with
  | nil => exact hname
  | cons c name =>
      obtain ⟨⟨hopen, -⟩, -⟩ := List.forall_mem_cons.mp h
      rw [← List.nil_append (c :: name), ← hname, List.nil_append, List.cons_append, read]
      · simpa using hopen
      · simp

/-! ## Rendering it -/

/-- Literal characters of a template are rendered as they are. -/
theorem renderPieces_literals_append (args : List String) (numbering : Numbering)
    (cs : List Char) (rest : List Piece) :
    renderPieces args numbering (cs.map .literal ++ rest) =
      (renderPieces args numbering rest).map (cs ++ ·) := by
  induction cs with
  | nil =>
      cases h : renderPieces args numbering rest <;> simp [h, Except.map]
  | cons c cs ih =>
      rw [List.map_cons, List.cons_append, renderPieces, ih]
      cases renderPieces args numbering rest <;> rfl

/-- What a template renders behind some fields, as characters. -/
def renderFrom (args : List String) (numbering : Numbering) (t : Template) :
    Except TemplateError (List Char) :=
  match renderPieces args numbering t.pieces with
  | .error e => .error e
  | .ok cs =>
      match t.flaw with
      | some e => .error e
      | none => .ok cs

variable {args : List String} {numbering next : Numbering} {t : Template} {f : Field} {n : Nat}

theorem render_eq_renderFrom (t : Template) (args : List String) :
    t.render args = (renderFrom args .undecided t).map String.ofList := by
  rw [render, renderFrom]
  cases renderPieces args .undecided t.pieces with
  | error e => rfl
  | ok cs => cases t.flaw <;> rfl

theorem renderFrom_flawed (e : TemplateError) :
    renderFrom args numbering (flawed e) = .error e := rfl

theorem renderFrom_literals (cs : List Char) :
    renderFrom args numbering { t with pieces := cs.map .literal ++ t.pieces } =
      (renderFrom args numbering t).map (cs ++ ·) := by
  rw [renderFrom, renderPieces_literals_append, renderFrom]
  cases renderPieces args numbering t.pieces with
  | error e => rfl
  | ok rest => cases t.flaw <;> rfl

theorem renderFrom_field {arg : String} (hpick : f.pick numbering = .ok (n, next))
    (harg : args[n]? = some arg) :
    renderFrom args numbering (t.cons (.field f)) =
      (renderFrom args next t).map (arg.toList ++ ·) := by
  simp only [renderFrom, cons, renderPieces, hpick, argument, harg]
  cases renderPieces args next t.pieces with
  | error e => rfl
  | ok rest => cases t.flaw <;> rfl

theorem renderFrom_field_of_none (hpick : f.pick numbering = .ok (n, next))
    (harg : args[n]? = none) :
    renderFrom args numbering (t.cons (.field f)) = .error (.missingIndex n) := by
  simp only [renderFrom, cons, renderPieces, hpick, argument, harg]

/-! ## Fields that take the arguments in order -/

/-- A way to write the fields of a template so that each takes the next argument. -/
structure Addressing where
  name : Nat → String
  field : Nat → Field
  /-- How the fields in front of one have picked their arguments. -/
  numbering : Nat → Numbering
  /-- Whether the name makes a field. -/
  Fits : Nat → Prop
  name_plain : ∀ n, ∀ c ∈ (name n).toList, c ≠ '{' ∧ c ≠ '}'
  numbering_zero : numbering 0 = .undecided
  ofName_of_fits : ∀ n, Fits n → Field.ofName (name n).toList = .ok (field n)
  ofName_of_not_fits : ∀ n, ¬ Fits n → Field.ofName (name n).toList = .error .hugeIndex
  pick : ∀ n, (field n).pick (numbering n) = .ok (n, numbering (n + 1))

namespace Addressing

/-- Fields without a name. -/
def byOrder : Addressing where
  name _ := ""
  field _ := .next
  numbering
    | 0 => .undecided
    | n + 1 => .automatic (n + 1)
  Fits _ := True
  name_plain _ _ h := by simp at h
  numbering_zero := rfl
  ofName_of_fits _ _ := rfl
  ofName_of_not_fits _ h := absurd trivial h
  pick n := by cases n <;> rfl

/-- Fields with the index of their argument. -/
def byIndex : Addressing where
  name := toString
  field := .index
  numbering
    | 0 => .undecided
    | _ + 1 => .manual
  Fits n := n ≤ maxIndex
  name_plain n c h := by
    have hdigit : c.isDigit = true :=
      Nat.isDigit_of_mem_toDigits (by decide) (by decide) (Nat.toList_repr ▸ h)
    constructor
    · rintro rfl
      exact absurd hdigit (by decide)
    · rintro rfl
      exact absurd hdigit (by decide)
  numbering_zero := rfl
  ofName_of_fits n h := by
    have hdigits : (toString n).toList = Nat.toDigits 10 n := Nat.toList_repr
    rw [hdigits, Field.ofName_toDigits, if_neg (Nat.not_lt.mpr h)]
  ofName_of_not_fits n h := by
    have hdigits : (toString n).toList = Nat.toDigits 10 n := Nat.toList_repr
    rw [hdigits, Field.ofName_toDigits, if_pos (Nat.not_le.mp h)]
  pick n := by cases n <;> rfl

variable (a : Addressing) (args : List String)

/-- What is rendered from a field on: literals and arguments, unless the arguments run out. -/
theorem renderFrom_charsFrom (parts : List String) (n : Nat) (hn : n ≤ args.length)
    (hfits : ∀ i < parts.length, n + i ≤ args.length → a.Fits (n + i)) :
    renderFrom args (a.numbering n) (read none (charsFrom a.name n parts)) =
      if n + parts.length ≤ args.length then
        .ok (String.join (List.zipWith (· ++ ·) (args.drop n) parts)).toList
      else .error (.missingIndex args.length) := by
  induction parts generalizing n with
  | nil =>
      rw [if_pos (show n + ([] : List String).length ≤ args.length from hn), List.zipWith_nil_right]
      rfl
  | cons part parts ih =>
      have hname := a.ofName_of_fits n (hfits 0 (by simp) hn)
      rw [charsFrom, read_field_append (a.name_plain n), hname, read_escape_append, ofField]
      -- Either the field finds its argument, or it is the first that finds none.
      rcases Nat.lt_or_eq_of_le hn with hlt | rfl
      · have hrest := ih (n + 1) hlt fun i hi hle => by
          rw [Nat.add_assoc, Nat.add_comm 1] at hle ⊢
          exact hfits (i + 1) (by simpa using hi) hle
        rw [renderFrom_field (a.pick n) (List.getElem?_eq_getElem hlt), renderFrom_literals, hrest,
          List.length_cons, Nat.add_assoc, Nat.add_comm 1, List.drop_eq_getElem_cons hlt,
          List.zipWith_cons_cons, String.toList_join, String.toList_join, List.flatMap_cons]
        split
        · simp only [Except.map, String.toList_append, List.append_assoc]
        · rfl
      · rw [renderFrom_field_of_none (a.pick _) (List.getElem?_eq_none (Nat.le_refl _)),
          if_neg (by simp)]

/-- A name that makes no field is a flaw, if the arguments do not run out before it. -/
theorem renderFrom_charsFrom_of_not_fits (parts : List String) (n i : Nat)
    (hi : i < parts.length) (hle : n + i ≤ args.length) (hnot : ¬ a.Fits (n + i)) :
    renderFrom args (a.numbering n) (read none (charsFrom a.name n parts)) =
      .error .hugeIndex := by
  induction parts generalizing n i with
  | nil => simp at hi
  | cons part parts ih =>
      rw [charsFrom, read_field_append (a.name_plain n), read_escape_append]
      -- The names in front of the flaw may make fields; these find their arguments.
      by_cases hfits : a.Fits n
      · rw [a.ofName_of_fits n hfits, ofField]
        cases i with
        | zero => exact absurd hfits hnot
        | succ i =>
            have hlt : n < args.length := by omega
            rw [Nat.add_comm i, ← Nat.add_assoc] at hle hnot
            have hrest := ih (n + 1) i (by simpa using hi) hle hnot
            rw [renderFrom_field (a.pick n) (List.getElem?_eq_getElem hlt), renderFrom_literals,
              hrest]
            rfl
      · rw [a.ofName_of_not_fits n hfits]
        exact renderFrom_flawed _

/-- A whole template renders to its literals and arguments, unless the arguments run out. -/
theorem render_interleave (first : String) (parts : List String)
    (hfits : ∀ i < parts.length, i ≤ args.length → a.Fits i) :
    (ofString (interleave a.name first parts)).render args =
      if parts.length ≤ args.length then .ok (filled first parts args)
      else .error (.missingIndex args.length) := by
  have hfields := a.renderFrom_charsFrom args parts 0 (Nat.zero_le _) (by simpa using hfits)
  rw [render_eq_renderFrom, ofString, toList_interleave, read_escape_append, renderFrom_literals,
    ← a.numbering_zero, hfields, Nat.zero_add, List.drop_zero]
  split
  · refine congrArg Except.ok (String.toList_inj.mp ?_)
    rw [String.toList_ofList, filled, String.toList_append]
  · rfl

theorem render_interleave_of_not_fits (first : String) {parts : List String} {i : Nat}
    (hi : i < parts.length) (hle : i ≤ args.length) (hnot : ¬ a.Fits i) :
    (ofString (interleave a.name first parts)).render args = .error .hugeIndex := by
  have hfields := a.renderFrom_charsFrom_of_not_fits args parts 0 i hi (by simpa using hle)
    (by simpa using hnot)
  rw [render_eq_renderFrom, ofString, toList_interleave, read_escape_append, renderFrom_literals,
    ← a.numbering_zero, hfields]
  rfl

end Addressing

theorem render_escape (s : String) (args : List String) :
    (ofString (escape s)).render args = .ok s := by
  have hrender := Addressing.byOrder.render_interleave args s [] (by simp)
  have htext : interleave Addressing.byOrder.name s [] = escape s := String.append_empty
  have hfilled : filled s [] args = s := by
    rw [filled, List.zipWith_nil_right]
    exact String.append_empty
  rw [htext, hfilled] at hrender
  exact hrender

end Template

/-! ## Reports -/

namespace Sink

variable {s : Sink} {template : String} {args : List String}

/-- A report comes to one message more, or to a fault and the same sink. -/
structure Reports (s : Sink) (template : String) (args : List String) : Prop where
  flawed : ∀ e, (Template.ofString template).render args = .error e →
    SinkCall.run s (.act (.report template args)) = (.error (.template e), s)
  refused : ∀ message, (Template.ofString template).render args = .ok message →
    s.isReleased = true →
    SinkCall.run s (.act (.report template args)) = (.error .sinkReleased, s)
  added : ∀ message, (Template.ofString template).render args = .ok message →
    s.isReleased = false →
    SinkCall.run s (.act (.report template args)) =
      (.ok .done, .collecting (s.messages ++ [message]))

theorem run_report_of_error {e : TemplateError}
    (h : (Template.ofString template).render args = .error e) :
    SinkCall.run s (.act (.report template args)) = (.error (.template e), s) := by
  simp only [SinkCall.run, SinkAction.run, report, h]
  rfl

/-- What can be rendered is reported as if it were appended. -/
theorem run_report_of_ok {message : String}
    (h : (Template.ofString template).render args = .ok message) :
    SinkCall.run s (.act (.report template args)) = SinkCall.run s (.act (.append message)) := by
  simp only [SinkCall.run, SinkAction.run, report, h]

/-- Only what is rendered matters for a report. -/
theorem run_report_congr {other : String} {others : List String}
    (h : (Template.ofString template).render args = (Template.ofString other).render others) :
    SinkCall.run s (.act (.report template args)) =
      SinkCall.run s (.act (.report other others)) := by
  simp only [SinkCall.run, SinkAction.run, report, h]

theorem reports (s : Sink) (template : String) (args : List String) : s.Reports template args where
  flawed e h := run_report_of_error h
  refused message h hreleased := by
    rw [run_report_of_ok h]
    simp only [SinkCall.run, SinkAction.run, append_of_isReleased hreleased]
    rfl
  added message h hopen := by
    rw [run_report_of_ok h]
    cases s with
    | released => contradiction
    | collecting messages => rfl

end Sink

/--
A report renders its template first: if that fails, so does the report, whether the sink is released
or not, and otherwise it does what appending the message does. A template whose literals have their
braces doubled renders to these literals and the arguments in turn, verbatim, with empty fields as
with the indices of the arguments, as long as these fit. If there are too few arguments, the first
that is missing is named. A text with its braces doubled is reported as it is.
-/
theorem report_renders_or_refuses (s : Sink) :
    let reported := fun template args => SinkCall.run s (.act (.report template args))
    let appended := fun message => SinkCall.run s (.act (.append message))
    let plain := Template.interleave fun _ => ""
    let indexed := Template.interleave toString
    (∀ template args, s.Reports template args) ∧
      (∀ first parts args, parts.length ≤ args.length →
        reported (plain first parts) args = appended (Template.filled first parts args)) ∧
      (∀ first parts args, args.length < parts.length →
        reported (plain first parts) args =
          (.error (.template (.missingIndex args.length)), s)) ∧
      (∀ first parts args, parts.length ≤ Template.maxIndex + 1 ∨ args.length ≤ Template.maxIndex →
        reported (indexed first parts) args = reported (plain first parts) args) ∧
      (∀ first parts args, Template.maxIndex + 1 < parts.length → Template.maxIndex < args.length →
        reported (indexed first parts) args = (.error (.template .hugeIndex), s)) ∧
      (∀ n, (Fault.template (.missingIndex n)).message =
        "Replacement index " ++ toString n ++ " out of range for positional args tuple") ∧
      ∀ message args, reported (Template.escape message) args = appended message := by
  intro reported appended plain indexed
  have hplain : ∀ first parts args, (Template.ofString (plain first parts)).render args =
      if parts.length ≤ args.length then .ok (Template.filled first parts args)
      else .error (.missingIndex args.length) := fun first parts args =>
    Template.Addressing.byOrder.render_interleave args first parts fun _ _ _ => trivial
  refine ⟨s.reports, fun first parts args hle => ?_, fun first parts args hlt => ?_,
    fun first parts args hfits => ?_, fun first parts args hparts hargs => ?_, fun n => rfl,
    fun message args => Sink.run_report_of_ok (Template.render_escape message args)⟩
  · exact Sink.run_report_of_ok ((hplain first parts args).trans (if_pos hle))
  · exact Sink.run_report_of_error ((hplain first parts args).trans (if_neg (Nat.not_le.mpr hlt)))
  · have hindexed := Template.Addressing.byIndex.render_interleave args first parts
      fun i hi hle => show i ≤ Template.maxIndex by omega
    exact Sink.run_report_congr (hindexed.trans (hplain first parts args).symm)
  · exact Sink.run_report_of_error (Template.Addressing.byIndex.render_interleave_of_not_fits args
      first hparts hargs (Nat.not_le.mpr (Nat.lt_succ_self _)))

/-- Braces in the literals and in an argument; the second argument may be missing. -/
theorem report_renders_or_refuses_braces :
    let s : Sink := .collecting ["kept"]
    let plain := Template.interleave (fun _ => "") "\x7b" ["\x7d\x7b", ""]
    let indexed := Template.interleave toString "\x7b" ["\x7d\x7b", ""]
    let args := ["\x7b0\x7d", "b"]
    plain = "\x7b\x7b\x7b\x7d\x7d\x7d\x7b\x7b\x7b\x7d" ∧
      indexed = "\x7b\x7b\x7b0\x7d\x7d\x7d\x7b\x7b\x7b1\x7d" ∧
      SinkCall.run s (.act (.report plain args)) =
        (.ok .done, .collecting ["kept", "\x7b\x7b0\x7d\x7d\x7bb"]) ∧
      SinkCall.run s (.act (.report indexed args)) =
        SinkCall.run s (.act (.report plain args)) ∧
      SinkCall.run s (.act (.report plain args.tail)) =
        (.error (.template (.missingIndex 1)), s) ∧
      SinkCall.run .released (.act (.report plain args)) = (.error .sinkReleased, .released) := by
  intro s plain indexed args
  obtain ⟨-, hplain, hmissing, hindexed, -⟩ := report_renders_or_refuses s
  obtain ⟨-, hreleased, -⟩ := report_renders_or_refuses .released
  refine ⟨by decide, by decide, ?_, hindexed _ _ args (Or.inl (by decide)),
    hmissing _ _ args.tail (by decide), hreleased _ _ args (by decide)⟩
  exact (hplain _ _ args (by decide)).trans (by decide)

end LetLang
