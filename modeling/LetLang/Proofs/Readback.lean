import LetLang.Proofs.Place
import LetLang.Proofs.Rendering
import LetLang.Proofs.Run

/-!
# Reading messages back

What is written about mismatches can be read back without knowing anything else. No description of
a kind is the beginning of another one (`TokenKind.describe_append_inj`), the words between the
parts of a message tell where a list of descriptions ends (`Diagnostic.alternatives_append_inj`),
and a position is the last part of its message. So a message is about one diagnostic only
(`Diagnostic.message_inj`), and as it has no newline, the written lines are its messages.

Main statement: `written_mismatches_inj`.
-/

namespace LetLang

/-! ## One message -/

namespace TokenKind

/-- No description begins with a blank, holds a newline or is the beginning of another one. -/
theorem describe_table : all.all (fun kind =>
    kind.describe.toList.head?.any (· != ' ') && !kind.describe.toList.contains '\n' &&
      all.all fun other =>
        !kind.describe.toList.isPrefixOf other.describe.toList || kind == other) = true := by
  decide +kernel

theorem describe_spec (kind : TokenKind) :
    (∃ c rest, kind.describe.toList = c :: rest ∧ c ≠ ' ') ∧ '\n' ∉ kind.describe.toList ∧
      ∀ other : TokenKind, kind.describe.toList <+: other.describe.toList → kind = other := by
  have hrow := List.all_eq_true.mp describe_table kind kind.mem_all
  simp only [Bool.and_eq_true] at hrow
  obtain ⟨⟨hhead, hnewline⟩, hothers⟩ := hrow
  refine ⟨?_, by simpa using hnewline, fun other hbegin => ?_⟩
  · cases hdescribe : kind.describe.toList with
    | nil => simp [hdescribe] at hhead
    | cons c rest => exact ⟨c, rest, rfl, by simpa [hdescribe] using hhead⟩
  · have hother := List.all_eq_true.mp hothers other other.mem_all
    simpa [List.isPrefixOf_iff_prefix.mpr hbegin] using hother

theorem describe_append_inj {kind other : TokenKind} {rest tail : List Char}
    (h : kind.describe.toList ++ rest = other.describe.toList ++ tail) :
    kind = other ∧ rest = tail := by
  have hkind : kind = other := by
    have hfirst : other.describe.toList <+: kind.describe.toList ++ rest :=
      h ▸ List.prefix_append _ _
    rcases List.prefix_or_prefix_of_prefix (List.prefix_append _ rest) hfirst with hle | hle
    · exact kind.describe_spec.2.2 other hle
    · exact (other.describe_spec.2.2 kind hle).symm
  subst hkind
  exact ⟨rfl, List.append_cancel_left h⟩

end TokenKind

namespace Diagnostic

/-- What stands behind the first of several kinds, up to the kind that was found. -/
def furtherKinds (kinds : List TokenKind) (rest : List Char) : List Char :=
  kinds.flatMap (fun kind => " or ".toList ++ kind.describe.toList) ++ (" but got ".toList ++ rest)

theorem toList_alternatives_cons (kind : TokenKind) (kinds : List TokenKind) (rest : List Char) :
    (alternatives (kind :: kinds)).toList ++ (" but got ".toList ++ rest) =
      kind.describe.toList ++ furtherKinds kinds rest := by
  induction kinds generalizing kind with
  | nil => simp [alternatives, furtherKinds]
  | cons next kinds ih =>
      have hnext := ih next
      rw [alternatives, String.toList_intercalate] at hnext ⊢
      rw [List.map_cons, List.map_cons, List.map_cons, List.map_cons, List.intercalate_cons_cons,
        List.append_assoc, List.append_assoc, ← List.map_cons, ← List.map_cons, hnext]
      simp [furtherKinds]

theorem furtherKinds_inj {kinds others : List TokenKind} {rest tail : List Char}
    (h : furtherKinds kinds rest = furtherKinds others tail) : kinds = others ∧ rest = tail := by
  induction kinds generalizing others with
  | nil =>
      cases others with
      | nil => exact ⟨rfl, by simpa [furtherKinds] using h⟩
      | cons other others => simp [furtherKinds] at h
  | cons kind kinds ih =>
      cases others with
      | nil => simp [furtherKinds] at h
      | cons other others =>
          simp only [furtherKinds, List.flatMap_cons, List.append_assoc] at h
          obtain ⟨rfl, hrest⟩ := TokenKind.describe_append_inj (List.append_cancel_left h)
          obtain ⟨rfl, rfl⟩ := ih hrest
          exact ⟨rfl, rfl⟩

/-- The words behind a list of kinds tell where it ends. -/
theorem alternatives_append_inj {kinds others : List TokenKind} {rest tail : List Char}
    (h : (alternatives kinds).toList ++ (" but got ".toList ++ rest) =
      (alternatives others).toList ++ (" but got ".toList ++ tail)) :
    kinds = others ∧ rest = tail := by
  have hnone : ∀ (kind : TokenKind) (kinds : List TokenKind) (rest tail : List Char),
      " but got ".toList ++ rest ≠ kind.describe.toList ++ furtherKinds kinds tail := by
    intro kind kinds rest tail hsame
    obtain ⟨c, more, hc, hblank⟩ := kind.describe_spec.1
    rw [hc] at hsame
    exact hblank (List.cons.inj hsame).1.symm
  cases kinds with
  | nil =>
      cases others with
      | nil => exact ⟨rfl, List.append_cancel_left (List.append_cancel_left h)⟩
      | cons other others =>
          rw [toList_alternatives_cons] at h
          exact absurd h (hnone other others rest tail)
  | cons kind kinds =>
      cases others with
      | nil =>
          rw [toList_alternatives_cons] at h
          exact absurd h.symm (hnone kind kinds tail rest)
      | cons other others =>
          rw [toList_alternatives_cons, toList_alternatives_cons] at h
          obtain ⟨rfl, hrest⟩ := TokenKind.describe_append_inj h
          obtain ⟨rfl, rfl⟩ := furtherKinds_inj hrest
          exact ⟨rfl, rfl⟩

theorem toList_message (d : Diagnostic) :
    d.message.toList = "expected ".toList ++ ((alternatives d.expected).toList ++
      (" but got ".toList ++ (d.found.describe.toList ++
        (" at ".toList ++ d.position.text.toList)))) := by
  simp only [message, String.toList_append, List.append_assoc]

/-- A message is about one diagnostic only. -/
theorem message_inj {d e : Diagnostic} (h : d.message = e.message) : d = e := by
  have hlist := congrArg String.toList h
  rw [toList_message, toList_message] at hlist
  obtain ⟨hexpected, hrest⟩ := alternatives_append_inj (List.append_cancel_left hlist)
  obtain ⟨hfound, hrest⟩ := TokenKind.describe_append_inj hrest
  have hposition := Position.text_inj (String.toList_inj.mp (List.append_cancel_left hrest))
  cases d
  cases e
  subst hexpected hfound hposition
  rfl

theorem newline_not_mem_alternatives (kinds : List TokenKind) :
    '\n' ∉ (alternatives kinds).toList := by
  cases kinds with
  | nil => simp [alternatives]
  | cons kind kinds =>
      intro h
      have hmem := List.mem_append_left (" but got ".toList ++ []) h
      rw [toList_alternatives_cons, furtherKinds] at hmem
      have hdescribe : ∀ kind : TokenKind, '\n' ∉ kind.describe.toList :=
        fun kind => kind.describe_spec.2.1
      simp [hdescribe] at hmem

/-- A message is one line. -/
theorem newline_not_mem_message (d : Diagnostic) : '\n' ∉ d.message.toList := by
  have hexpected := newline_not_mem_alternatives d.expected
  have hfound := d.found.describe_spec.2.1
  have hposition : '\n' ∉ d.position.text.toList := by
    intro h
    rcases Position.isDigit_or_colon_of_mem_text h with hdigit | hcolon
    · exact absurd hdigit (by decide)
    · exact absurd hcolon (by decide)
  rw [toList_message]
  simp [hexpected, hfound, hposition]

end Diagnostic

/-! ## Rendering -/

namespace Diagnostic

/-- The template of a message. -/
def template : String := "expected \x7b\x7d but got \x7b\x7d at \x7b\x7d:\x7b\x7d"

/-- What a message has in the fields of its template. -/
def arguments (d : Diagnostic) : List String :=
  [alternatives d.expected, d.found.describe, toString d.position.line, toString d.position.column]

/-- Rendering inserts the parts of a message verbatim, braces included. -/
theorem render_template (d : Diagnostic) :
    (Template.ofString template).render d.arguments = .ok d.message := by
  have htemplate : template =
      Template.interleave (fun _ => "") "expected " [" but got ", " at ", ":", ""] := by decide
  have hmessage : d.message =
      Template.filled "expected " [" but got ", " at ", ":", ""] d.arguments := by
    apply String.toList_inj.mp
    rw [toList_message, Position.text]
    simp [Template.filled, arguments]
  rw [htemplate, hmessage]
  exact Template.Addressing.byOrder.render_interleave d.arguments _ _ fun _ _ _ => trivial

end Diagnostic

/-! ## Many messages -/

/-- Split at its newlines, a text of lines is the messages, and nothing behind the last of them. -/
theorem splitOn_writeLines {messages : List String} (h : ∀ m ∈ messages, '\n' ∉ m.toList) :
    (writeLines messages).toList.splitOn '\n' = messages.map String.toList ++ [[]] := by
  induction messages with
  | nil => simp [writeLines]
  | cons m messages ih =>
      obtain ⟨hm, hmessages⟩ := List.forall_mem_cons.mp h
      have hlines : (writeLines (m :: messages)).toList =
          m.toList ++ '\n' :: (writeLines messages).toList := by
        simp [writeLines, String.toList_join]
      rw [hlines, splitOn_append_cons, List.splitOn_eq_singleton hm, ih hmessages]
      rfl

/-- A token, and the kinds that are accepted in its place. -/
structure Expectation where
  found : Token
  accepted : List TokenKind
deriving DecidableEq, Repr

/-- What is recorded of an expectation that a token does not meet. -/
structure Mismatch where
  expected : List TokenKind
  found : TokenKind
  offset : Nat
deriving DecidableEq, Repr

namespace Mismatch

/-- The message about a mismatch in a source. -/
def message (bytes : Bytes) (m : Mismatch) : String :=
  Diagnostic.message
    { expected := m.expected
      found := m.found
      position := Position.after (bytes.take m.offset) }

variable {bytes : Bytes}

/-- In a source, a message is about one mismatch only. -/
theorem eq_of_message_eq {m n : Mismatch} (hm : m.offset ≤ bytes.length)
    (hn : n.offset ≤ bytes.length) (h : m.message bytes = n.message bytes) : m = n := by
  obtain ⟨expected, found, offset⟩ := m
  obtain ⟨expected', found', offset'⟩ := n
  obtain ⟨rfl, rfl, hposition⟩ := Diagnostic.mk.inj (Diagnostic.message_inj h)
  obtain rfl := Position.after_take_inj hm hn hposition
  rfl

theorem eq_of_map_message_eq {ms ns : List Mismatch} (hms : ∀ m ∈ ms, m.offset ≤ bytes.length)
    (hns : ∀ n ∈ ns, n.offset ≤ bytes.length)
    (h : ms.map (message bytes) = ns.map (message bytes)) : ms = ns := by
  induction ms generalizing ns with
  | nil => exact (List.map_eq_nil_iff.mp h.symm).symm
  | cons m ms ih =>
      cases ns with
      | nil => contradiction
      | cons n ns =>
          obtain ⟨hm, hms⟩ := List.forall_mem_cons.mp hms
          obtain ⟨hn, hns⟩ := List.forall_mem_cons.mp hns
          obtain ⟨hfirst, hrest⟩ := List.cons.inj h
          rw [eq_of_message_eq hm hn hfirst, ih hms hns hrest]

end Mismatch

namespace Expectation

/-- The token lies in the source. -/
def IsIn (bytes : Bytes) (e : Expectation) : Prop := e.found.span.stop ≤ bytes.length

def mismatch? (e : Expectation) : Option Mismatch :=
  if e.found.kind ∈ e.accepted then none
  else some { expected := e.accepted, found := e.found.kind, offset := e.found.span.start }

theorem offset_le_of_mismatches {bytes : Bytes} {es : List Expectation}
    (hes : ∀ e ∈ es, e.IsIn bytes) : ∀ m ∈ es.filterMap mismatch?, m.offset ≤ bytes.length := by
  intro m hm
  obtain ⟨e, he, hsome⟩ := List.mem_filterMap.mp hm
  unfold mismatch? at hsome
  split at hsome
  · contradiction
  · cases hsome
    exact Nat.le_trans e.found.span.start_le_stop (hes e he)

end Expectation

namespace Session

/-- The session behind the expectations, one after another. -/
def expectAll (s : Session) : List Expectation → Session
  | [] => s
  | e :: es => expectAll (s.expect e.found e.accepted).2 es

/-- An expectation about a token of the source adds a message exactly if it is not met. -/
theorem expect_of_collecting {s : Session} {messages : List String} {e : Expectation}
    (hsink : s.sink = .collecting messages) (he : e.IsIn s.cursor.source) :
    (s.expect e.found e.accepted).2.cursor = s.cursor ∧
      (s.expect e.found e.accepted).2.sink = .collecting
        (messages ++ e.mismatch?.toList.map (Mismatch.message s.cursor.source)) := by
  by_cases hmet : e.found.kind ∈ e.accepted
  · rw [expect, if_pos hmet, Expectation.mismatch?, if_pos hmet]
    exact ⟨rfl, hsink.trans (congrArg Sink.collecting (List.append_nil messages).symm)⟩
  · rw [expect, if_neg hmet, Expectation.mismatch?, if_neg hmet, report,
      Span.position_of_le he, hsink]
    exact ⟨rfl, rfl⟩

theorem sink_expectAll {s : Session} {messages : List String} {es : List Expectation}
    (hsink : s.sink = .collecting messages) (hes : ∀ e ∈ es, e.IsIn s.cursor.source) :
    (s.expectAll es).sink = .collecting
      (messages ++
        (es.filterMap Expectation.mismatch?).map (Mismatch.message s.cursor.source)) := by
  induction es generalizing s messages with
  | nil => exact hsink.trans (congrArg Sink.collecting (List.append_nil messages).symm)
  | cons e es ih =>
      obtain ⟨he, hes⟩ := List.forall_mem_cons.mp hes
      obtain ⟨hcursor, hstep⟩ := expect_of_collecting hsink he
      have hrest := ih hstep (hcursor.symm ▸ hes)
      rw [hcursor] at hrest
      rw [expectAll, hrest, List.filterMap_cons]
      cases e.mismatch? with
      | none => simp
      | some m => simp

/-- What a session holds and writes of the expectations that are not met. -/
structure Records (s : Session) (es : List Expectation) : Prop where
  messages : (s.expectAll es).sink.messages =
    (es.filterMap Expectation.mismatch?).map (Mismatch.message s.cursor.source)
  one_line : ∀ m ∈ (s.expectAll es).sink.messages, '\n' ∉ m.toList
  lines : (s.expectAll es).sink.drain.toList.splitOn '\n' =
    (s.expectAll es).sink.messages.map String.toList ++ [[]]

theorem records_of_empty {s : Session} {es : List Expectation} (hs : s.sink = ∅)
    (hes : ∀ e ∈ es, e.IsIn s.cursor.source) : s.Records es := by
  have hmessages : (s.expectAll es).sink.messages =
      (es.filterMap Expectation.mismatch?).map (Mismatch.message s.cursor.source) := by
    rw [sink_expectAll hs hes]
    rfl
  have hline : ∀ m ∈ (s.expectAll es).sink.messages, '\n' ∉ m.toList := by
    rw [hmessages]
    intro m hm
    obtain ⟨mismatch, -, rfl⟩ := List.mem_map.mp hm
    exact Diagnostic.newline_not_mem_message _
  exact ⟨hmessages, hline, splitOn_writeLines hline⟩

end Session

/--
Into an empty sink, a session records the mismatches among any expectations about tokens of its
source. The lines that are written about them are the same for two lists of expectations exactly if
the kinds that were accepted, the kinds that were found and the offsets where they were found are
the same: each message is one line, and it is about one mismatch only. Its template takes every part
of it as it is.
-/
theorem written_mismatches_inj {s : Session} (hs : s.sink = ∅) :
    (∀ es es' : List Expectation, (∀ e ∈ es, e.IsIn s.cursor.source) →
        (∀ e ∈ es', e.IsIn s.cursor.source) →
        ((s.expectAll es).sink.drain = (s.expectAll es').sink.drain ↔
          es.filterMap Expectation.mismatch? = es'.filterMap Expectation.mismatch?)) ∧
      (∀ es : List Expectation, (∀ e ∈ es, e.IsIn s.cursor.source) → s.Records es) ∧
      (∀ m n : Mismatch, m.offset ≤ s.cursor.source.length → n.offset ≤ s.cursor.source.length →
        m.message s.cursor.source = n.message s.cursor.source → m = n) ∧
      ∀ (sink : Sink) (d : Diagnostic),
        sink.report Diagnostic.template d.arguments = sink.append d.message := by
  refine ⟨fun es es' hes hes' => ⟨fun htext => ?_, fun hsame => ?_⟩,
    fun es hes => Session.records_of_empty hs hes,
    fun m n hm hn h => Mismatch.eq_of_message_eq hm hn h, fun sink d => ?_⟩
  · have hrecords := Session.records_of_empty hs hes
    have hrecords' := Session.records_of_empty hs hes'
    have hlines := hrecords.lines
    rw [htext, hrecords'.lines] at hlines
    have hmessages := List.append_cancel_right hlines
    have htoList : Function.Injective String.toList := fun _ _ => String.toList_inj.mp
    have hsame := List.map_injective_iff.mpr htoList hmessages
    rw [hrecords.messages, hrecords'.messages] at hsame
    exact (Mismatch.eq_of_map_message_eq (Expectation.offset_le_of_mismatches hes')
      (Expectation.offset_le_of_mismatches hes) hsame).symm
  · rw [Session.sink_expectAll hs hes, Session.sink_expectAll hs hes', hsame]
  · rw [Sink.report, Diagnostic.render_template]

/-- Two mismatches on different lines, one of them with nothing accepted and a brace found. -/
theorem written_mismatches_inj_braces :
    let s := Session.ofBytes ("x\n\x7b".toList.map Char.toUInt8)
    let es : List Expectation :=
      [{ found := { kind := .identifier, span := { start := 0, stop := 1 } },
         accepted := [.integer, .string] },
       { found := { kind := .symbol .lbrace, span := { start := 2, stop := 3 } }, accepted := [] }]
    s.sink = ∅ ∧ (∀ e ∈ es, e.IsIn s.cursor.source) ∧ s.Records es ∧
      ((s.expectAll es).sink.drain = (s.expectAll es.reverse).sink.drain ↔
        es.filterMap Expectation.mismatch? = es.reverse.filterMap Expectation.mismatch?) := by
  intro s es
  have hs : s.sink = ∅ := rfl
  have hes : ∀ e ∈ es, e.IsIn s.cursor.source := by
    intro e he
    simp only [es, List.mem_cons, List.not_mem_nil, or_false] at he
    rcases he with rfl | rfl
    · show 1 ≤ 3
      decide
    · show 3 ≤ 3
      decide
  have hreverse : ∀ e ∈ es.reverse, e.IsIn s.cursor.source :=
    fun e he => hes e (List.mem_reverse.mp he)
  obtain ⟨htexts, hrecords, -, -⟩ := written_mismatches_inj hs
  exact ⟨hs, hes, hrecords es hes, htexts es es.reverse hes hreverse⟩

end LetLang
