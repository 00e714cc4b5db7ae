import LetLang.Proofs.Grammar
import LetLang.Proofs.Recovery

/-!
# Printing what a parse finds

A statement is printed as `let name = value;`, its name and value as they are spelt in the source.
The statements of any source come from bindings of its tokens (`exists_bindings_of_ahead`). With the
blanks of these replaced, what is printed is a program, and a program says what it spells.

Main statement: `parse_print`. A parse of what is printed has no diagnostics and finds statements
that are spelt the same, so they are printed the same.
-/

namespace LetLang

/-! ## Printing -/

/-- What a statement spells: the bytes of its name and value, and the kind of the value. -/
structure Spelling where
  name : Bytes
  kind : TokenKind
  value : Bytes
deriving DecidableEq, Repr

/-- The spelling as a binding: a space between two lexemes, and none before the semicolon. -/
def Spelling.bytes (p : Spelling) : Bytes :=
  Keyword.letKw.lexeme ++ [Byte.space] ++ p.name ++ [Byte.space] ++ Symbol.assign.lexeme ++
    [Byte.space] ++ p.value ++ Symbol.semicolon.lexeme

/-- What the spans of the statement cover. -/
def Statement.spelling (bytes : Bytes) (s : Statement) : Except SpanError Spelling := do
  let name ← s.ident.span.slice bytes
  let value ← s.value.token.span.slice bytes
  return { name, kind := s.value.token.kind, value }

theorem Statement.spelling_of_slices {bytes name value : Bytes} {s : Statement}
    (hname : s.ident.span.slice bytes = .ok name)
    (hvalue : s.value.token.span.slice bytes = .ok value) :
    s.spelling bytes = .ok { name, kind := s.value.token.kind, value } := by
  rw [spelling, hname, hvalue]
  rfl

/-- The statements of a source, printed one behind the other. -/
def Statement.print (bytes : Bytes) : List Statement → Except SpanError Bytes
  | [] => return []
  | s :: statements => do
      let first ← s.spelling bytes
      let rest ← print bytes statements
      return first.bytes ++ rest

/-- The statements are spelt so, in order. -/
abbrev Statement.AreSpelt (bytes : Bytes) (statements : List Statement)
    (spellings : List Spelling) : Prop :=
  List.Forall₂ (fun s p => s.spelling bytes = .ok p) statements spellings

theorem Statement.AreSpelt.print_eq {bytes : Bytes} {statements : List Statement}
    {spellings : List Spelling} (h : AreSpelt bytes statements spellings) :
    print bytes statements = .ok (spellings.flatMap Spelling.bytes) := by
  induction h with
  | nil => rfl
  | cons hs _ ih =>
      rw [print, hs, ih, List.flatMap_cons]
      rfl

/-- Two statements, each in its own source, are spelt the same. -/
def Statement.SameSpelling (x y : Bytes) (s t : Statement) : Prop :=
  ∃ p, s.spelling x = .ok p ∧ t.spelling y = .ok p

theorem Statement.AreSpelt.forall₂_sameSpelling {x y : Bytes} {ss ts : List Statement}
    {spellings : List Spelling} (hs : AreSpelt x ss spellings) (ht : AreSpelt y ts spellings) :
    List.Forall₂ (SameSpelling x y) ss ts := by
  induction hs generalizing ts with
  | nil =>
      cases ht
      exact .nil
  | cons hs _ ih =>
      cases ht with
      | cons ht hmore => exact .cons ⟨_, hs, ht⟩ (ih hmore)

/-! ## Bindings spell their statements -/

theorem isGap_nil : IsGap [] := by decide

theorem isGap_space : IsGap [Byte.space] := by decide

namespace Binding

def spelling (b : Binding) : Spelling where
  name := b.name
  kind := b.kind
  value := b.value

/-- The binding with other blanks: those that it is printed with. -/
def respaced (b : Binding) : Binding :=
  { b with
    before := []
    afterLet := [Byte.space]
    afterName := [Byte.space]
    afterAssign := [Byte.space]
    afterValue := []
    isGap_before := isGap_nil
    isGap_afterLet := isGap_space
    isGap_afterName := isGap_space
    isGap_afterAssign := isGap_space
    isGap_afterValue := isGap_nil
    afterLet_ne_nil := by decide }

theorem map_spelling_respaced (bindings : List Binding) :
    (bindings.map respaced).map spelling = bindings.map spelling := by
  rw [List.map_map]
  rfl

theorem bytes_respaced (b : Binding) : b.respaced.bytes = b.spelling.bytes := by
  simp [bytes, respaced, Spelling.bytes, spelling]

theorem spelling_statement {bytes front rest : Bytes} (b : Binding)
    (h : bytes = front ++ (b.bytes ++ rest)) :
    (b.statement front.length).spelling bytes = .ok b.spelling := by
  rw [← b.join_pieces] at h
  -- The name is the second piece, and the value the fourth one.
  rcases Piece.forall₂_slice_tokens rest front h with
    _ | ⟨-, _ | ⟨⟨-, hname⟩, _ | ⟨-, _ | ⟨⟨-, hvalue⟩, -⟩⟩⟩⟩
  have hstatement := Option.some.inj (b.ofTokens?_pieces front.length)
  rw [← hstatement]
  exact Statement.spelling_of_slices hname hvalue

theorem areSpelt_statements {bytes : Bytes} (front rest : Bytes) {bindings : List Binding}
    (h : bytes = front ++ (bindings.flatMap Binding.bytes ++ rest)) :
    Statement.AreSpelt bytes (statements front.length bindings) (bindings.map spelling) := by
  induction bindings generalizing front with
  | nil => exact .nil
  | cons b bindings ih =>
      rw [List.flatMap_cons, List.append_assoc] at h
      refine .cons (b.spelling_statement h) ?_
      have hrest := ih (front ++ b.bytes) (by rw [h, List.append_assoc])
      rwa [List.length_append] at hrest

end Binding

/-! ## Statements come from bindings -/

/-- Five tokens that make a binding stand where a binding is written. -/
theorem Window.exists_binding_of_ahead {bytes : Bytes} {ts : List Token} (h : Ahead bytes 0 ts)
    (w : Window (ts ++ [Token.endOf bytes])) :
    ∃ (front rest : Bytes) (b : Binding), bytes = front ++ (b.bytes ++ rest) ∧
      w.statement = b.statement front.length := by
  obtain ⟨after, hts⟩ := w.exists_after rfl
  rcases (ahead_iff_layout (Nat.zero_le _)).mp h with ⟨l, hl, hsettled, htokens⟩
  have hsplit : Piece.tokens 0 l.pieces = w.before ++ (w.five ++ after) :=
    htokens.symm.trans hts
  rw [List.drop_zero] at hl
  rcases Piece.exists_of_tokens_eq_append hsplit with ⟨before, rest, hpieces, -, hrest⟩
  rcases Piece.exists_of_tokens_eq_append hrest with ⟨five, more, rfl, hfive, -⟩
  rw [Nat.zero_add] at hfive
  have hkinds := forall₂_kind_of_accepts (hfive ▸ w.accepts_five)
  rw [Layout.Settled, hpieces] at hsettled
  obtain ⟨b, rfl⟩ := exists_binding hkinds (settled_of_append hsettled)
  refine ⟨Piece.join before, Piece.join more ++ l.tail, b, ?_, ?_⟩
  · rw [hl, Layout.bytes, hpieces, Piece.join_append, Piece.join_append, b.join_pieces,
      List.append_assoc, List.append_assoc]
  · have hstatement := b.ofTokens?_pieces (Piece.join before).length
    rw [hfive] at hstatement
    exact Option.some.inj hstatement

theorem exists_bindings_of_ahead {bytes : Bytes} {ts : List Token} (h : Ahead bytes 0 ts) :
    ∃ bindings : List Binding, Statement.AreSpelt bytes
      ((Production.readings (Token.endOf bytes) ts).filterMap Reading.statement?)
      (bindings.map Binding.spelling) := by
  have hstop : (Token.endOf bytes).kind = .endOfInput := rfl
  obtain ⟨windows, hwindows⟩ := Production.exists_windows hstop ts [Token.endOf bytes]
  have hwindow : ∀ w : Window (ts ++ [Token.endOf bytes]),
      ∃ b : Binding, w.statement.spelling bytes = .ok b.spelling := by
    intro w
    obtain ⟨front, rest, b, hbytes, hstatement⟩ := w.exists_binding_of_ahead h
    exact ⟨b, hstatement ▸ b.spelling_statement hbytes⟩
  choose binding hbinding using hwindow
  refine ⟨windows.map binding, ?_⟩
  rw [← hwindows.statements, List.map_map, Statement.AreSpelt, List.forall₂_map_left_iff,
    List.forall₂_map_right_iff]
  exact List.forall₂_same.mpr fun w _ => hbinding w

/-! ## Parsing what is printed -/

/-- The bindings, with the blanks that they are printed with. -/
def Program.respaced (bindings : List Binding) : Program where
  bindings := bindings.map Binding.respaced
  tail := []
  isGap := isGap_nil

theorem Program.bytes_respaced (bindings : List Binding) :
    (respaced bindings).bytes = (bindings.map Binding.spelling).flatMap Spelling.bytes := by
  rw [bytes, respaced, List.append_nil, List.flatMap_map, List.flatMap_map]
  exact List.flatMap_congr fun b _ => b.bytes_respaced

theorem Program.areSpelt_respaced (bindings : List Binding) :
    Statement.AreSpelt (respaced bindings).bytes (respaced bindings).statements
      (bindings.map Binding.spelling) := by
  have hspelt := @Binding.areSpelt_statements (respaced bindings).bytes [] []
    (bindings.map Binding.respaced) rfl
  rwa [Binding.map_spelling_respaced] at hspelt

/-- The statements of what is printed are spelt as those of the source, and printed the same. -/
structure Reprinted (bytes : Bytes) (result : ParseResult) (printed : Bytes)
    (again : ParseResult) : Prop where
  prints : Statement.print bytes result.statements = .ok printed
  ok : again.ok = true
  /-- There are as many statements, with the same names, kinds of values and values. -/
  spelt : List.Forall₂ (Statement.SameSpelling bytes printed) result.statements again.statements
  prints_again : Statement.print printed again.statements = .ok printed

/--
Whatever a source holds beside its statements, they can be printed. A parse of what is printed has
no diagnostics; it finds statements with the same names, the same kinds of values and the same
values, in the same order, and these are printed as the same bytes.
-/
theorem parse_print (bytes : Bytes) :
    ∃ result log printed again log', (Source.bytes bytes).parse false none = (.ok result, log) ∧
      (Source.bytes printed).parse false none = (.ok again, log') ∧
      Reprinted bytes result printed again := by
  obtain ⟨ts, hts⟩ := exists_ahead (Nat.zero_le bytes.length)
  obtain ⟨bindings, hspelt⟩ := exists_bindings_of_ahead hts
  let p := Program.respaced bindings
  have hagain := Program.areSpelt_respaced bindings
  have hprints := hspelt.print_eq
  have hprintsAgain := hagain.print_eq
  rw [← Program.bytes_respaced] at hprints hprintsAgain
  obtain ⟨hstatements, hcomplete⟩ := Program.readings_of_ahead p.ahead
  refine ⟨_, _, p.bytes, _, _, Source.parse_false (Source.collect_none_of_ahead rfl hts),
    Source.parse_false (Source.collect_none_of_ahead rfl p.ahead), ?_⟩
  constructor
  case prints => exact hprints
  case ok => exact List.isEmpty_iff.mpr (messages_eq_nil_iff.mpr hcomplete)
  case spelt => exact hstatements ▸ hspelt.forall₂_sameSpelling hagain
  case prints_again => exact hstatements ▸ hprintsAgain

example :
    let bytes := "let a\"\n=1;let;let b= \";\n\" ; let".toList.map Char.toUInt8
    (((Source.bytes bytes).parse false none).1.toOption.map fun result =>
        Statement.print bytes result.statements) =
      some (.ok ("let a\" = 1;let b = \";\n\";".toList.map Char.toUInt8)) := by
  decide

end LetLang
