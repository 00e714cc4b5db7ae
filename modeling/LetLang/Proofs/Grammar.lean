import LetLang.Proofs.Run
import LetLang.Proofs.Spacing

/-!
# The accepted language

A `Binding` is `let name = value;` as it may be written, and a `Program` is bindings with blanks
around them. Both are plain bytes: neither mentions the scanner or the parser.

Main statement: `parse_recognizes`. The sources that parse without diagnostics are exactly the
programs, and parsing one gives the statements of its bindings, each at its place.
-/

namespace LetLang

/-- A binding as it is written, with the blanks in front of it. -/
structure Binding where
  before : Bytes
  afterLet : Bytes
  name : Bytes
  afterName : Bytes
  afterAssign : Bytes
  kind : TokenKind
  value : Bytes
  afterValue : Bytes
  isGap_before : IsGap before
  isGap_afterLet : IsGap afterLet
  isGap_afterName : IsGap afterName
  isGap_afterAssign : IsGap afterAssign
  isGap_afterValue : IsGap afterValue
  /-- The name would become a part of the keyword. -/
  afterLet_ne_nil : afterLet ≠ []
  name_spells : TokenKind.identifier.Spells name
  literal : kind = .integer ∨ kind = .string
  value_spells : kind.Spells value

namespace Binding

/-- The bytes of a binding. -/
def bytes (b : Binding) : Bytes :=
  b.before ++ Keyword.letKw.lexeme ++ b.afterLet ++ b.name ++ b.afterName ++
    Symbol.assign.lexeme ++ b.afterAssign ++ b.value ++ b.afterValue ++ Symbol.semicolon.lexeme

/-- Where the name stands in a binding. -/
def nameStart (b : Binding) : Nat :=
  b.before.length + Keyword.letKw.lexeme.length + b.afterLet.length

/-- Where the value stands in a binding. -/
def valueStart (b : Binding) : Nat :=
  b.nameStart + b.name.length + b.afterName.length + Symbol.assign.lexeme.length +
    b.afterAssign.length

/-- The statement of a binding whose bytes start at the offset. -/
def statement (offset : Nat) (b : Binding) : Statement where
  ident :=
    { kind := .identifier
      span :=
        { start := offset + b.nameStart
          stop := offset + b.nameStart + b.name.length } }
  value :=
    { token :=
        { kind := b.kind
          span :=
            { start := offset + b.valueStart
              stop := offset + b.valueStart + b.value.length } } }

/-- The statements of bindings, the first of which starts at the offset. -/
def statements : Nat → List Binding → List Statement
  | _, [] => []
  | offset, b :: bindings =>
      b.statement offset :: statements (offset + b.bytes.length) bindings

theorem length_statements (offset : Nat) (bindings : List Binding) :
    (statements offset bindings).length = bindings.length := by
  induction bindings generalizing offset with
  | nil => rfl
  | cons b bindings ih => simp [statements, ih]

end Binding

/-- Bindings, and the blanks behind the last one. -/
structure Program where
  bindings : List Binding
  tail : Bytes
  isGap : IsGap tail

namespace Program

/-- The bytes of a program. -/
def bytes (p : Program) : Bytes := p.bindings.flatMap Binding.bytes ++ p.tail

/-- The statements of a program. -/
def statements (p : Program) : List Statement := Binding.statements 0 p.bindings

end Program

/-! ## The pieces of a binding -/

namespace Binding

/-- The five lexemes of a binding with the blanks between them. -/
def pieces (b : Binding) : List Piece :=
  [ { gap := b.before
      kind := .keyword .letKw
      lexeme := Keyword.letKw.lexeme
      isGap := b.isGap_before
      spells := rfl },
    { gap := b.afterLet
      kind := .identifier
      lexeme := b.name
      isGap := b.isGap_afterLet
      spells := b.name_spells },
    { gap := b.afterName
      kind := .symbol .assign
      lexeme := Symbol.assign.lexeme
      isGap := b.isGap_afterName
      spells := rfl },
    { gap := b.afterAssign
      kind := b.kind
      lexeme := b.value
      isGap := b.isGap_afterAssign
      spells := b.value_spells },
    { gap := b.afterValue
      kind := .symbol .semicolon
      lexeme := Symbol.semicolon.lexeme
      isGap := b.isGap_afterValue
      spells := rfl } ]

theorem join_pieces (b : Binding) : Piece.join b.pieces = b.bytes := by
  simp [pieces, bytes]

theorem accepts_pieces (k : Nat) (b : Binding) :
    Production.binding.Accepts (Piece.tokens k b.pieces) := by
  have hvalue : b.kind ∈ [TokenKind.integer, TokenKind.string] := by
    simpa using b.literal
  refine .cons ?_ (.cons ?_ (.cons ?_ (.cons hvalue (.cons ?_ .nil))))
  all_goals exact List.mem_singleton.mpr rfl

theorem ofTokens?_pieces (k : Nat) (b : Binding) :
    Statement.ofTokens? (Piece.tokens k b.pieces) = some (b.statement k) := by
  simp only [pieces, Piece.tokens, Piece.token, Piece.length_bytes, Statement.ofTokens?, statement,
    nameStart, valueStart, Option.some.injEq, Statement.mk.injEq, Token.mk.injEq, Span.mk.injEq,
    Literal.mk.injEq, true_and]
  omega

/-- A value is a number or starts with a quote. -/
theorem head?_value (b : Binding) : b.value.head? ≠ some Byte.equals := by
  intro hhead
  rcases b.literal with hk | hk
  · have hdigits : b.value ≠ [] ∧ ∀ c ∈ b.value, Byte.isDigit c = true := by
      have hs := b.value_spells
      rwa [hk] at hs
    have hdigit := hdigits.2 _ (List.mem_of_head? hhead)
    exact absurd hdigit (by decide)
  · have hquoted : ∃ body, b.value = Byte.quote :: (body ++ [Byte.quote]) ∧
        Escaped Byte.quote body ∧ body.getLast? ≠ some Byte.backslash := by
      have hs := b.value_spells
      rwa [hk] at hs
    rcases hquoted with ⟨body, hvalue, -, -⟩
    rw [hvalue] at hhead
    exact absurd (Option.some.inj hhead) (by decide)

theorem settled_pieces (b : Binding) {tail : Bytes} {more : List Piece}
    (h : Piece.Settled tail more) : Piece.Settled tail (b.pieces ++ more) := by
  have hliteral : b.kind.isOperator = false ∧ b.kind ≠ .illegal := by
    rcases b.literal with hk | hk <;> rw [hk] <;> exact ⟨rfl, by simp⟩
  have hequals := b.head?_value
  have hsemicolon : (TokenKind.symbol .semicolon).StopsBefore (Piece.join more ++ tail) :=
    ⟨nofun, nofun, nofun⟩
  rw [pieces, List.cons_append, List.cons_append, List.cons_append, List.cons_append,
    List.cons_append, List.nil_append]
  rw [Piece.settled_cons_cons, Piece.settled_cons_cons, Piece.settled_cons_cons,
    Piece.settled_cons_cons]
  refine ⟨?_, ?_, ?_, ?_, hsemicolon, h⟩
  · exact ⟨fun hgap => absurd hgap b.afterLet_ne_nil, fun _ => nofun, nofun⟩
  · exact ⟨fun _ _ => ⟨_, rfl, by decide⟩, fun _ => nofun, nofun⟩
  · exact ⟨fun _ => nofun, fun _ _ => hequals, nofun⟩
  · refine ⟨fun _ _ => ⟨_, rfl, by decide⟩, fun _ ho => ?_, hliteral.2⟩
    rw [hliteral.1] at ho
    cases ho

end Binding

/-! ## Programs are settled layouts -/

namespace Program

/-- The layout of a program. -/
def layout (p : Program) : Layout where
  pieces := p.bindings.flatMap Binding.pieces
  tail := p.tail
  isGap := p.isGap

theorem bytes_layout (p : Program) : p.layout.bytes = p.bytes := by
  have hjoin : ∀ bindings : List Binding,
      Piece.join (bindings.flatMap Binding.pieces) = bindings.flatMap Binding.bytes := by
    intro bindings
    induction bindings with
    | nil => rfl
    | cons b bindings ih =>
        rw [List.flatMap_cons, List.flatMap_cons, Piece.join_append, ih, b.join_pieces]
  rw [Layout.bytes, bytes, layout, hjoin]

theorem settled_layout (p : Program) : p.layout.Settled := by
  rcases p with ⟨bindings, tail, hgap⟩
  induction bindings with
  | nil => trivial
  | cons b bindings ih => exact b.settled_pieces ih

end Program

theorem readings_pieces (stop : Token) (k : Nat) (bindings : List Binding) :
    let readings := Production.readings stop (Piece.tokens k (bindings.flatMap Binding.pieces))
    readings.filterMap Reading.statement? = Binding.statements k bindings ∧
      ∀ r ∈ readings, ∃ ts, r = .complete ts := by
  induction bindings generalizing k with
  | nil =>
      rw [List.flatMap_nil, Piece.tokens, Production.readings_nil]
      exact ⟨rfl, by simp⟩
  | cons b bindings ih =>
      rcases ih (k + b.bytes.length) with ⟨hstatements, hcomplete⟩
      have hstatement : (Reading.complete (Piece.tokens k b.pieces)).statement? =
          some (b.statement k) := b.ofTokens?_pieces k
      rw [List.flatMap_cons, Piece.tokens_append, b.join_pieces,
        Production.readings_of_accepts (b.accepts_pieces k)]
      refine ⟨?_, ?_⟩
      · rw [List.filterMap_cons_some hstatement, hstatements, Binding.statements]
      · intro r hr
        rcases List.mem_cons.mp hr with rfl | hr
        · exact ⟨_, rfl⟩
        · exact hcomplete r hr

/-! ## Complete readings are bindings -/

theorem forall₂_kind_of_accepts {production : Production} {k : Nat} {pieces : List Piece}
    (h : production.Accepts (Piece.tokens k pieces)) :
    List.Forall₂ (fun expected p => p.kind ∈ expected) production pieces := by
  induction pieces generalizing k production with
  | nil =>
      cases h
      exact .nil
  | cons p pieces ih =>
      cases h with
      | cons hp hmore => exact .cons hp (ih hmore)

/-- A word that follows another one without a blank would be a part of it. -/
theorem gap_ne_nil_of_apart {p q : Piece} (h : p.Apart q) (hp : p.kind.isWord = true)
    (hq : q.kind.isWord = true) : q.gap ≠ [] := by
  intro hgap
  rcases h.word hgap hp with ⟨b, hhead, hdelimiter⟩
  have hplain := (isWord_of_spells hq q.spells).plain b (List.mem_of_head? hhead)
  rw [hdelimiter] at hplain
  contradiction

/-- Settled pieces of the kinds of a binding are the pieces of one. -/
theorem exists_binding {tail : Bytes} {pieces more : List Piece}
    (hkinds : List.Forall₂ (fun expected p => p.kind ∈ expected) Production.binding pieces)
    (hsettled : Piece.Settled tail (pieces ++ more)) : ∃ b : Binding, b.pieces = pieces := by
  obtain ⟨⟨before, _, _, hbefore, hlet⟩, _, h₁, hrest₁, rfl⟩ :=
    List.forall₂_cons_left_iff.mp hkinds
  obtain ⟨⟨afterLet, _, name, hafterLet, hname⟩, _, h₂, hrest₂, rfl⟩ :=
    List.forall₂_cons_left_iff.mp hrest₁
  obtain ⟨⟨afterName, _, _, hafterName, hassign⟩, _, h₃, hrest₃, rfl⟩ :=
    List.forall₂_cons_left_iff.mp hrest₂
  obtain ⟨⟨afterAssign, kind, value, hafterAssign, hvalue⟩, _, h₄, hrest₄, rfl⟩ :=
    List.forall₂_cons_left_iff.mp hrest₃
  obtain ⟨⟨afterValue, _, _, hafterValue, hsemicolon⟩, _, h₅, hrest₅, rfl⟩ :=
    List.forall₂_cons_left_iff.mp hrest₄
  obtain rfl := List.forall₂_nil_left_iff.mp hrest₅
  obtain rfl := List.mem_singleton.mp h₁
  obtain rfl := List.mem_singleton.mp h₂
  obtain rfl := List.mem_singleton.mp h₃
  obtain rfl := List.mem_singleton.mp h₅
  have hliteral : kind = .integer ∨ kind = .string := by simpa using h₄
  have hgap := gap_ne_nil_of_apart (Piece.settled_cons_cons.mp hsettled).1 rfl rfl
  cases hlet
  cases hassign
  cases hsemicolon
  exact ⟨⟨before, afterLet, name, afterName, afterAssign, kind, value, afterValue, hbefore,
    hafterLet, hafterName, hafterAssign, hafterValue, hgap, hname, hliteral, hvalue⟩, rfl⟩

theorem settled_of_append {tail : Bytes} {pieces more : List Piece}
    (h : Piece.Settled tail (pieces ++ more)) : Piece.Settled tail more := by
  induction pieces with
  | nil => exact h
  | cons p pieces ih => exact ih h.2

/-- If every reading of settled pieces is complete, they are the pieces of bindings. -/
theorem exists_bindings {stop : Token} {tail : Bytes} {k : Nat} {pieces : List Piece}
    (hstop : ∀ expected ∈ Production.binding, stop.kind ∉ expected)
    (hsettled : Piece.Settled tail pieces)
    (h : ∀ r ∈ Production.readings stop (Piece.tokens k pieces), ∃ ts, r = .complete ts) :
    ∃ bindings : List Binding, bindings.flatMap Binding.pieces = pieces := by
  -- Induction on the number of pieces: a binding takes five of them.
  induction hn : pieces.length using Nat.strong_induction_on generalizing pieces k with
  | _ n ih =>
      cases pieces with
      | nil => exact ⟨[], rfl⟩
      | cons p pieces =>
          have hcons := Production.readings_cons stop (p.token k)
            (Piece.tokens (k + p.bytes.length) pieces)
          rw [← Piece.tokens] at hcons
          rw [hcons] at h
          rcases h _ List.mem_cons_self with ⟨us, hus⟩
          have hsplit := Production.eq_append_of_readFrom_complete hstop hus
          rcases Piece.exists_of_tokens_eq_append hsplit with ⟨first, more, hpieces, rfl, hmore⟩
          rw [hpieces] at hsettled
          obtain ⟨b, rfl⟩ := exists_binding
            (forall₂_kind_of_accepts (Production.readFrom_complete hus)) hsettled
          have hlt : more.length < n := by
            rw [← hn, hpieces, List.length_append]
            exact Nat.lt_add_of_pos_left (Nat.succ_pos 4)
          have hrest : ∀ r ∈ Production.readings stop
              (Piece.tokens (k + (Piece.join b.pieces).length) more), ∃ ts, r = .complete ts := by
            intro r hr
            rw [hmore] at hr
            exact h r (List.mem_cons_of_mem _ hr)
          rcases ih _ hlt (settled_of_append hsettled) hrest rfl with ⟨bindings, rfl⟩
          exact ⟨b :: bindings, hpieces.symm⟩

/-! ## Parsing -/

theorem Program.ahead (p : Program) :
    Ahead p.bytes 0 (Piece.tokens 0 (p.bindings.flatMap Binding.pieces)) := by
  have hlayout : p.bytes.drop 0 = p.layout.bytes := by
    rw [List.drop_zero, p.bytes_layout]
  exact (ahead_tokens_iff (Nat.zero_le _) hlayout).mpr p.settled_layout

theorem Program.readings_of_ahead {p : Program} {ts : List Token} (h : Ahead p.bytes 0 ts) :
    let readings := Production.readings (Token.endOf p.bytes) ts
    readings.filterMap Reading.statement? = p.statements ∧
      ∀ r ∈ readings, ∃ us, r = .complete us := by
  rw [h.unique p.ahead]
  exact readings_pieces (Token.endOf p.bytes) 0 p.bindings

/-- The bytes are a program exactly if no reading of them meets a mismatch. -/
theorem exists_program_iff {bytes : Bytes} {ts : List Token} (h : Ahead bytes 0 ts) :
    (∃ p : Program, p.bytes = bytes) ↔
      ∀ r ∈ Production.readings (Token.endOf bytes) ts, ∃ us, r = .complete us := by
  constructor
  · rintro ⟨p, rfl⟩
    exact (Program.readings_of_ahead h).2
  · intro hcomplete
    rcases (ahead_iff_layout (Nat.zero_le _)).mp h with ⟨l, hl, hsettled, rfl⟩
    rcases exists_bindings Production.endOfInput_not_mem_binding hsettled hcomplete with
      ⟨bindings, hbindings⟩
    let p : Program := { bindings, tail := l.tail, isGap := l.isGap }
    have hlayout : p.layout.bytes = l.bytes := by
      rw [Layout.bytes, Layout.bytes, Program.layout, hbindings]
    refine ⟨p, ?_⟩
    rw [← p.bytes_layout, hlayout, ← hl, List.drop_zero]

theorem messages_eq_nil_iff {bytes : Bytes} {readings : List Reading} :
    Reading.messages bytes readings = [] ↔ ∀ r ∈ readings, ∃ ts, r = .complete ts := by
  rw [Reading.messages, List.map_eq_nil_iff, List.filterMap_eq_nil_iff]
  refine forall₂_congr fun r _ => ?_
  cases r with
  | complete ts => simp [Reading.diagnostic?]
  | mismatch accepted expected found => simp [Reading.diagnostic?]

/-- What a parse of the bytes finds, without a word about how they are scanned. -/
structure Recognized (bytes : Bytes) (result : ParseResult) : Prop where
  ok_iff : result.ok = true ↔ ∃ program : Program, program.bytes = bytes
  statements : ∀ program : Program, program.bytes = bytes →
    result.statements = program.statements ∧ result.statements.length = program.bindings.length

/--
The sources that parse without diagnostics are the programs, and the statements of a program are
found in order, names and values where they are written.
-/
theorem parse_recognizes {source : Source} {bytes : Bytes} (h : source.buffer = .ok bytes) :
    ∃ result log, source.parse false none = (.ok result, log) ∧ Recognized bytes result := by
  obtain ⟨ts, hahead⟩ := exists_ahead (Nat.zero_le bytes.length)
  refine ⟨_, _, Source.parse_false (Source.collect_none_of_ahead h hahead), ?_, ?_⟩
  · rw [ParseResult.ok, List.isEmpty_iff, messages_eq_nil_iff, exists_program_iff hahead]
  · rintro program rfl
    have hstatements := (Program.readings_of_ahead hahead).1
    refine ⟨hstatements, ?_⟩
    rw [hstatements]
    exact Binding.length_statements 0 program.bindings

theorem parse_recognizes_quoted :
    let bytes := "let a\"=1;\nlet b = \"\\\";\" ;".toList.map Char.toUInt8
    (Source.bytes bytes).buffer = .ok bytes ∧
      ∃ result log, (Source.bytes bytes).parse false none = (.ok result, log) ∧
        Recognized bytes result :=
  ⟨rfl, parse_recognizes rfl⟩

end LetLang
