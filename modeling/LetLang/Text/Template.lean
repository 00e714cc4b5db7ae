import LetLang.Text.DecimalDigit
import LetLang.Text.Quoted

/-!
# Templates

A template is a text with replacement fields in braces. An empty field takes the next argument, a
field of decimal digits the argument with that index, counted from zero; a template uses one of
these two ways throughout. A doubled brace is a literal one. Fields with any other name find no
argument.

A template is read once into `pieces`, up to its first flaw. Rendering goes from left to right and
reports whatever fails first, so a field that finds no argument hides a flaw behind it.
-/

namespace LetLang

/-- Why a template cannot be rendered. -/
inductive TemplateError where
  | loneOpen
  /-- A closing brace closes no field. -/
  | loneClose
  | unclosed
  /-- A field holds an opening brace. -/
  | nested
  /-- An index does not fit into 63 bits. -/
  | hugeIndex
  /-- An empty field follows an indexed one. -/
  | automaticAfterManual
  /-- An indexed field follows an empty one. -/
  | manualAfterAutomatic
  | missingIndex (n : Nat)
  | missingName (name : String)
deriving DecidableEq, Repr

def TemplateError.message : TemplateError → String
  | loneOpen => "Single '\x7b' encountered in format string"
  | loneClose => "Single '\x7d' encountered in format string"
  | unclosed => "expected '\x7d' before end of string"
  | nested => "unexpected '\x7b' in field name"
  | hugeIndex => "Too many decimal digits in format string"
  | automaticAfterManual =>
      "cannot switch from manual field specification to automatic field numbering"
  | manualAfterAutomatic =>
      "cannot switch from automatic field numbering to manual field specification"
  | missingIndex n =>
      "Replacement index " ++ toString n ++ " out of range for positional args tuple"
  | missingName name => (Text.ofString name).quoted

namespace Template

/-! ## Fields and pieces -/

inductive Field where
  | next
  | index (n : Nat)
  | name (name : String)
deriving DecidableEq, Repr

/-- The greatest index that a field may have. -/
def maxIndex : Nat := Nat.pow 2 63 - 1

/-- The field with the given characters between its braces. Digits are read up to the first
character that is none, so a run of digits that is too long is refused also at the head of a name. -/
def Field.ofName (cs : List Char) : Except TemplateError Field :=
  let values := cs.map DecimalDigit.value?
  let n := DecimalDigit.number (values.takeWhile Option.isSome).reduceOption
  if cs.isEmpty then .ok .next
  else if maxIndex < n then .error .hugeIndex
  else if values.all Option.isSome then .ok (.index n)
  else .ok (.name (String.ofList cs))

inductive Piece where
  | literal (c : Char)
  | field (f : Field)
deriving DecidableEq, Repr

end Template

/-- The pieces of a template up to its first flaw, and the flaw. -/
structure Template where
  pieces : List Template.Piece
  flaw : Option TemplateError
deriving DecidableEq, Repr

namespace Template

def cons (piece : Piece) (t : Template) : Template := { t with pieces := piece :: t.pieces }

/-- The template that has no piece before its flaw. -/
def flawed (e : TemplateError) : Template := { pieces := [], flaw := some e }

/-- Reads a template. Inside a field, the first argument holds the field's characters so far. -/
def read : Option (List Char) → List Char → Template
  | none, [] => { pieces := [], flaw := none }
  | none, '{' :: '{' :: rest => (read none rest).cons (.literal '{')
  | none, '}' :: '}' :: rest => (read none rest).cons (.literal '}')
  | none, ['{'] => flawed .loneOpen
  | none, '{' :: rest => read (some []) rest
  | none, '}' :: _ => flawed .loneClose
  | none, c :: rest => (read none rest).cons (.literal c)
  | some _, [] => flawed .unclosed
  | some _, '{' :: _ => flawed .nested
  | some name, '}' :: rest =>
      match Field.ofName name with
      | .error e => flawed e
      | .ok f => (read none rest).cons (.field f)
  | some name, c :: rest => read (some (name ++ [c])) rest

def ofString (s : String) : Template := read none s.toList

/-! ## Rendering -/

/-- How the fields so far have picked their arguments. -/
inductive Numbering where
  | undecided
  /-- By order; the next empty field takes the given index. -/
  | automatic (next : Nat)
  | manual
deriving DecidableEq, Repr

def argument (args : List String) (n : Nat) : Except TemplateError String :=
  match args[n]? with
  | some arg => .ok arg
  | none => .error (.missingIndex n)

/-- The index that a field asks for, and the numbering behind it. -/
def Field.pick : Field → Numbering → Except TemplateError (Nat × Numbering)
  | next, .undecided => .ok (0, .automatic 1)
  | next, .automatic n => .ok (n, .automatic (n + 1))
  | next, .manual => .error .automaticAfterManual
  | index _, .automatic _ => .error .manualAfterAutomatic
  | index n, _ => .ok (n, .manual)
  | name key, _ => .error (.missingName key)

def renderPieces (args : List String) :
    Numbering → List Piece → Except TemplateError (List Char)
  | _, [] => .ok []
  | numbering, .literal c :: rest =>
      match renderPieces args numbering rest with
      | .error e => .error e
      | .ok cs => .ok (c :: cs)
  | numbering, .field f :: rest =>
      match f.pick numbering with
      | .error e => .error e
      | .ok (n, numbering) =>
          match argument args n with
          | .error e => .error e
          | .ok arg =>
              match renderPieces args numbering rest with
              | .error e => .error e
              | .ok cs => .ok (arg.toList ++ cs)

/-- The template with arguments in place of its fields; those that no field takes are ignored. -/
def render (t : Template) (args : List String) : Except TemplateError String :=
  match renderPieces args .undecided t.pieces with
  | .error e => .error e
  | .ok cs =>
      match t.flaw with
      | some e => .error e
      | none => .ok (String.ofList cs)

end Template

end LetLang
