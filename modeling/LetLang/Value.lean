import LetLang.Text.Quoted

/-!
# Values

A plain value of any shape. Only two things are asked of it: the name of its type, for the message
that a source of this type is not supported, and its display, for the message that it is no label
of a token kind.
-/

namespace LetLang

/-- A value of any shape. A decimal keeps its spelling. -/
inductive Value where
  | null
  | bool (b : Bool)
  | int (n : Int)
  | decimal (spelling : String)
  | text (t : Text)
  | list (vs : List Value)
  | record (fields : List (Text × Value))
deriving Repr, Inhabited

namespace Value

def typeName : Value → String
  | null => "NoneType"
  | bool _ => "bool"
  | int _ => "int"
  | decimal _ => "float"
  | text _ => "str"
  | list _ => "list"
  | record _ => "dict"

mutual

/-- A value on one line: texts in quotes, lists in brackets, records in braces. -/
def display : Value → String
  | null => "None"
  | bool true => "True"
  | bool false => "False"
  | int n => toString n
  | decimal spelling => spelling
  | text t => t.quoted
  | list vs => "[" ++ ", ".intercalate (displayAll vs) ++ "]"
  | record fields => "\x7b" ++ ", ".intercalate (displayFields fields) ++ "\x7d"

def displayAll : List Value → List String
  | [] => []
  | v :: vs => v.display :: displayAll vs

/-- The displays of the fields of a record, key and value with a colon between them. -/
def displayFields : List (Text × Value) → List String
  | [] => []
  | (key, v) :: rest => (key.quoted ++ ": " ++ v.display) :: displayFields rest

end

end Value

end LetLang
