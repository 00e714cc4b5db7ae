import LetLang.Byte
import LetLang.Text.CodePoint

/-!
# Membership in collections

Whether every element of one collection is in another. What counts as an element depends on the
other collection: of a text every part of it, of bytes every one of their numbers, of a list every
member. Asking a text for a number, or bytes for a text or for a number that is no byte, is an
error.

Elements are tried in order, and the first that is missing or makes no sense decides.
-/

namespace LetLang

inductive Element where
  | text (t : Text)
  | number (n : Int)
deriving DecidableEq, Repr

inductive Collection where
  | text (t : Text)
  | bytes (b : Bytes)
  | list (members : List Element)
deriving DecidableEq, Repr

/-- Why membership makes no sense. -/
inductive MembershipError where
  | numberInText
  | textInBytes
  | noByte
deriving DecidableEq, Repr

def MembershipError.message : MembershipError → String
  | numberInText => "'in <string>' requires string as left operand, not int"
  | textInBytes => "a bytes-like object is required, not 'str'"
  | noByte => "byte must be in range(0, 256)"

/-- Whether a text is a contiguous part of another. -/
def Text.isPartOf (t : Text) : Text → Bool
  | [] => t.isEmpty
  | p :: rest => t.isPrefixOf (p :: rest) || isPartOf t rest

namespace Collection

/-- The members of a collection: the code points of a text, the numbers of bytes. -/
def members : Collection → List Element
  | text t => t.map fun p => .text [p]
  | bytes b => b.map fun n => .number n.toNat
  | list es => es

def holds : Collection → Element → Except MembershipError Bool
  | text t, .text part => .ok (part.isPartOf t)
  | text _, .number _ => .error .numberInText
  | bytes b, .number n =>
      if 0 ≤ n ∧ n < 256 then .ok (b.any fun x => x.toNat == n.toNat) else .error .noByte
  | bytes _, .text _ => .error .textInBytes
  | list es, e => .ok (es.contains e)

/-- Whether a collection holds every one of the given elements. -/
def holdsAll (c : Collection) : List Element → Except MembershipError Bool
  | [] => .ok true
  | e :: rest =>
      match c.holds e with
      | .error err => .error err
      | .ok false => .ok false
      | .ok true => holdsAll c rest

/-- Whether every member of the first collection is in the second. -/
def containsOnly (haystack needles : Collection) : Except MembershipError Bool :=
  needles.holdsAll haystack.members

end Collection

end LetLang
