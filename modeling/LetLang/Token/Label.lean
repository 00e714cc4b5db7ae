import LetLang.Token.Kind
import LetLang.Value

/-!
# Kinds by label

A kind can be looked up by its label. Any value may be asked for; only a text that is a label finds
a kind, and the error names every other value by its display.
-/

namespace LetLang

structure LabelError where
  value : Value
deriving Repr

def LabelError.message (e : LabelError) : String :=
  e.value.display ++ " is not a valid TokenKind"

namespace TokenKind

def ofLabel? (label : Text) : Option TokenKind :=
  all.find? fun kind => Text.ofString kind.label == label

/-- The kind whose label is the given value. -/
def ofValue : Value → Except LabelError TokenKind
  | .text t =>
      match ofLabel? t with
      | some kind => .ok kind
      | none => .error { value := .text t }
  | v => .error { value := v }

@[simp] theorem ofLabel?_label (kind : TokenKind) :
    ofLabel? (Text.ofString kind.label) = some kind := by
  cases kind with
  | symbol s => cases s <;> decide
  | keyword k => cases k <;> decide
  | _ => decide

end TokenKind

end LetLang
