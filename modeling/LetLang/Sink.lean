import LetLang.Diagnostic
import LetLang.Fault

/-!
# Sinks

A sink collects the messages of a session in order until it is released. Releasing drops what was
collected, for good: a released sink holds nothing and takes nothing.

An operation that fails returns no sink, so its caller still holds the one from before.
-/

namespace LetLang

inductive Sink where
  | collecting (messages : List String)
  | released
deriving DecidableEq, Repr

namespace Sink

def empty : Sink := collecting []

instance : EmptyCollection Sink := ⟨empty⟩

/-- What a sink holds, in the order of arrival. -/
def messages : Sink → List String
  | collecting ms => ms
  | released => []

def isReleased : Sink → Bool
  | collecting _ => false
  | released => true

def size (s : Sink) : Nat := s.messages.length

def append (s : Sink) (message : String) : Except Fault Sink :=
  match s with
  | collecting ms => .ok (collecting (ms ++ [message]))
  | released => .error .sinkReleased

/-- Renders a template and adds the result. A flaw of the template shows first. -/
def report (s : Sink) (template : String) (args : List String) : Except Fault Sink :=
  match (Template.ofString template).render args with
  | .error e => .error (.template e)
  | .ok message => s.append message

/-- Adds every message once more with a suffix. Only those present at the start count. -/
def echo (s : Sink) (suffix : String) : Except Fault Sink :=
  s.messages.foldlM (fun sink message => sink.append (message ++ suffix)) s

/-- The messages as lines. They stay in the sink. -/
def drain (s : Sink) : String := writeLines s.messages

def release (_ : Sink) : Sink := released

@[simp] theorem messages_empty : (∅ : Sink).messages = [] := rfl

@[simp] theorem isReleased_empty : (∅ : Sink).isReleased = false := rfl

@[simp] theorem messages_release (s : Sink) : s.release.messages = [] := rfl

@[simp] theorem isReleased_release (s : Sink) : s.release.isReleased = true := rfl

theorem append_of_isReleased {s : Sink} (h : s.isReleased = true) (message : String) :
    s.append message = .error .sinkReleased := by
  cases s with
  | collecting ms => simp [isReleased] at h
  | released => rfl

theorem messages_of_append {s t : Sink} {message : String} (h : s.append message = .ok t) :
    t.messages = s.messages ++ [message] := by
  cases s with
  | collecting ms => cases h; rfl
  | released => contradiction

end Sink

end LetLang
