import LetLang.Workspace.Command

/-!
# What a sink holds over a run of calls

A sink is called any number of times, and some calls fail. While none of them is a release, the
sink holds every text that was appended, in order (`Sink.after_collecting`). From the first release
on it holds nothing, whatever is called (`Sink.after_of_mem_release`). An echo reads the messages
that were there when it began, so it comes to an end although it appends to the same sink.

Main statement: `sink_over_run`.
-/

namespace LetLang

/-! ## Calls -/

/-- What a sink may be asked for: an action, or the number of its messages. -/
inductive SinkCall where
  | act (action : SinkAction)
  | size
deriving DecidableEq, Repr

namespace SinkCall

/-- The reply to a call, and the sink behind it. A call that fails leaves the sink as it was. -/
def run (s : Sink) : SinkCall → Except Fault Reply × Sink
  | act action =>
      match action.run s with
      | .error e => (.error e, s)
      | .ok (reply, s₁) => (.ok reply, s₁)
  | size => (.ok (.length s.size), s)

/-- The texts that a call hands to the sink. -/
def texts (s : Sink) : SinkCall → List String
  | act (.append message) => [message]
  | act (.report template args) => ((Template.ofString template).render args).toOption.toList
  | act (.echo suffix) => s.messages.map (· ++ suffix)
  | _ => []

/-- The texts that a call appends with success. -/
def appended (s : Sink) (call : SinkCall) : List String :=
  match (call.run s).1 with
  | .error _ => []
  | .ok _ => call.texts s

end SinkCall

namespace Sink

/-- The sink behind the calls. -/
def after (s : Sink) : List SinkCall → Sink
  | [] => s
  | call :: calls => after (call.run s).2 calls

/-- The replies to the calls. -/
def replies (s : Sink) : List SinkCall → List (Except Fault Reply)
  | [] => []
  | call :: calls => (call.run s).1 :: replies (call.run s).2 calls

/-- All texts that the calls append with success. -/
def appended (s : Sink) : List SinkCall → List String
  | [] => []
  | call :: calls => call.appended s ++ appended (call.run s).2 calls

/-! ## What a sink does -/

/-- The sink holds these messages, takes more behind them, and echoes each of them once. -/
structure OpenWith (s : Sink) (messages : List String) : Prop where
  messages_eq : s.messages = messages
  append : ∀ message, SinkCall.run s (.act (.append message)) =
    (.ok .done, .collecting (messages ++ [message]))
  echo : ∀ suffix, SinkCall.run s (.act (.echo suffix)) =
    (.ok .done, .collecting (messages ++ messages.map (· ++ suffix)))

/-- The sink holds nothing, and no call changes that. -/
structure Closed (s : Sink) : Prop where
  messages_eq : s.messages = []
  append : ∀ message, SinkCall.run s (.act (.append message)) = (.error .sinkReleased, s)
  report : ∀ template args message, (Template.ofString template).render args = .ok message →
    SinkCall.run s (.act (.report template args)) = (.error .sinkReleased, s)
  echo : ∀ suffix, SinkCall.run s (.act (.echo suffix)) = (.ok .done, s)
  release : SinkCall.run s (.act .release) = (.ok .done, s)

/-- The sink tells what it holds and does not change by that. -/
structure Tells (s : Sink) : Prop where
  messages : SinkCall.run s (.act .messages) = (.ok (.messages s.messages), s)
  size : SinkCall.run s .size = (.ok (.length s.messages.length), s)
  drain : SinkCall.run s (.act .drain) = (.ok (.text (writeLines s.messages)), s)
  drain_twice : s.replies [.act .drain, .act .drain] =
    [.ok (.text (writeLines s.messages)), .ok (.text (writeLines s.messages))]

theorem tells (s : Sink) : s.Tells where
  messages := rfl
  size := rfl
  drain := rfl
  drain_twice := rfl

/-! ## One call -/

/-- Appending the messages of a list with a suffix goes on behind what was there. -/
theorem foldlM_append_collecting (suffix : String) (list messages : List String) :
    list.foldlM (fun sink message => sink.append (message ++ suffix)) (collecting messages) =
      .ok (collecting (messages ++ list.map (· ++ suffix))) := by
  induction list generalizing messages with
  | nil =>
      rw [List.map_nil, List.append_nil]
      rfl
  | cons first list ih =>
      have hrest := ih (messages ++ [first ++ suffix])
      rw [List.append_assoc] at hrest
      exact hrest

theorem echo_collecting (messages : List String) (suffix : String) :
    (collecting messages).echo suffix =
      .ok (collecting (messages ++ messages.map (· ++ suffix))) :=
  foldlM_append_collecting suffix messages messages

theorem openWith_collecting (messages : List String) :
    (collecting messages).OpenWith messages where
  messages_eq := rfl
  append message := rfl
  echo suffix := by
    simp only [SinkCall.run, SinkAction.run, echo_collecting]
    rfl

theorem closed_released : released.Closed where
  messages_eq := rfl
  append message := rfl
  report template args message h := by
    simp only [SinkCall.run, SinkAction.run, Sink.report, h]
    rfl
  echo suffix := rfl
  release := rfl

/-- A call that is not a release adds to the sink what it appends, and nothing else. -/
theorem run_collecting {call : SinkCall} (h : call ≠ .act .release) (messages : List String) :
    (call.run (collecting messages)).2 =
      collecting (messages ++ call.appended (collecting messages)) := by
  cases call with
  | size => simp [SinkCall.run, SinkCall.appended, SinkCall.texts]
  | act action =>
      cases action with
      | append message => rfl
      | report template args =>
          simp only [SinkCall.appended, SinkCall.run, SinkAction.run, Sink.report, SinkCall.texts]
          cases (Template.ofString template).render args with
          | error e => exact congrArg collecting (List.append_nil messages).symm
          | ok message => rfl
      | drain => simp [SinkCall.run, SinkAction.run, SinkCall.appended, SinkCall.texts]
      | messages => simp [SinkCall.run, SinkAction.run, SinkCall.appended, SinkCall.texts]
      | echo suffix =>
          rw [SinkCall.appended, ((openWith_collecting messages).echo suffix)]
          rfl
      | release => exact absurd rfl h

theorem run_released (call : SinkCall) : (call.run released).2 = released := by
  cases call with
  | size => rfl
  | act action =>
      cases action with
      | report template args =>
          simp only [SinkCall.run, SinkAction.run, Sink.report]
          cases (Template.ofString template).render args with
          | error e => rfl
          | ok message => rfl
      | append message => rfl
      | drain => rfl
      | messages => rfl
      | echo suffix => rfl
      | release => rfl

/-! ## Runs -/

theorem after_collecting {calls : List SinkCall} (h : .act .release ∉ calls)
    (messages : List String) :
    (collecting messages).after calls =
      collecting (messages ++ (collecting messages).appended calls) := by
  induction calls generalizing messages with
  | nil => simp [after, appended]
  | cons call calls ih =>
      rw [List.mem_cons, not_or] at h
      obtain ⟨hfirst, hrest⟩ := h
      rw [after, appended, run_collecting (Ne.symm hfirst), ih hrest, List.append_assoc]

theorem after_released (calls : List SinkCall) : released.after calls = released := by
  induction calls with
  | nil => rfl
  | cons call calls ih => rw [after, run_released, ih]

/-- Once a release is among the calls, the sink is released at their end. -/
theorem after_of_mem_release {calls : List SinkCall} (h : .act .release ∈ calls) (s : Sink) :
    s.after calls = released := by
  induction calls generalizing s with
  | nil => simp at h
  | cons call calls ih =>
      rcases List.mem_cons.mp h with rfl | hrest
      · exact after_released calls
      · exact ih hrest _

end Sink

/--
Behind any calls on a new sink, it holds all texts that they appended with success, in order, if
none of them released it. If one did, it holds nothing, refuses every further text and stays as it
is. Either way it tells what it holds without a change, as often as it is asked.
-/
theorem sink_over_run (calls : List SinkCall) :
    let s := (∅ : Sink).after calls
    (.act .release ∉ calls → s.OpenWith ((∅ : Sink).appended calls)) ∧
      (.act .release ∈ calls → s.Closed) ∧ s.Tells ∧
      Fault.sinkReleased.message = "diagnostic sink used after release" := by
  intro s
  refine ⟨fun h => ?_, fun h => ?_, s.tells, rfl⟩
  · have hafter : s = .collecting ([] ++ (∅ : Sink).appended calls) := Sink.after_collecting h []
    rw [hafter]
    exact Sink.openWith_collecting _
  · have hafter : s = .released := Sink.after_of_mem_release h ∅
    rw [hafter]
    exact Sink.closed_released

/-- An echo behind a template that cannot be rendered, and a message behind a release. -/
theorem sink_over_run_echoed :
    let calls : List SinkCall :=
      [.act (.report "a\x7b\x7d" ["1"]), .act (.report "\x7b" []), .act (.append "b"),
        .act (.echo "!")]
    let closing : List SinkCall := [.act .release, .act (.append "c")]
    (.act .release ∉ calls ∧ (∅ : Sink).appended calls = ["a1", "b", "a1!", "b!"] ∧
        ((∅ : Sink).after calls).OpenWith ["a1", "b", "a1!", "b!"]) ∧
      .act .release ∈ calls ++ closing ∧ ((∅ : Sink).after (calls ++ closing)).Closed := by
  intro calls closing
  have hopen : .act .release ∉ calls := by decide
  have hclosed : .act .release ∈ calls ++ closing := by decide
  have happended : (∅ : Sink).appended calls = ["a1", "b", "a1!", "b!"] := by decide
  have hholds := (sink_over_run calls).1 hopen
  rw [happended] at hholds
  exact ⟨⟨hopen, happended, hholds⟩, hclosed, (sink_over_run (calls ++ closing)).2.1 hclosed⟩

end LetLang
