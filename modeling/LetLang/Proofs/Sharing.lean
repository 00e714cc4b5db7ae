import Mathlib.Data.List.Induction
import LetLang.Proofs.Naming

/-!
# Sessions that share sinks

Sessions meet in the sinks they share and nowhere else. A call adds the messages to its sink that it
would add to an empty one, and otherwise does what it does there (`Session.readBinding_collecting`).
So as long as a sink is not released, every session on it runs as it does alone. Once it is
released, all of them refuse to read, and sessions on other sinks go on.

Main statement: `sessions_meet_only_in_release`, for calls and releases in any order.
-/

namespace LetLang

/-! ## A session alone -/

namespace Session

/-- What a sink that is not released holds makes no difference to a call, which keeps all of it. -/
theorem readBinding_collecting (c : Cursor) (messages : List String) (log : List LogRecord) :
    let lone := readBinding { cursor := c }
    readBinding { cursor := c, sink := .collecting messages, log } =
      (lone.1,
        { cursor := lone.2.cursor
          sink := .collecting (messages ++ lone.2.sink.messages)
          log := log ++ lone.2.log }) := by
  have hempty : (∅ : Sink) = .collecting [] := rfl
  simp only [readBinding, Sink.isReleased, Bool.false_eq_true, if_false, read, hempty]
  cases hread : c.read Production.binding with
  | error e => simp [Sink.messages]
  | ok result =>
      obtain ⟨reading, c'⟩ := result
      cases reading with
      | complete ts => simp [Sink.messages]
      | mismatch accepted expected found =>
          simp only [report]
          cases hposition : found.span.position c'.source with
          | error e => simp [Sink.messages]
          | ok position => simp [Sink.append, Sink.messages]

/-- The session on the cursor with a sink of its own, once it is called so many times. -/
def alone (c : Cursor) : Nat → Session
  | 0 => { cursor := c }
  | n + 1 => (alone c n).readBinding.2

/-- The messages that its next call adds. -/
def addsAlone (c : Cursor) (n : Nat) : List String :=
  (alone c (n + 1)).sink.messages.drop (alone c n).sink.messages.length

theorem sink_alone (c : Cursor) (n : Nat) :
    (alone c n).sink = .collecting (alone c n).sink.messages := by
  cases n with
  | zero => rfl
  | succ n =>
      have hsink := sink_alone c n
      have hcall := readBinding_collecting (alone c n).cursor (alone c n).sink.messages
        (alone c n).log
      rw [← hsink] at hcall
      rw [alone, hcall]
      rfl

/-- A session on a shared sink goes on as it does alone. -/
theorem readBinding_of_alone (c : Cursor) (n : Nat) (messages : List String)
    (log : List LogRecord) :
    let s : Session := { cursor := (alone c n).cursor, sink := .collecting messages, log }
    s.readBinding.1 = (alone c n).readBinding.1 ∧
      s.readBinding.2.cursor = (alone c (n + 1)).cursor ∧
      s.readBinding.2.sink = .collecting (messages ++ addsAlone c n) := by
  intro s
  let lone := readBinding { cursor := (alone c n).cursor }
  have hlone : (alone c n).readBinding =
      (lone.1,
        { cursor := lone.2.cursor
          sink := .collecting ((alone c n).sink.messages ++ lone.2.sink.messages)
          log := (alone c n).log ++ lone.2.log }) := by
    rw [← readBinding_collecting, ← sink_alone]
  have hadds : addsAlone c n = lone.2.sink.messages := by
    rw [addsAlone, alone, hlone]
    exact List.drop_left
  have hshared := readBinding_collecting (alone c n).cursor messages log
  rw [hshared, alone, hlone, hadds]
  exact ⟨rfl, rfl, rfl⟩

/-- Alone, it keeps what it has recorded and adds to it. -/
theorem messages_alone_succ (c : Cursor) (n : Nat) :
    (alone c (n + 1)).sink.messages = (alone c n).sink.messages ++ addsAlone c n := by
  obtain ⟨-, -, hsink⟩ := readBinding_of_alone c n (alone c n).sink.messages (alone c n).log
  rw [← sink_alone c n] at hsink
  rw [alone, hsink]
  rfl

end Session

/-! ## Turns -/

/-- Sessions are called, and they or their sinks are released. -/
inductive Turn where
  | call (name : String)
  | release (name : String)
  | releaseSink (name : String)
deriving DecidableEq, Repr

def Turn.command : Turn → Command
  | call name => .onSession name .readBinding
  | release name => .onSession name .release
  | releaseSink name => .onSink name .release

/-- The sink of an object that is a session. -/
def Object.sessionSink? : Object → Option Nat
  | cursor _ _ => none
  | sink _ => none
  | session _ _ index => some index

namespace Workspace

def afterTurns (w : Workspace) (turns : List Turn) : Workspace :=
  w.after (turns.map Turn.command)

/-- The sink that the session of the name reports into. -/
def sessionSink? (w : Workspace) (name : String) : Option Nat :=
  (w.object? name).bind Object.sessionSink?

/-- Whether a turn releases the sink. -/
def releases (w : Workspace) (index : Nat) : Turn → Bool
  | .call _ => false
  | .release name => w.sessionSink? name == some index
  | .releaseSink name => w.sinkIndex? name == some index

/-- The messages that a turn behind others adds to the sink, if every session runs alone. -/
def adds (w : Workspace) (index : Nat) (earlier : List Turn) : Turn → List String
  | .call name =>
      match w.object? name with
      | some (.session _ c sink) =>
          if sink = index then Session.addsAlone c (earlier.count (.call name)) else []
      | _ => []
  | .release _ => []
  | .releaseSink _ => []

def mergedFrom (w : Workspace) (index : Nat) (earlier : List Turn) : List Turn → List String
  | [] => []
  | turn :: later => w.adds index earlier turn ++ w.mergedFrom index (earlier ++ [turn]) later

/-- What the sessions on a sink add to it alone, in the order of their calls. -/
def merged (w : Workspace) (index : Nat) (turns : List Turn) : List String :=
  w.mergedFrom index [] turns

theorem mergedFrom_concat (w : Workspace) (index : Nat) (earlier turns : List Turn) (turn : Turn) :
    w.mergedFrom index earlier (turns ++ [turn]) =
      w.mergedFrom index earlier turns ++ w.adds index (earlier ++ turns) turn := by
  induction turns generalizing earlier with
  | nil => simp [mergedFrom]
  | cons first turns ih =>
      rw [List.cons_append, mergedFrom, ih, mergedFrom, List.append_assoc, List.append_assoc]
      rfl

theorem afterTurns_append (w : Workspace) (turns more : List Turn) :
    w.afterTurns (turns ++ more) = (w.afterTurns turns).afterTurns more := by
  rw [afterTurns, List.map_append, after_append]
  rfl

end Workspace

/-! ## What turns leave alone -/

/-- An object apart from where its cursor stands. -/
def Object.fixed (object : Object) : Object :=
  object.withCursor { source := [] }

namespace Object

theorem fixed_withCursor (object : Object) (c : Cursor) :
    (object.withCursor c).fixed = object.fixed := by
  cases object <;> rfl

theorem sessionSink?_fixed (object : Object) : object.fixed.sessionSink? = object.sessionSink? := by
  cases object <;> rfl

theorem sink?_fixed (object : Object) : object.fixed.sink? = object.sink? := by
  cases object <;> rfl

end Object

namespace Workspace

variable {w : Workspace} {name : String} {index : Nat} {sink : Sink}

theorem fixed_setCursor (w : Workspace) (name : String) (c : Cursor) (other : String) :
    ((w.setCursor name c).object? other).map Object.fixed = (w.object? other).map Object.fixed := by
  by_cases hother : other = name
  · subst hother
    rw [object?_setCursor_self]
    cases w.object? other with
    | none => rfl
    | some object => exact congrArg some (object.fixed_withCursor c)
  · rw [object?_setCursor_of_ne hother]

theorem fixed_perform_onSession (w : Workspace) (target : String) (action : SessionAction)
    (name : String) :
    ((w.perform (.onSession target action)).2.object? name).map Object.fixed =
      (w.object? name).map Object.fixed := by
  cases h : w.session? target with
  | none => rw [perform_onSession_of_none h]
  | some result =>
      obtain ⟨s, i⟩ := result
      rw [perform_onSession h, object?_setSession]
      exact fixed_setCursor w target _ name

theorem fixed_afterTurns (w : Workspace) (turns : List Turn) (name : String) :
    ((w.afterTurns turns).object? name).map Object.fixed =
      (w.object? name).map Object.fixed := by
  induction turns generalizing w with
  | nil => rfl
  | cons turn turns ih =>
      have hfirst : ((w.perform turn.command).2.object? name).map Object.fixed =
          (w.object? name).map Object.fixed := by
        cases turn with
        | call target => exact fixed_perform_onSession w target .readBinding name
        | release target => exact fixed_perform_onSession w target .release name
        | releaseSink target => rw [Turn.command, object?_perform_onSink]
      exact (ih (w.perform turn.command).2).trans hfirst

theorem bind_object?_afterTurns {f : Object → Option Nat} (hf : ∀ object, f object.fixed = f object)
    (w : Workspace) (turns : List Turn) (name : String) :
    ((w.afterTurns turns).object? name).bind f = (w.object? name).bind f := by
  have hfixed : ∀ object : Option Object, object.bind f = (object.map Object.fixed).bind f := by
    intro object
    cases object with
    | none => rfl
    | some object => exact (hf object).symm
  rw [hfixed, fixed_afterTurns, ← hfixed]

/-- Which turns release a sink does not change in the course of turns. -/
theorem releases_afterTurns (w : Workspace) (turns : List Turn) (index : Nat) (turn : Turn) :
    (w.afterTurns turns).releases index turn = w.releases index turn := by
  cases turn with
  | call target => rfl
  | release target =>
      rw [releases, releases, sessionSink?, sessionSink?,
        bind_object?_afterTurns Object.sessionSink?_fixed]
  | releaseSink target =>
      rw [releases, releases, sinkIndex?_eq, sinkIndex?_eq,
        bind_object?_afterTurns Object.sink?_fixed]

/-! ## What a turn does -/

theorem sessionSink?_eq_some_iff :
    w.sessionSink? name = some index ↔
      ∃ source c, w.object? name = some (.session source c index) := by
  unfold sessionSink?
  constructor
  · intro h
    obtain ⟨object, hobject, hindex⟩ := Option.bind_eq_some_iff.mp h
    cases object with
    | cursor source c => contradiction
    | sink i => contradiction
    | session source c i =>
        obtain rfl : i = index := Option.some.inj hindex
        exact ⟨source, c, hobject⟩
  · rintro ⟨source, c, hobject⟩
    rw [hobject]
    rfl

theorem sessionSink?_of_session? {s : Session} (h : w.session? name = some (s, index)) :
    w.sessionSink? name = some index := by
  obtain ⟨source, hobject, -⟩ := object?_of_session? h
  exact sessionSink?_eq_some_iff.mpr ⟨source, s.cursor, hobject⟩

theorem exists_session? (h : w.sessionSink? name = some index)
    (hsink : w.sinks[index]? = some sink) :
    ∃ s, w.session? name = some (s, index) ∧ s.sink = sink := by
  obtain ⟨source, c, hobject⟩ := sessionSink?_eq_some_iff.mp h
  exact ⟨_, session?_of_object? hobject hsink, rfl⟩

/-- A session changes no sink but its own. -/
theorem sinks_perform_onSession_of_ne (h : w.sessionSink? name ≠ some index)
    (action : SessionAction) :
    (w.perform (.onSession name action)).2.sinks[index]? = w.sinks[index]? := by
  cases hsession : w.session? name with
  | none => rw [perform_onSession_of_none hsession]
  | some result =>
      obtain ⟨s, i⟩ := result
      have hne : i ≠ index := by
        rintro rfl
        exact h (sessionSink?_of_session? hsession)
      rw [perform_onSession hsession, sinks_setSession, List.getElem?_set_ne hne]

/-- A turn that is not a call changes no object. -/
theorem object?_perform_of_ne_call {turn : Turn} (hturn : ∀ target, turn ≠ .call target)
    (w : Workspace) (name : String) :
    (w.perform turn.command).2.object? name = w.object? name := by
  cases turn with
  | call target => exact absurd rfl (hturn target)
  | release target =>
      rw [Turn.command]
      cases h : w.session? target with
      | none => rw [perform_onSession_of_none h]
      | some result =>
          obtain ⟨s, i⟩ := result
          rw [perform_onSession h, object?_setSession]
          exact object?_setCursor_of_cursor? (cursor?_of_session? h) name
  | releaseSink target => exact object?_perform_onSink w target .release name

theorem sinks_set_self {i : Nat} (h : w.sinks[i]? = some sink) (new : Sink) :
    (w.sinks.set i new)[i]? = some new := by
  have hlength : i < w.sinks.length := (List.getElem?_eq_some_iff.mp h).1
  simp [hlength]

/-- A release of the sink, by whatever name, drops what it holds, and other turns keep it. -/
theorem sinks_perform_of_ne_call {turn : Turn} (hturn : ∀ target, turn ≠ .call target)
    (hsink : w.sinks[index]? = some sink) :
    (w.perform turn.command).2.sinks[index]? =
      some (if w.releases index turn then .released else sink) := by
  cases turn with
  | call target => exact absurd rfl (hturn target)
  | release target =>
      by_cases h : w.sessionSink? target = some index
      · obtain ⟨s, hsession, -⟩ := exists_session? h hsink
        rw [Turn.command, perform_onSession hsession, sinks_setSession, sinks_set_self hsink,
          releases, h]
        simp [SessionAction.run]
      · rw [Turn.command, sinks_perform_onSession_of_ne h, hsink, releases]
        simp [h]
  | releaseSink target =>
      by_cases h : w.sinkIndex? target = some index
      · have hrun : SinkAction.release.run sink = .ok (.done, .released) := rfl
        rw [Turn.command, perform_onSink h hsink hrun, releases, h, setSink, sinks_set_self hsink]
        simp
      · rw [Turn.command, sinks_perform_onSink_of_ne h, hsink, releases]
        simp [h]

/-! ## Before a release -/

variable {before : List String} {turns : List Turn}

/-- Every session on the sink is where it is alone, and the sink holds what they add alone. -/
structure RunAlone (w : Workspace) (index : Nat) (before : List String) (turns : List Turn) :
    Prop where
  object : ∀ (name : String) (source : Source) (c : Cursor),
    w.object? name = some (.session source c index) →
      (w.afterTurns turns).object? name =
        some (.session source (Session.alone c (turns.count (.call name))).cursor index)
  sink : (w.afterTurns turns).sinks[index]? =
    some (.collecting (before ++ w.merged index turns))

theorem afterTurns_concat (w : Workspace) (turns : List Turn) (turn : Turn) :
    w.afterTurns (turns ++ [turn]) = ((w.afterTurns turns).perform turn.command).2 :=
  w.afterTurns_append turns [turn]

theorem merged_concat (w : Workspace) (index : Nat) (turns : List Turn) (turn : Turn) :
    w.merged index (turns ++ [turn]) = w.merged index turns ++ w.adds index turns turn :=
  w.mergedFrom_concat index [] turns turn

theorem adds_call {source : Source} {c : Cursor}
    (h : w.object? name = some (.session source c index)) (turns : List Turn) :
    w.adds index turns (.call name) = Session.addsAlone c (turns.count (.call name)) := by
  simp only [adds, h, if_true]

theorem adds_call_of_ne (h : w.sessionSink? name ≠ some index) (turns : List Turn) :
    w.adds index turns (.call name) = [] := by
  cases hobject : w.object? name with
  | none => simp only [adds, hobject]
  | some object =>
      cases object with
      | cursor source c => simp only [adds, hobject]
      | sink i => simp only [adds, hobject]
      | session source c i =>
          have hne : i ≠ index := by
            rintro rfl
            exact h (sessionSink?_eq_some_iff.mpr ⟨source, c, hobject⟩)
          simp only [adds, hobject, if_neg hne]

theorem adds_of_ne_call {turn : Turn} (hturn : ∀ target, turn ≠ .call target)
    (w : Workspace) (index : Nat) (turns : List Turn) : w.adds index turns turn = [] := by
  cases turn with
  | call target => exact absurd rfl (hturn target)
  | release target => rfl
  | releaseSink target => rfl

theorem count_concat_of_ne {turn : Turn} (h : turn ≠ .call name) (turns : List Turn) :
    (turns ++ [turn]).count (.call name) = turns.count (.call name) := by
  rw [List.count_append, List.count_singleton, if_neg (by simpa using h), Nat.add_zero]

namespace RunAlone

theorem session? (h : RunAlone w index before turns) {source : Source} {c : Cursor}
    (hobject : w.object? name = some (.session source c index)) :
    (w.afterTurns turns).session? name = some
      ({ cursor := (Session.alone c (turns.count (.call name))).cursor
         sink := .collecting (before ++ w.merged index turns)
         log := (w.afterTurns turns).log }, index) :=
  session?_of_object? (h.object name source c hobject) h.sink

/-- A call of a session on the sink is the next one of that session alone. -/
theorem call (h : RunAlone w index before turns) {source : Source} {c : Cursor}
    (hobject : w.object? name = some (.session source c index)) :
    RunAlone w index before (turns ++ [.call name]) := by
  obtain ⟨-, hcursor, hsink⟩ := Session.readBinding_of_alone c (turns.count (.call name))
    (before ++ w.merged index turns) (w.afterTurns turns).log
  have hcount : (turns ++ [Turn.call name]).count (.call name) = turns.count (.call name) + 1 := by
    rw [List.count_append, List.count_singleton_self]
  have hperform := perform_onSession (h.session? hobject) .readBinding
  refine { object := fun other source' c' hother => ?_, sink := ?_ }
  · rw [afterTurns_concat, Turn.command]
    by_cases hne : other = name
    · subst hne
      cases hobject.symm.trans hother
      rw [hperform, object?_setSession, object?_setCursor_self, h.object other source c hobject,
        hcount, ← hcursor]
      rfl
    · rw [object?_perform_of_ne hne, h.object other source' c' hother,
        count_concat_of_ne (by simpa using Ne.symm hne)]
  · rw [afterTurns_concat, Turn.command, hperform, sinks_setSession, sinks_set_self h.sink,
      merged_concat, adds_call hobject, ← List.append_assoc, ← hsink]
    rfl

/-- A call of a session on another sink, or of none, concerns no session on this one. -/
theorem call_of_ne (h : RunAlone w index before turns) (hne : w.sessionSink? name ≠ some index) :
    RunAlone w index before (turns ++ [.call name]) := by
  have hnow : (w.afterTurns turns).sessionSink? name ≠ some index := by
    rwa [sessionSink?, bind_object?_afterTurns Object.sessionSink?_fixed]
  refine { object := fun other source c hother => ?_, sink := ?_ }
  · have hother' : other ≠ name := by
      rintro rfl
      exact hne (sessionSink?_eq_some_iff.mpr ⟨source, c, hother⟩)
    rw [afterTurns_concat, Turn.command, object?_perform_of_ne hother',
      h.object other source c hother, count_concat_of_ne (by simpa using Ne.symm hother')]
  · rw [afterTurns_concat, Turn.command, sinks_perform_onSession_of_ne hnow, h.sink,
      merged_concat, adds_call_of_ne hne, List.append_nil]

theorem of_ne_call (h : RunAlone w index before turns) {turn : Turn}
    (hturn : ∀ target, turn ≠ .call target) (hreleases : w.releases index turn = false) :
    RunAlone w index before (turns ++ [turn]) := by
  have hnow : (w.afterTurns turns).releases index turn = false := by
    rw [releases_afterTurns, hreleases]
  refine { object := fun other source c hother => ?_, sink := ?_ }
  · rw [afterTurns_concat, object?_perform_of_ne_call hturn, h.object other source c hother,
      count_concat_of_ne (hturn other)]
  · rw [afterTurns_concat, sinks_perform_of_ne_call hturn h.sink, hnow, merged_concat,
      adds_of_ne_call hturn, List.append_nil]
    rfl

end RunAlone

theorem runAlone_of_not_releases (hsink : w.sinks[index]? = some (.collecting before))
    (h : ∀ turn ∈ turns, w.releases index turn = false) : RunAlone w index before turns := by
  -- The messages come in the order of the calls, so the last turn is taken off.
  induction turns using List.reverseRecOn with
  | nil =>
      refine { object := fun name source c hobject => hobject, sink := ?_ }
      rw [merged, mergedFrom, List.append_nil]
      exact hsink
  | append_singleton turns turn ih =>
      obtain ⟨hturns, hlast⟩ := List.forall_mem_append.mp h
      have halone := ih hturns
      have hreleases := hlast turn List.mem_cons_self
      cases turn with
      | call name =>
          by_cases hname : w.sessionSink? name = some index
          · obtain ⟨source, c, hobject⟩ := sessionSink?_eq_some_iff.mp hname
            exact halone.call hobject
          · exact halone.call_of_ne hname
      | release name => exact halone.of_ne_call (by simp) hreleases
      | releaseSink name => exact halone.of_ne_call (by simp) hreleases

/-! ## From a release on -/

theorem readBinding_of_released (hname : w.sessionSink? name = some index)
    (hsink : w.sinks[index]? = some .released) :
    ∃ s, w.session? name = some (s, index) ∧ s.sink = .released ∧
      w.perform (.onSession name .readBinding) =
        (.error .sessionReleased, w.setSession name index s) := by
  obtain ⟨s, hsession, hreleased⟩ := exists_session? hname hsink
  have hrefuses : s.readBinding = (.error .sessionReleased, s) :=
    Session.readBinding_of_isReleased (by rw [hreleased]; rfl)
  refine ⟨s, hsession, hreleased, ?_⟩
  rw [perform_onSession hsession, SessionAction.run, hrefuses]
  rfl

/-- A turn moves no session whose sink is released. -/
theorem perform_turn_of_released (hsink : w.sinks[index]? = some .released) (turn : Turn) :
    (w.perform turn.command).2.sinks[index]? = some .released ∧
      ∀ name, w.sessionSink? name = some index →
        (w.perform turn.command).2.object? name = w.object? name := by
  have hother : (∀ target, turn ≠ .call target) →
      (w.perform turn.command).2.sinks[index]? = some .released ∧
        ∀ name, w.sessionSink? name = some index →
          (w.perform turn.command).2.object? name = w.object? name := by
    intro hturn
    refine ⟨?_, fun name _ => object?_perform_of_ne_call hturn w name⟩
    rw [sinks_perform_of_ne_call hturn hsink, ite_self]
  cases turn with
  | call target =>
      by_cases htarget : w.sessionSink? target = some index
      · obtain ⟨s, hsession, hreleased, hperform⟩ := readBinding_of_released htarget hsink
        -- The refused call puts its session back as it was.
        rw [Turn.command, hperform]
        refine ⟨?_, fun name _ => ?_⟩
        · rw [sinks_setSession, sinks_set_self hsink, hreleased]
        · exact object?_setCursor_of_cursor? (cursor?_of_session? hsession) name
      · refine ⟨?_, fun name hname => ?_⟩
        · rw [Turn.command, sinks_perform_onSession_of_ne htarget, hsink]
        · have hne : name ≠ target := by
            rintro rfl
            exact htarget hname
          exact object?_perform_of_ne hne w
  | release target => exact hother (by simp)
  | releaseSink target => exact hother (by simp)

theorem afterTurns_of_released (hsink : w.sinks[index]? = some .released) (turns : List Turn) :
    (w.afterTurns turns).sinks[index]? = some .released ∧
      ∀ name, w.sessionSink? name = some index →
        (w.afterTurns turns).object? name = w.object? name := by
  induction turns generalizing w with
  | nil => exact ⟨hsink, fun name _ => rfl⟩
  | cons turn turns ih =>
      obtain ⟨hfirst, hobjects⟩ := perform_turn_of_released hsink turn
      obtain ⟨hrest, hmore⟩ := ih hfirst
      refine ⟨hrest, fun name hname => ?_⟩
      have hnext : (w.perform turn.command).2.sessionSink? name = some index := by
        rw [sessionSink?, hobjects name hname]
        exact hname
      exact (hmore name hnext).trans (hobjects name hname)

/-- From its release on, a sink stays empty and its sessions stay where they were before. -/
theorem afterTurns_of_releases (hsink : (w.afterTurns turns).sinks[index]? = some sink)
    {release : Turn} (hrelease : w.releases index release = true) (later : List Turn) :
    let done := w.afterTurns (turns ++ release :: later)
    done.sinks[index]? = some .released ∧
      ∀ name, w.sessionSink? name = some index →
        done.object? name = (w.afterTurns turns).object? name := by
  have hturn : ∀ target, release ≠ .call target := by
    rintro target rfl
    contradiction
  let next := ((w.afterTurns turns).perform release.command).2
  have hnext : next.sinks[index]? = some .released := by
    rw [sinks_perform_of_ne_call hturn hsink, releases_afterTurns, hrelease, if_pos rfl]
  have hdone : w.afterTurns (turns ++ release :: later) = next.afterTurns later :=
    w.afterTurns_append turns (release :: later)
  obtain ⟨hstays, hobjects⟩ := afterTurns_of_released hnext later
  rw [hdone]
  refine ⟨hstays, fun name hname => ?_⟩
  have hsame := object?_perform_of_ne_call hturn (w.afterTurns turns) name
  have hsession : next.sessionSink? name = some index := by
    rw [sessionSink?, hsame, bind_object?_afterTurns Object.sessionSink?_fixed]
    exact hname
  exact (hobjects name hsession).trans hsame

end Workspace

/--
Sessions are called, and they and their sinks are released, in any order. Up to the first release of
its sink, whoever else reports into it, a session yields in each call what it yields there alone,
and the sink holds what its sessions add alone in the order of their calls. From that release on the
session refuses every call and stays where it is, and the sink stays empty.
-/
theorem sessions_meet_only_in_release {w : Workspace} {name : String} {source : Source}
    {c : Cursor} {index : Nat} {before : List String} {turns : List Turn}
    (hobject : w.object? name = some (.session source c index))
    (hsink : w.sinks[index]? = some (.collecting before))
    (hturns : ∀ turn ∈ turns, w.releases index turn = false) :
    let lone := Session.alone c (turns.count (.call name))
    let now := w.afterTurns turns
    now.object? name = some (.session source lone.cursor index) ∧
      (now.perform (.onSession name .readBinding)).1 = lone.readBinding.1.map .statement ∧
      now.sinks[index]? = some (.collecting (before ++ w.merged index turns)) ∧
      (∀ n, (Session.alone c (n + 1)).sink.messages =
        (Session.alone c n).sink.messages ++ Session.addsAlone c n) ∧
      ∀ (release : Turn) (later : List Turn), w.releases index release = true →
        let done := w.afterTurns (turns ++ release :: later)
        done.object? name = some (.session source lone.cursor index) ∧
          (done.perform (.onSession name .readBinding)).1 = .error .sessionReleased ∧
          done.sinks[index]? = some .released := by
  intro lone now
  have halone := Workspace.runAlone_of_not_releases hsink hturns
  have hnow : now.object? name = some (.session source lone.cursor index) :=
    halone.object name source c hobject
  refine ⟨hnow, ?_, halone.sink, Session.messages_alone_succ c, ?_⟩
  · obtain ⟨hreply, -, -⟩ := Session.readBinding_of_alone c (turns.count (.call name))
      (before ++ w.merged index turns) now.log
    rw [Workspace.perform_onSession (halone.session? hobject)]
    exact congrArg (Except.map Reply.statement) hreply
  · intro release later hrelease done
    obtain ⟨hreleased, hobjects⟩ :=
      Workspace.afterTurns_of_releases halone.sink hrelease later
    have hdone : done.object? name = some (.session source lone.cursor index) :=
      (hobjects name (Workspace.sessionSink?_eq_some_iff.mpr ⟨source, c, hobject⟩)).trans hnow
    obtain ⟨s, -, -, hperform⟩ := Workspace.readBinding_of_released
      (Workspace.sessionSink?_eq_some_iff.mpr ⟨source, lone.cursor, hdone⟩) hreleased
    exact ⟨hdone, congrArg Prod.fst hperform, hreleased⟩

/-- Two sessions report into one sink, and a third one is released between their calls. -/
theorem sessions_meet_only_in_release_shared :
    let bytes := "x 1".toList.map Char.toUInt8
    let w := ({} : Workspace).after
      [.newSink "s", .newSession "a" (.bytes bytes) (some "s"),
        .newSession "b" (.bytes bytes) (some "s"), .newSession "p" (.bytes bytes) none]
    let turns : List Turn := [.call "a", .call "p", .call "b", .release "p", .call "p", .call "a"]
    let now := w.afterTurns turns
    let done := w.afterTurns (turns ++ .release "b" :: [.call "a"])
    w.object? "a" = some (.session (.bytes bytes) { source := bytes } 0) ∧
      w.sinks[0]? = some (.collecting []) ∧ (∀ turn ∈ turns, w.releases 0 turn = false) ∧
      w.releases 0 (.release "b") = true ∧
      now.sinks[0]? = some (.collecting (w.merged 0 turns)) ∧ (w.merged 0 turns).length = 3 ∧
      now.object? "a" =
        some (.session (.bytes bytes) (Session.alone { source := bytes } 2).cursor 0) ∧
      done.object? "a" = now.object? "a" ∧
      (done.perform (.onSession "a" .readBinding)).1 = .error .sessionReleased := by
  intro bytes w turns now done
  have hobject : w.object? "a" = some (.session (.bytes bytes) { source := bytes } 0) := rfl
  have hsink : w.sinks[0]? = some (.collecting []) := rfl
  have hturns : ∀ turn ∈ turns, w.releases 0 turn = false := by decide
  have hrelease : w.releases 0 (.release "b") = true := by decide
  obtain ⟨hnow, -, hsinkNow, -, hdone⟩ := sessions_meet_only_in_release hobject hsink hturns
  obtain ⟨hstays, hrefuses, -⟩ := hdone (.release "b") [.call "a"] hrelease
  exact ⟨hobject, hsink, hturns, hrelease, hsinkNow, by decide, hnow, hstays.trans hnow.symm,
    hrefuses⟩

end LetLang
