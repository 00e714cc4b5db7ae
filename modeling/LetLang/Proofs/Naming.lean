import LetLang.Workspace.Command

/-!
# What commands do to names

A workspace is read through its look-ups, and each way to change one has an equation here that says
what every name stands for afterwards. From these follows what a command leaves alone: every name
but its target (`object?_perform_of_ne`), and every object when it acts on a sink
(`object?_perform_onSink`).
-/

namespace LetLang

namespace Object

/-- The cursor of an object that has one. -/
def cursor? : Object → Option Cursor
  | cursor _ c => some c
  | sink _ => none
  | session _ c _ => some c

/-- The sink of an object that has one. -/
def sink? : Object → Option Nat
  | cursor _ _ => none
  | sink index => some index
  | session _ _ index => some index

/-- The object with another cursor in place of its own. -/
def withCursor (c : Cursor) : Object → Object
  | cursor source _ => cursor source c
  | sink index => sink index
  | session source _ index => session source c index

theorem cursor?_withCursor {object : Object} {c c' : Cursor} (h : object.cursor? = some c) :
    (object.withCursor c').cursor? = some c' := by
  cases object with
  | cursor source c => rfl
  | sink index => contradiction
  | session source c index => rfl

theorem withCursor_of_cursor? {object : Object} {c : Cursor} (h : object.cursor? = some c) :
    object.withCursor c = object := by
  cases object with
  | cursor source c' => cases h; rfl
  | sink index => rfl
  | session source c' index => cases h; rfl

end Object

namespace Workspace

variable {w : Workspace} {name other : String}

/-! ## Look-ups -/

theorem cursor?_eq (w : Workspace) (name : String) :
    w.cursor? name = (w.object? name).bind Object.cursor? := by
  unfold cursor?
  cases w.object? name with
  | none => rfl
  | some object => cases object <;> rfl

theorem sinkIndex?_eq (w : Workspace) (name : String) :
    w.sinkIndex? name = (w.object? name).bind Object.sink? := by
  unfold sinkIndex?
  cases w.object? name with
  | none => rfl
  | some object => cases object <;> rfl

theorem session?_of_object? {source : Source} {c : Cursor} {index : Nat} {sink : Sink}
    (h : w.object? name = some (.session source c index)) (hsink : w.sinks[index]? = some sink) :
    w.session? name = some ({ cursor := c, sink, log := w.log }, index) := by
  simp only [session?, h, hsink]

theorem object?_of_session? {s : Session} {index : Nat} (h : w.session? name = some (s, index)) :
    ∃ source, w.object? name = some (.session source s.cursor index) ∧
      w.sinks[index]? = some s.sink := by
  unfold session? at h
  split at h
  · rename_i source c i hobject
    split at h
    · rename_i sink hsink
      cases h
      exact ⟨source, hobject, hsink⟩
    · contradiction
  · contradiction

theorem cursor?_of_session? {s : Session} {index : Nat} (h : w.session? name = some (s, index)) :
    w.cursor? name = some s.cursor := by
  obtain ⟨source, hobject, -⟩ := object?_of_session? h
  rw [cursor?_eq, hobject]
  rfl

theorem lookup_filter_of_ne (h : other ≠ name) (objects : List (String × Object)) :
    (objects.filter (·.1 != name)).lookup other = objects.lookup other := by
  induction objects with
  | nil => rfl
  | cons entry objects ih =>
      obtain ⟨key, object⟩ := entry
      by_cases hkey : key = name
      · subst hkey
        have hother : (other == key) = false := beq_eq_false_iff_ne.mpr h
        rw [List.filter_cons_of_neg (by simp), ih, List.lookup_cons, hother]
      · rw [List.filter_cons_of_pos (by simpa using hkey), List.lookup_cons, List.lookup_cons, ih]

@[simp] theorem object?_bind_self (w : Workspace) (name : String) (object : Object) :
    (w.bind name object).object? name = some object := by
  simp [object?, bind]

theorem object?_bind_of_ne (h : other ≠ name) (w : Workspace) (object : Object) :
    (w.bind name object).object? other = w.object? other := by
  have hother : (other == name) = false := beq_eq_false_iff_ne.mpr h
  rw [object?, bind, List.lookup_cons, hother]
  exact lookup_filter_of_ne h w.objects

/-! ## Setting parts -/

theorem object?_setCursor_self (w : Workspace) (name : String) (c : Cursor) :
    (w.setCursor name c).object? name = (w.object? name).map (Object.withCursor c) := by
  unfold setCursor
  cases h : w.object? name with
  | none => exact h
  | some object =>
      cases object with
      | cursor source c' => exact object?_bind_self w name _
      | sink index => exact h
      | session source c' index => exact object?_bind_self w name _

theorem cursor?_setCursor_self {c : Cursor} (h : w.cursor? name = some c) (c' : Cursor) :
    (w.setCursor name c').cursor? name = some c' := by
  rw [cursor?_eq] at h
  rw [cursor?_eq, object?_setCursor_self]
  cases hobject : w.object? name with
  | none => simp [hobject] at h
  | some object =>
      rw [hobject] at h
      exact Object.cursor?_withCursor h

theorem object?_setCursor_of_ne (h : other ≠ name) (w : Workspace) (c : Cursor) :
    (w.setCursor name c).object? other = w.object? other := by
  unfold setCursor
  split
  · exact object?_bind_of_ne h w _
  · exact object?_bind_of_ne h w _
  · rfl

@[simp] theorem sinks_setCursor (w : Workspace) (name : String) (c : Cursor) :
    (w.setCursor name c).sinks = w.sinks := by
  unfold setCursor
  split <;> rfl

@[simp] theorem log_setCursor (w : Workspace) (name : String) (c : Cursor) :
    (w.setCursor name c).log = w.log := by
  unfold setCursor
  split <;> rfl

@[simp] theorem object?_setSession (w : Workspace) (name : String) (index : Nat) (s : Session)
    (other : String) :
    (w.setSession name index s).object? other = (w.setCursor name s.cursor).object? other := rfl

@[simp] theorem sinks_setSession (w : Workspace) (name : String) (index : Nat) (s : Session) :
    (w.setSession name index s).sinks = w.sinks.set index s.sink := by
  simp [setSession, setSink]

/-- Setting a cursor to where it is changes no object. -/
theorem object?_setCursor_of_cursor? {c : Cursor} (h : w.cursor? name = some c) (other : String) :
    (w.setCursor name c).object? other = w.object? other := by
  by_cases hother : other = name
  · subst hother
    rw [object?_setCursor_self]
    rw [cursor?_eq] at h
    cases hobject : w.object? other with
    | none => rfl
    | some object =>
        rw [hobject] at h
        rw [Option.map_some, Object.withCursor_of_cursor? h]
  · exact object?_setCursor_of_ne hother w c

/-! ## Commands -/

theorem perform_onCursor {c c' : Cursor} {action : CursorAction} {reply : Reply}
    (h : w.cursor? name = some c) (hrun : action.run c = .ok (reply, c')) :
    w.perform (.onCursor name action) = (.ok reply, w.setCursor name c') := by
  simp only [perform, h, hrun]

theorem perform_onSession {s : Session} {index : Nat} (h : w.session? name = some (s, index))
    (action : SessionAction) :
    w.perform (.onSession name action) =
      ((action.run s).1, w.setSession name index (action.run s).2) := by
  simp only [perform, h]

theorem perform_onSession_of_none (h : w.session? name = none) (action : SessionAction) :
    w.perform (.onSession name action) = (.error (.unknownName name), w) := by
  simp only [perform, h]

theorem perform_onSink {index : Nat} {sink sink' : Sink} {action : SinkAction} {reply : Reply}
    (h : w.sinkIndex? name = some index) (hsink : w.sinks[index]? = some sink)
    (hrun : action.run sink = .ok (reply, sink')) :
    w.perform (.onSink name action) = (.ok reply, w.setSink index sink') := by
  simp only [perform, h, hsink, hrun]

/-- A command on a sink changes no object. -/
theorem object?_perform_onSink (w : Workspace) (target : String) (action : SinkAction)
    (name : String) : (w.perform (.onSink target action)).2.object? name = w.object? name := by
  simp only [perform]
  split
  · rfl
  split
  · rfl
  split
  · rfl
  · rfl

/-- A command on a sink changes no other sink. -/
theorem sinks_perform_onSink_of_ne {index : Nat} (h : w.sinkIndex? name ≠ some index)
    (action : SinkAction) :
    (w.perform (.onSink name action)).2.sinks[index]? = w.sinks[index]? := by
  cases hi : w.sinkIndex? name with
  | none => simp only [perform, hi]
  | some i =>
      have hne : i ≠ index := by
        rintro rfl
        exact h hi
      cases hsink : w.sinks[i]? with
      | none => simp only [perform, hi, hsink]
      | some sink =>
          cases hrun : action.run sink with
          | error e => simp only [perform, hi, hsink, hrun]
          | ok result =>
              rw [perform_onSink hi hsink hrun]
              exact List.getElem?_set_ne hne

/-- A command changes no object but that of its target. -/
theorem object?_perform_of_ne {command : Command} (h : name ≠ command.target) (w : Workspace) :
    (w.perform command).2.object? name = w.object? name := by
  cases command with
  | newSink target => exact object?_bind_of_ne h w.addSink _
  | newCursor target source =>
      simp only [perform]
      split
      · rfl
      · exact object?_bind_of_ne h w _
  | newSession target source sink =>
      simp only [perform]
      split
      · rfl
      · cases sink with
        | none => exact object?_bind_of_ne h w.addSink _
        | some sink =>
            simp only [addSession]
            split
            · rfl
            · exact object?_bind_of_ne h w _
  | onCursor target action =>
      simp only [perform]
      split
      · rfl
      split
      · rfl
      · exact object?_setCursor_of_ne h w _
  | onSink target action => exact object?_perform_onSink w target action name
  | onSession target action =>
      cases hsession : w.session? target with
      | none => rw [perform_onSession_of_none hsession]
      | some result =>
          obtain ⟨s, index⟩ := result
          rw [perform_onSession hsession]
          exact object?_setCursor_of_ne h w _

/-! ## Many commands -/

/-- The workspace once all commands are carried out. -/
def after (w : Workspace) (commands : List Command) : Workspace :=
  commands.foldl (fun w command => (w.perform command).2) w

theorem after_append (w : Workspace) (commands more : List Command) :
    w.after (commands ++ more) = (w.after commands).after more :=
  List.foldl_append

end Workspace

end LetLang
