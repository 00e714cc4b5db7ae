import LetLang.Session

/-!
# Workspaces

A workspace holds named cursors, sinks and sessions side by side. Sinks are kept apart from the
names, because several sessions may report into one sink: a session's name stands for its cursor
and, through a number, for its sink. A session is put together from these parts for each operation
and taken apart again behind it.
-/

namespace LetLang

/-- What a name stands for. The source is kept in the form in which it was given. -/
inductive Object where
  | cursor (source : Source) (c : Cursor)
  | sink (index : Nat)
  | session (source : Source) (c : Cursor) (sink : Nat)
deriving Repr

/-- Named objects, the sinks they share, and the log of all sessions. -/
structure Workspace where
  objects : List (String × Object) := []
  sinks : List Sink := []
  log : List LogRecord := []
deriving Repr

namespace Workspace

def object? (w : Workspace) (name : String) : Option Object :=
  w.objects.lookup name

def bind (w : Workspace) (name : String) (object : Object) : Workspace :=
  { w with objects := (name, object) :: w.objects.filter (·.1 != name) }

/-- Adds a sink; its index is the number of sinks before it. -/
def addSink (w : Workspace) : Workspace :=
  { w with sinks := w.sinks ++ [∅] }

def setSink (w : Workspace) (index : Nat) (sink : Sink) : Workspace :=
  { w with sinks := w.sinks.set index sink }

def source? (w : Workspace) (name : String) : Option Source :=
  match w.object? name with
  | some (.cursor source _) => some source
  | some (.session source _ _) => some source
  | _ => none

/-- The cursor that a name stands for; a session's name stands for its cursor. -/
def cursor? (w : Workspace) (name : String) : Option Cursor :=
  match w.object? name with
  | some (.cursor _ c) => some c
  | some (.session _ c _) => some c
  | _ => none

def setCursor (w : Workspace) (name : String) (c : Cursor) : Workspace :=
  match w.object? name with
  | some (.cursor source _) => w.bind name (.cursor source c)
  | some (.session source _ sink) => w.bind name (.session source c sink)
  | _ => w

/-- The index of the sink that a name stands for; a session's name stands for its sink. -/
def sinkIndex? (w : Workspace) (name : String) : Option Nat :=
  match w.object? name with
  | some (.sink index) => some index
  | some (.session _ _ index) => some index
  | _ => none

/-- The session that a name stands for, with the index of its sink. -/
def session? (w : Workspace) (name : String) : Option (Session × Nat) :=
  match w.object? name with
  | some (.session _ cursor index) =>
      match w.sinks[index]? with
      | some sink => some ({ cursor, sink, log := w.log }, index)
      | none => none
  | _ => none

def setSession (w : Workspace) (name : String) (index : Nat) (s : Session) : Workspace :=
  { (w.setCursor name s.cursor).setSink index s.sink with log := s.log }

inductive Status where
  | absent
  | cursor (offset : Int)
  | sink (count : Nat) (released : Bool)
  | session (offset : Int) (count : Nat) (released : Bool)
deriving DecidableEq, Repr

/-- What can be seen of the object that a name stands for. -/
def status (w : Workspace) (name : String) : Status :=
  match w.object? name with
  | none => .absent
  | some (.cursor _ c) => .cursor c.offset
  | some (.sink index) =>
      match w.sinks[index]? with
      | none => .absent
      | some s => .sink s.size s.isReleased
  | some (.session _ c index) =>
      match w.sinks[index]? with
      | none => .absent
      | some s => .session c.offset s.size s.isReleased

end Workspace

end LetLang
