import Narrative.Step

/-!
This module contains the timeline of a score: tasks that wait for their instant. A timeline does not
know what time it is; the host says so when it asks for what is due.
-/

namespace Narrative

inductive Action where
  | dispatch (step : Step) (sequenceId : String)
  | tick
deriving Inhabited

def Action.isDispatch : Action → Bool
  | dispatch .. => true
  | tick => false

/--
A task that waits until `due`. Ids count up in the order in which tasks are scheduled.
-/
structure Timeline.Task where
  id : Nat
  due : Instant
  action : Action
deriving Inhabited

def Timeline.Task.before (a b : Timeline.Task) : Bool :=
  a.due < b.due || (a.due == b.due && a.id < b.id)

def Timeline.Task.isDue (now : Instant) (mark : Nat) (task : Timeline.Task) : Bool :=
  task.due ≤ now && task.id < mark

structure Timeline where
  tasks : List Timeline.Task := []
  nextId : Nat := 0
deriving Inhabited

namespace Timeline

def size (t : Timeline) : Nat :=
  t.tasks.length

def schedule (t : Timeline) (due : Instant) (action : Action) : Timeline :=
  { tasks := t.tasks ++ [⟨t.nextId, due, action⟩], nextId := t.nextId + 1 }

def isPending (t : Timeline) (id : Nat) : Bool :=
  t.tasks.any fun task => task.id == id

def cancel (t : Timeline) (id : Nat) : Bool × Timeline :=
  (t.isPending id, { t with tasks := t.tasks.filter fun task => task.id != id })

def earliest? : List Task → Option Task
  | [] => none
  | task :: tasks =>
    match earliest? tasks with
    | none => some task
    | some other => if other.before task then some other else some task

def nextDue? (t : Timeline) : Option Instant :=
  (earliest? t.tasks).map (·.due)

def watermark (t : Timeline) : Nat :=
  t.nextId

def popDue? (t : Timeline) (now : Instant) (mark : Nat) : Option (Task × Timeline) :=
  match earliest? (t.tasks.filter (·.isDue now mark)) with
  | none => none
  | some task => some (task, (t.cancel task.id).2)

end Timeline

end Narrative
