/-!
# Tasks

A client numbers its reservation requests from 1 and keeps the open ones. Whoever wants to answer
a request finishes its task first. Only one caller ever does, so a request is answered once.
-/

namespace WorkQueue

abbrev TaskId := Nat

/-- The tasks of one client : how many it has begun, and which are still open. -/
structure Tasks where
  begun : Nat := 0
  pending : List TaskId := []
  deriving DecidableEq, Repr

namespace Tasks

/-- Begins a task, numbered one above the last. -/
def start (tasks : Tasks) : TaskId × Tasks :=
  (tasks.begun + 1, ⟨tasks.begun + 1, tasks.pending ++ [tasks.begun + 1]⟩)

def isOpen (tasks : Tasks) (id : TaskId) : Bool :=
  tasks.pending.contains id

/-- Closes a task. The answer is whether it was open. -/
def finish (tasks : Tasks) (id : TaskId) : Bool × Tasks :=
  (tasks.isOpen id, { tasks with pending := tasks.pending.filter (· ≠ id) })

/-- Closes every open task. -/
def finishAll (tasks : Tasks) : Tasks :=
  { tasks with pending := [] }

/-- How many tasks are open. -/
def openCount (tasks : Tasks) : Nat :=
  tasks.pending.length

end Tasks

end WorkQueue
