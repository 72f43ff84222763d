import WorkQueue.Numbers

/-!
# Agendas

An agenda lists jobs by rank, which is a priority or an instant, and jobs of one rank by number.
Its head is the job to take next.
-/

namespace WorkQueue

/-- The place of a job on an agenda. -/
structure Slot where
  rank : Nat
  job : JobId
  deriving DecidableEq, Repr

/-- The order of an agenda : by rank, then by job. -/
def Slot.before (a b : Slot) : Bool :=
  a.rank < b.rank || (a.rank == b.rank && a.job < b.job)

abbrev Agenda := List Slot

namespace Agenda

/-- Puts a slot in its place. One that is there already stays alone. -/
def insert (slot : Slot) : Agenda → Agenda
  | [] => [slot]
  | first :: rest =>
    if slot.before first then slot :: first :: rest
    else if slot = first then first :: rest
    else first :: insert slot rest

def remove (slot : Slot) (agenda : Agenda) : Agenda :=
  agenda.filter (· ≠ slot)

/-- The slots of a rank up to `limit`, all at the front. -/
def upTo (limit : Nat) (agenda : Agenda) : Agenda :=
  agenda.takeWhile (·.rank ≤ limit)

theorem mem_insert {slot x : Slot} {agenda : Agenda} :
    x ∈ insert slot agenda ↔ x = slot ∨ x ∈ agenda := by
  induction agenda with
  | nil => simp [insert]
  | cons first rest ih =>
    unfold insert
    split
    · simp
    · split
      · next h => simp [h]
      · simp only [List.mem_cons, ih]
        exact or_left_comm

theorem mem_remove {slot x : Slot} {agenda : Agenda} :
    x ∈ remove slot agenda ↔ x ∈ agenda ∧ x ≠ slot := by
  simp [remove]

end Agenda

end WorkQueue
