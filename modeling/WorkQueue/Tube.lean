import WorkQueue.Job

/-!
# Tubes

A tube lists its jobs by state and queues the requests that wait for one. `withdraw` takes a job
off the list of its state and `enlist` puts it on. A paused tube keeps its jobs to itself until the
pause has run out. The counts of users and watchers are 64-bit words and wrap below zero.
-/

namespace WorkQueue

structure Tube where
  name : TubeName
  /-- By priority. -/
  ready : Agenda := []
  /-- By due instant. -/
  delayed : Agenda := []
  /-- The oldest burial first. -/
  buried : List JobId := []
  reserved : List JobId := []
  /-- The requests that wait for a job, first come first. -/
  waiters : List RequestId := []
  pausedUntil : Option Instant := none
  /-- The length of the latest pause. -/
  pause : Millis := 0
  totalJobs : Nat := 0
  cmdDelete : Nat := 0
  cmdPause : Nat := 0
  users : UInt64 := 0
  watchers : UInt64 := 0
  deriving DecidableEq

instance : Keyed Tube TubeName := ⟨Tube.name⟩

namespace Tube

/-- The least pause. -/
def minPause : Millis := seconds 1

/-- Ready jobs below this priority are urgent. -/
def urgentBelow : Nat := 1024

/-- Takes a job off the list of its state. -/
def withdraw (tube : Tube) (job : Job) : Tube :=
  match job.state with
  | .ready => { tube with ready := tube.ready.remove job.slot }
  | .delayed _ => { tube with delayed := tube.delayed.remove job.slot }
  | .reserved .. => { tube with reserved := tube.reserved.filter (· ≠ job.id) }
  | .buried => { tube with buried := tube.buried.filter (· ≠ job.id) }
  | .new | .deleted => tube

/-- Puts a job on the list of its state. -/
def enlist (tube : Tube) (job : Job) : Tube :=
  match job.state with
  | .ready => { tube with ready := tube.ready.insert job.slot }
  | .delayed _ => { tube with delayed := tube.delayed.insert job.slot }
  | .reserved .. => { tube with reserved := tube.reserved ++ [job.id] }
  | .buried => { tube with buried := tube.buried ++ [job.id] }
  | .new | .deleted => tube

def isPaused (tube : Tube) (now : Instant) : Bool :=
  tube.pausedUntil.any (now < ·)

/-- Whether a pause is on record that has run out. -/
def pauseIsOver (tube : Tube) (now : Instant) : Bool :=
  tube.pausedUntil.any (· ≤ now)

/-- The job to hand out next : the most urgent ready one, unless the tube is paused. -/
def next? (tube : Tube) (now : Instant) : Option JobId :=
  if tube.isPaused now then none else tube.ready.head?.map (·.job)

/-- Keeps the tube's jobs for a while, counted from `now`. -/
def startPause (tube : Tube) (now : Instant) (span : Millis) : Tube :=
  let span := max span minPause
  { tube with
    pausedUntil := some (now + span)
    pause := span
    cmdPause := tube.cmdPause + 1 }

/-- The jobs that `kick` takes : buried ones, or delayed ones if none is buried. -/
def kickable (tube : Tube) (bound : Nat) : List JobId :=
  if tube.buried.isEmpty then (tube.delayed.take bound).map (·.job) else tube.buried.take bound

end Tube

end WorkQueue
