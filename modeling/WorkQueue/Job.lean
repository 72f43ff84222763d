import WorkQueue.Agenda
import WorkQueue.Bytes
import WorkQueue.Table
import WorkQueue.TubeName

/-!
# Jobs

A job is a body with its scheduling data. `JobState` carries what a state needs : a delayed job its
due instant, a reserved job its holder and its deadline. The functions below give the record of a
job after each transition. Where the record then has to be listed is for `Tube` and `Client`.
-/

namespace WorkQueue

inductive JobState
  /-- Made, and not placed in its tube yet. -/
  | new
  | ready
  | delayed (due : Instant)
  | reserved (holder : ClientId) (due : Instant)
  | buried
  | deleted
  deriving DecidableEq, Repr

/-- How often a job went through each kind of transition. -/
structure JobCounts where
  reserves : Nat := 0
  timeouts : Nat := 0
  releases : Nat := 0
  buries : Nat := 0
  kicks : Nat := 0
  deriving DecidableEq, Repr

structure Job where
  id : JobId
  tube : TubeName
  pri : Nat
  /-- The delay it was last put or released with. -/
  delay : Millis
  /-- The time a holder has to finish it. -/
  ttr : Millis
  created : Instant
  body : Bytes
  state : JobState := .new
  counts : JobCounts := {}
  /-- Whether the job can be found by its number. -/
  registered : Bool := true
  deriving DecidableEq

instance : Keyed Job JobId := ⟨Job.id⟩

namespace Job

/-- The least time to run. -/
def minTtr : Millis := seconds 1

/-- The place of the job on the agenda of its state. -/
def slot (job : Job) : Slot :=
  match job.state with
  | .delayed due | .reserved _ due => ⟨due, job.id⟩
  | .new | .ready | .buried | .deleted => ⟨job.pri, job.id⟩

/-- The client that holds the job. -/
def holder? (job : Job) : Option ClientId :=
  match job.state with
  | .reserved holder _ => some holder
  | _ => none

def isHeldBy (job : Job) (c : ClientId) : Bool :=
  job.holder? = some c

/-! ## Transitions -/

def makeReady (job : Job) : Job :=
  { job with state := .ready }

def makeDelayed (job : Job) (now : Instant) (delay : Millis) : Job :=
  { job with state := .delayed (now + delay), delay := delay }

def makeReserved (job : Job) (now : Instant) (c : ClientId) : Job :=
  { job with
    state := .reserved c (now + job.ttr)
    counts := { job.counts with reserves := job.counts.reserves + 1 } }

/-- Restarts the time to run. -/
def renew (job : Job) (now : Instant) (c : ClientId) : Job :=
  { job with state := .reserved c (now + job.ttr) }

def countRelease (job : Job) (pri : Nat) : Job :=
  { job with pri := pri, counts := { job.counts with releases := job.counts.releases + 1 } }

def makeBuried (job : Job) (pri : Nat) : Job :=
  { job with
    state := .buried
    pri := pri
    counts := { job.counts with buries := job.counts.buries + 1 } }

def countKick (job : Job) : Job :=
  { job with counts := { job.counts with kicks := job.counts.kicks + 1 } }

def countTimeout (job : Job) : Job :=
  { job with counts := { job.counts with timeouts := job.counts.timeouts + 1 } }

def makeDeleted (job : Job) : Job :=
  { job with state := .deleted }

end Job

end WorkQueue
