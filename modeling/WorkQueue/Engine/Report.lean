import WorkQueue.Engine.Waiting
import WorkQueue.Stats

/-!
# Reports

What the engine tells about its jobs, tubes and clients, and the answers it gave since an earlier
moment.
-/

namespace WorkQueue

def JobState.phase : JobState → Phase
  | new | deleted => .absent
  | ready => .ready
  | delayed _ => .delayed
  | reserved .. => .reserved
  | buried => .buried

/-- The instant that the state of a job ends, if it has one. -/
def JobState.due? : JobState → Option Instant
  | delayed due | reserved _ due => some due
  | new | ready | buried | deleted => none

def Job.stats (job : Job) (now : Instant) : JobStats where
  id := job.id
  tube := job.tube
  phase := job.state.phase
  pri := job.pri
  age := wholeSeconds (now - job.created)
  delay := wholeSeconds job.delay
  ttr := wholeSeconds job.ttr
  timeLeft := ((job.state.due?).map fun due => wholeSeconds (timeLeft now due)).getD 0
  reserves := job.counts.reserves
  timeouts := job.counts.timeouts
  releases := job.counts.releases
  buries := job.counts.buries
  kicks := job.counts.kicks

def Tube.totals (tube : Tube) : JobTotals where
  urgent := (tube.ready.takeWhile (·.rank < Tube.urgentBelow)).length
  ready := tube.ready.length
  reserved := tube.reserved.length
  delayed := tube.delayed.length
  buried := tube.buried.length

namespace Engine

/-- How many requests of a tube's queue are still open. -/
def waitingCount (s : Engine) (tube : Tube) : Nat :=
  (tube.waiters.filter s.isPending).length

def tubeStats (s : Engine) (tube : Tube) : TubeStats where
  name := tube.name
  jobs := tube.totals
  totalJobs := tube.totalJobs
  currentUsing := tube.users.toNat
  currentWaiting := s.waitingCount tube
  currentWatching := tube.watchers.toNat
  pause := wholeSeconds tube.pause
  cmdDelete := tube.cmdDelete
  cmdPause := tube.cmdPause
  pauseTimeLeft :=
    (tube.pausedUntil.map fun due => wholeSeconds (timeLeft s.now due)).getD 0

/-- The jobs of all tubes by state. -/
def totals (s : Engine) : JobTotals :=
  s.tubes.foldl (fun total tube => total.add tube.totals) {}

/-- The answer given to a request. -/
def outcome? (s : Engine) (r : RequestId) : Option Outcome :=
  (s.deliveries.find? (·.request = r)).map (·.outcome)

/-- The requests answered since an earlier moment, in the order they were made. Abandoned ones are
left out. -/
def answeredSince (s earlier : Engine) : List (Request × Outcome) :=
  let fresh := s.deliveries.drop earlier.deliveries.length
  s.requests.filterMap fun q =>
    if q.abandoned then none
    else (fresh.find? (·.request = q.id)).map fun d => (q, d.outcome)

end Engine

end WorkQueue
