import WorkQueue.Engine.Waiting

/-!
# Transitions of a job

Each transition is open to jobs in some states, or of one holder, and refused for all others : a
refused one answers `false`. A job that becomes ready is offered to the requests that wait at its
tube at once.
-/

namespace WorkQueue

namespace Engine

/-! ## Jobs come and go -/

/-- The number of the next job. In 32 bits it would be `nextFree`. -/
def nextJob (s : Engine) : JobId := s.jobs.length + 1

/-- Makes a job of a tube, without placing it there. -/
def create (s : Engine) (tube : TubeName) (pri : Nat) (delay ttr : Millis) (body : Bytes) :
    Engine :=
  let job : Job :=
    { id := s.nextJob, tube, pri, delay, ttr := max ttr Job.minTtr, created := s.now, body }
  { s with jobs := s.jobs ++ [job] }

/-- Forgets the number of a job. -/
def unregister (s : Engine) (id : JobId) : Engine :=
  s.adjustJob id fun job => { job with registered := false }

/-- Takes the next job off a tube's ready list, and leaves the job as it is. -/
def takeOff (s : Engine) (name : TubeName) : Option JobId × Engine :=
  match s.next? name with
  | some id => (some id, s.adjustTube name fun tube => { tube with ready := tube.ready.tail })
  | none => (none, s)

/-! ## Transitions -/

/-- Moves a job to ready, with a change of its record, and serves the requests that wait. -/
def enterReady (s : Engine) (job : Job) (f : Job → Job) : Engine :=
  (s.move job.id fun job => (f job).makeReady).drain job.tube

/-- Carries out a transition of a job that it is open to. -/
def transition (s : Engine) (id : JobId) (isOpenTo : Job → Bool) (go : Job → Engine) :
    Bool × Engine :=
  match s.job? id with
  | some job => if isOpenTo job then (true, go job) else (false, s)
  | none => (false, s)

/-- Places a new job in its tube, delayed if it has a delay. -/
def enqueue (s : Engine) (id : JobId) : Bool × Engine :=
  s.transition id (·.state = .new) fun job =>
    if job.delay = 0 then s.enterReady job (·)
    else s.move id (·.makeDelayed s.now job.delay)

/-- Whether a job can be reserved by its number. -/
def isReservable (job : Job) : Bool :=
  match job.state with
  | .ready | .delayed _ | .buried => true
  | .new | .reserved .. | .deleted => false

/-- Reserves a job by its number. A closed client is refused, but the job is ready then. -/
def reserveJob (s : Engine) (c : ClientId) (id : JobId) : Bool × Engine :=
  let (done, t) := s.transition id isReservable fun job =>
    if s.isConnected c then s.move id (·.makeReserved s.now c) else s.enterReady job (·)
  (done && s.isConnected c, t)

/-- Restarts the time to run of a job that the client holds. -/
def touch (s : Engine) (c : ClientId) (id : JobId) : Bool × Engine :=
  s.transition id (·.isHeldBy c) fun _ => s.move id (·.renew s.now c)

/-- Makes a job ready again that the client holds. -/
def giveBack (s : Engine) (c : ClientId) (id : JobId) : Bool × Engine :=
  s.transition id (·.isHeldBy c) fun job => s.enterReady job (·)

/-- Puts a job aside that the client holds. -/
def bury (s : Engine) (c : ClientId) (id : JobId) (pri : Nat) : Bool × Engine :=
  s.transition id (·.isHeldBy c) fun _ => s.move id (·.makeBuried pri)

/-- Releases a job that the client holds, to ready or after a delay. -/
def release (s : Engine) (c : ClientId) (id : JobId) (pri : Nat) (delay : Millis) :
    Bool × Engine :=
  s.transition id (·.isHeldBy c) fun job =>
    if delay = 0 then s.enterReady job (·.countRelease pri)
    else s.move id fun job => (job.countRelease pri).makeDelayed s.now delay

/-- Deletes a job. Only its holder may delete a reserved one. -/
def delete (s : Engine) (c : ClientId) (id : JobId) : Bool × Engine :=
  s.transition id (fun job => job.state ≠ .deleted && (job.holder?.all (· = c)))
    fun _ => s.move id (·.makeDeleted)

def isKickable (job : Job) : Bool :=
  match job.state with
  | .buried | .delayed _ => true
  | .new | .ready | .reserved .. | .deleted => false

/-- Makes a buried or delayed job ready. -/
def kickJob (s : Engine) (id : JobId) : Bool × Engine :=
  s.transition id isKickable fun job => s.enterReady job (·.countKick)

def isDue (now : Instant) (job : Job) : Bool :=
  match job.state with
  | .delayed due => due ≤ now
  | _ => false

/-- Makes a delayed job ready whose time has come. -/
def promote (s : Engine) (id : JobId) : Bool × Engine :=
  s.transition id (isDue s.now) fun job => s.enterReady job (·)

def isOverdue (now : Instant) (job : Job) : Bool :=
  match job.state with
  | .reserved _ due => due ≤ now
  | _ => false

/-- Takes a job from its holder once its time to run is up. -/
def expire (s : Engine) (id : JobId) : Bool × Engine :=
  s.transition id (isOverdue s.now) fun job => s.enterReady job (·.countTimeout)

/-- Carries out a transition of each job in turn, and counts those not refused. -/
def transitionEach (go : Engine → JobId → Bool × Engine) (s : Engine) (ids : List JobId) :
    Nat × Engine :=
  ids.foldl (fun total id =>
    let next := go total.2 id
    (total.1 + next.1.toNat, next.2)) (0, s)

/-- Kicks up to `bound` jobs of a tube. -/
def kick (s : Engine) (name : TubeName) (bound : Nat) : Nat × Engine :=
  match s.tube? name with
  | some tube => transitionEach kickJob s (tube.kickable bound)
  | none => (0, s)

end Engine

end WorkQueue
