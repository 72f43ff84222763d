import WorkQueue.Engine.Transition

/-!
# Sweeps

Two sweeps move jobs along as time goes by. The delayed sweep makes delayed jobs ready whose time
has come, at most `promotionCap` of a tube at once, and ends the pauses that have run out. The
expiry sweep takes jobs from the clients that have let their deadline pass.
-/

namespace WorkQueue

namespace Engine

/-- The most jobs of a tube that one sweep promotes. -/
def promotionCap : Nat := 100

/-- The delayed jobs of a tube whose time has come. -/
def dueJobs (s : Engine) (name : TubeName) : List JobId :=
  ((s.tube? name).map fun tube => (tube.delayed.upTo s.now).map (·.job)).getD []

/-- Ends a pause that has run out, and serves the requests that wait. -/
def resume (s : Engine) (name : TubeName) : Engine :=
  if (s.tube? name).any (·.pauseIsOver s.now) then
    (s.adjustTube name fun tube => { tube with pausedUntil := none }).drain name
  else s

/-- The delayed sweep of one tube, with the number of jobs promoted. -/
def sweepTube (s : Engine) (name : TubeName) : Nat × Engine :=
  let (n, s) := transitionEach promote s ((s.dueJobs name).take promotionCap)
  (n, s.resume name)

/-- The delayed sweep of some tubes in turn. -/
def sweepTubes (s : Engine) (names : List TubeName) : Nat × Engine :=
  names.foldl (fun total name =>
    let next := total.2.sweepTube name
    (total.1 + next.1, next.2)) (0, s)

/-- The delayed sweep. The answer is whether it promoted a job. -/
def delayedSweep (s : Engine) : Bool × Engine :=
  let (n, s) := s.sweepTubes s.tubes.keys
  (0 < n, s)

/-- The jobs of a client whose deadline has passed. -/
def overdueJobs (s : Engine) (c : ClientId) : List JobId :=
  ((s.client? c).map fun client => (client.held.upTo s.now).map (·.job)).getD []

/-- Stops looking after the deadlines of a client that holds nothing. -/
def dropIdle (s : Engine) (c : ClientId) : Engine :=
  if (s.client? c).all (·.held.isEmpty) then
    { s with expiring := s.expiring.filter (· ≠ c) }
  else s

/-- The expiry sweep of one client, with the number of jobs taken from it. -/
def expireClient (s : Engine) (c : ClientId) : Nat × Engine :=
  let (n, s) := transitionEach expire s (s.overdueJobs c)
  (n, s.dropIdle c)

/-- The expiry sweep. The answer is how many jobs it took. -/
def expirySweep (s : Engine) : Nat × Engine :=
  s.expiring.foldl (fun total c =>
    let next := total.2.expireClient c
    (total.1 + next.1, next.2)) (0, s)

end Engine

end WorkQueue
