import WorkQueue.Broker
import WorkQueue.Command

/-!
# Carrying out a command

`dispatch` counts a command and carries it out for a connected client. Most commands are answered
at once. A reservation is answered by its request, at once or later, and `quit` is not answered.
-/

namespace WorkQueue

/-- What comes of a command. -/
inductive Reply
  | now (response : Response)
  /-- The answer to the request, once there is one. -/
  | later (request : RequestId)
  | close

namespace Broker

/-- Counts a command. -/
def record (b : Broker) (verb : Verb) : Broker :=
  { b with commands := b.commands.record verb }

/-- The reply to a transition, `NOT_FOUND` if it was refused. -/
def acknowledge (b : Broker) (notice : Notice) (result : Bool × Engine) : Reply × Broker :=
  (.now (.notice (if result.1 then notice else .notFound)), { b with engine := result.2 })

/-- Carries out a transition of a registered job. Any other number is refused. -/
def onJob (b : Broker) (id : JobId) (go : Engine → JobId → Bool × Engine) : Bool × Engine :=
  if (b.engine.find? id).isSome then go b.engine id else (false, b.engine)

def usedTube? (b : Broker) (c : ClientId) : Option Tube :=
  (b.engine.client? c).bind fun client => b.engine.tube? client.used

/-- The reply that shows a job. -/
def show? (b : Broker) (job : Option Job) : Reply × Broker :=
  match job with
  | some job => (.now (.found job.id job.body), b)
  | none => (.now (.notice .notFound), b)

/-- The reply that shows the first job on a list of the tube in use. -/
def peekTube (b : Broker) (c : ClientId) (first : Tube → Option JobId) : Reply × Broker :=
  b.show? (((b.usedTube? c).bind first).bind b.engine.job?)

/-- Puts a job into the tube that a client uses. -/
def put (b : Broker) (c : ClientId) (pri : Nat) (delay ttr : Millis) (body : Bytes) :
    Reply × Broker :=
  match b.engine.client? c with
  | some client =>
    let id := b.engine.nextJob
    let s := b.engine.adjustClient c fun client => { client with producer := true }
    let s := s.create client.used pri delay ttr body
    let s := s.adjustTube client.used fun tube => { tube with totalJobs := tube.totalJobs + 1 }
    (.now (.inserted id), { b with engine := (s.enqueue id).2, totalJobs := b.totalJobs + 1 })
  | none => (.now (.notice .notFound), b)

def markWorker (s : Engine) (c : ClientId) : Engine :=
  s.adjustClient c fun client => { client with worker := true }

/-- Makes a request, whose answer is the reply. -/
def reserve (b : Broker) (c : ClientId) (timeout : Option Millis) : Reply × Broker :=
  (.later b.engine.nextRequest, { b with engine := (markWorker b.engine c).reserve c timeout })

def reserveJob (b : Broker) (c : ClientId) (id : JobId) : Reply × Broker :=
  let (done, s) := b.onJob id (·.reserveJob c)
  match done, b.engine.find? id with
  | true, some job =>
    (.now (.reserved id job.body), { b with engine := (markWorker s c).watchDeadlines c })
  | _, _ => (.now (.notice .notFound), { b with engine := s })

/-- Deletes a job for good. -/
def delete (b : Broker) (c : ClientId) (id : JobId) : Reply × Broker :=
  let (done, s) := b.onJob id (·.delete c)
  match done, b.engine.find? id with
  | true, some job =>
    let s := (s.unregister id).adjustTube job.tube
      fun tube => { tube with cmdDelete := tube.cmdDelete + 1 }
    (.now (.notice .deleted), { b with engine := s })
  | _, _ => (.now (.notice .notFound), { b with engine := s })

def kick (b : Broker) (c : ClientId) (bound : Nat) : Reply × Broker :=
  match b.engine.client? c with
  | some client =>
    let (n, s) := b.engine.kick client.used bound
    (.now (.kickedCount n), { b with engine := s })
  | none => (.now (.notice .notFound), b)

def ignore (b : Broker) (c : ClientId) (name : TubeName) : Reply × Broker :=
  if b.engine.watchesOnly c name then (.now (.notice .notIgnored), b)
  else
    let s := b.engine.ignore c name
    (.now (.watching (s.watchCount c)), { b with engine := s })

def pauseTube (b : Broker) (name : TubeName) (span : Millis) : Reply × Broker :=
  if (b.engine.tube? name).isSome then
    let s := b.engine.adjustTube name (·.startPause b.engine.now span)
    (.now (.notice .paused), { b with engine := s })
  else (.now (.notice .notFound), b)

/-- Carries out a command of a client. A `put` comes with its body. -/
def perform (b : Broker) (c : ClientId) (command : Command) (body : Option Bytes) :
    Reply × Broker :=
  match command with
  | .put pri delay ttr _ =>
    match body with
    | some body => b.put c pri.toNat (seconds delay.toNat) (seconds ttr.toNat) body
    | none => (.now (.notice .internalError), b)
  | .reserve => b.reserve c none
  | .reserveWithTimeout timeout => b.reserve c (some (seconds timeout.toNat))
  | .reserveJob id => b.reserveJob c id.toNat
  | .release id pri delay =>
    b.acknowledge .released
      (b.onJob id.toNat (·.release c · pri.toNat (seconds delay.toNat)))
  | .delete id => b.delete c id.toNat
  | .bury id pri => b.acknowledge .buried (b.onJob id.toNat (·.bury c · pri.toNat))
  | .touch id => b.acknowledge .touched (b.onJob id.toNat (·.touch c))
  | .watch tube =>
    let s := b.engine.watch c tube
    (.now (.watching (s.watchCount c)), { b with engine := s })
  | .ignore tube => b.ignore c tube
  | .peek id => b.show? (b.engine.find? id.toNat)
  | .peekReady => b.peekTube c fun tube => tube.ready.head?.map (·.job)
  | .peekDelayed => b.peekTube c fun tube => tube.delayed.head?.map (·.job)
  | .peekBuried => b.peekTube c fun tube => tube.buried.head?
  | .kick bound => b.kick c bound.toNat
  | .kickJob id => b.acknowledge .kicked (b.onJob id.toNat (·.kickJob))
  | .statsJob id =>
    match b.engine.find? id.toNat with
    | some job => (.now (.jobStats (job.stats b.engine.now)), b)
    | none => (.now (.notice .notFound), b)
  | .statsTube name =>
    match b.engine.tube? name with
    | some tube => (.now (.tubeStats (b.engine.tubeStats tube)), b)
    | none => (.now (.notice .notFound), b)
  | .stats => (.now (.serverStats b.stats), b)
  | .listTubes => (.now (.tubes b.engine.tubes.keys), b)
  | .listTubeUsed =>
    match b.engine.client? c with
    | some client => (.now (.usingTube client.used), b)
    | none => (.now (.notice .notFound), b)
  | .listTubesWatched =>
    match b.engine.client? c with
    | some client => (.now (.tubes client.watching), b)
    | none => (.now (.notice .notFound), b)
  | .quit => (.close, b)
  | .pauseTube name delay => b.pauseTube name (seconds delay.toNat)
  | .useTube name => (.now (.usingTube name), { b with engine := b.engine.useTube c name })

/-- Counts a command and carries it out. -/
def dispatch (b : Broker) (c : ClientId) (command : Command) (body : Option Bytes) :
    Reply × Broker :=
  (b.record command.verb).perform c command body

end Broker

end WorkQueue
