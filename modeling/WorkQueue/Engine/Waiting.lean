import WorkQueue.Engine

/-!
# Serving the requests that wait

`grant` gives a ready job to a request, and `drain` offers the jobs of a tube to the requests of
its queue, one after the other, until the tube is empty or paused or nobody waits.

A request is answered only while its task is open, and the answer closes the task. A closed client
can hold nothing : the task of its request is closed all the same, and the job stays where it was,
for the next in the queue.
-/

namespace WorkQueue

namespace Engine

/-- Whether a request has not been answered or given up. -/
def isOpen (s : Engine) (q : Request) : Bool :=
  (s.client? q.client).any (·.tasks.isOpen q.task)

def isPending (s : Engine) (r : RequestId) : Bool :=
  (s.request? r).any s.isOpen

/-- Closes the task of a request. -/
def finish (s : Engine) (q : Request) : Engine :=
  s.adjustClient q.client fun client => { client with tasks := (client.tasks.finish q.task).2 }

/-- Records an answer. -/
def deliver (s : Engine) (r : RequestId) (outcome : Outcome) (time : Instant) : Engine :=
  { s with deliveries := s.deliveries ++ [⟨r, outcome, time⟩] }

/-- Adds a client to those whose deadlines are looked after. -/
def watchDeadlines (s : Engine) (c : ClientId) : Engine :=
  if s.expiring.contains c then s
  else { s with expiring := s.expiring.filter (· < c) ++ c :: s.expiring.filter (c < ·) }

/-- Gives a ready job to an open request. -/
def grant (s : Engine) (q : Request) (id : JobId) : Engine :=
  let s := s.finish q
  if s.isConnected q.client then
    ((s.move id (·.makeReserved s.now q.client)).watchDeadlines q.client).deliver q.id
      (.reserved id) s.now
  else s

/-- The job that a tube hands out next. -/
def next? (s : Engine) (tube : TubeName) : Option JobId :=
  (s.tube? tube).bind (·.next? s.now)

/-- Gives a job to a request of a queue, if the request is still open. -/
def serve (s : Engine) (r : RequestId) (id : JobId) : Engine :=
  match s.request? r with
  | some q => if s.isOpen q then s.grant q id else s
  | none => s

/-- Offers the jobs of a tube to the requests of a queue. The rest of the queue comes back. -/
def offer (tube : TubeName) : List RequestId → Engine → List RequestId × Engine
  | [], s => ([], s)
  | r :: rest, s =>
    match s.next? tube with
    | some id => offer tube rest (s.serve r id)
    | none => (r :: rest, s)

/-- Serves the requests that wait at a tube. -/
def drain (s : Engine) (name : TubeName) : Engine :=
  match s.tube? name with
  | some tube =>
    let (rest, s) := offer name tube.waiters s
    s.adjustTube name fun tube => { tube with waiters := rest }
  | none => s

/-- Puts a request at the end of a tube's queue. Those that have been answered elsewhere leave
it. -/
def enqueueWaiter (s : Engine) (r : RequestId) (name : TubeName) : Engine :=
  s.adjustTube name fun tube =>
    { tube with waiters := tube.waiters.filter s.isPending ++ [r] }

end Engine

end WorkQueue
