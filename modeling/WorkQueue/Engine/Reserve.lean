import WorkQueue.Engine.Waiting

/-!
# Requests and their timers

A request looks through the tubes its client watches, in order, and takes the next job of the first
that has one. If none has, a request with a timeout of zero is answered at once, and any other
waits at every one of the tubes.

Time moves on by `advance`, and the timers of waiting requests go off on the way, each at its own
instant. A timer only answers its request, so their order does not matter. Among all that happens at
one instant, `tick` gives each timer a place of its own.
-/

namespace WorkQueue

namespace Engine

/-- The number of the next request. -/
def nextRequest (s : Engine) : RequestId := s.requests.length + 1

/-- Opens a task for a request and records the request. -/
def openRequest (s : Engine) (q : Request) : Engine :=
  { s.adjustClient q.client fun client => { client with tasks := client.tasks.start.2 } with
    requests := s.requests ++ [q] }

/-- Takes the next job of a tube for a request, if there is one. A closed client's request leaves
the job to the tube's queue. -/
def take? (s : Engine) (q : Request) (tube : TubeName) : Option Engine :=
  (s.next? tube).map fun id =>
    if s.isConnected q.client then s.grant q id else (s.grant q id).drain tube

/-- Requests a job for a client. With a timeout it is answered by then, and with none it waits for
as long as it takes. -/
def reserve (s : Engine) (c : ClientId) (timeout : Option Millis) : Engine :=
  match s.client? c with
  | none => s
  | some client =>
    let q := client.request s.nextRequest s.now timeout
    let s := s.openRequest q
    match q.tubes.findSome? (s.take? q) with
    | some s => s
    | none =>
      if timeout = some 0 then (s.finish q).deliver q.id .notFound s.now
      else q.tubes.foldl (fun s tube => s.enqueueWaiter q.id tube) s

/-- Leaves a request without a listener. -/
def abandon (s : Engine) (r : RequestId) : Engine :=
  { s with requests := s.requests.adjust r fun q => { q with abandoned := true } }

/-! ## Timers -/

/-- Answers a request whose timer is due by `target`, if it is still open. -/
def fireTimer (target : Instant) (s : Engine) (q : Request) : Engine :=
  match q.timer with
  | some timer =>
    if timer.due ≤ target && s.isOpen q then
      (s.finish q).deliver q.id timer.outcome timer.due
    else s
  | none => s

/-- The clock comes to an instant, and of some requests the timers go off that are due by then. -/
def tick (s : Engine) (i : Instant) (requests : List Request) : Engine :=
  { requests.foldl (fireTimer i) s with now := i }

def advance (s : Engine) (span : Millis) : Engine :=
  s.tick (s.now + span) s.requests

end Engine

end WorkQueue
