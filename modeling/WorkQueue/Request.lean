import WorkQueue.Client

/-!
# Reservation requests

A request asks for a job of any tube its client watches at that moment. It may carry a timeout, and
then gets a timer when it waits : the timer gives up at the timeout, or shortly before the client's
nearest deadline if that comes first. A request that watches nothing has no timer.
-/

namespace WorkQueue

/-- The answer to a request. -/
inductive Outcome
  | reserved (job : JobId)
  | notFound
  | deadlineSoon
  | timedOut
  deriving DecidableEq, Repr

/-- An answer to be given at an instant, if none was given before. -/
structure Timer where
  due : Instant
  outcome : Outcome
  deriving DecidableEq, Repr

structure Request where
  id : RequestId
  client : ClientId
  /-- The task that has to be open for the request to be answered. -/
  task : TaskId
  tubes : List TubeName
  timeout : Option Millis
  made : Instant
  timer : Option Timer
  /-- Whether nobody listens for the answer any more. -/
  abandoned : Bool := false
  deriving DecidableEq

instance : Keyed Request RequestId := ⟨Request.id⟩

/-- An answer that was given, and when. -/
structure Delivery where
  request : RequestId
  outcome : Outcome
  time : Instant
  deriving DecidableEq, Repr

/-- How long before a deadline a request gives up. -/
def safetyMargin : Millis := seconds 1

/-- The least time that a deadline leaves a request. -/
def minDeadlineWait : Millis := 1

/-- How long a request may wait for the sake of a deadline. -/
def deadlineWait (now deadline : Instant) : Millis :=
  max minDeadlineWait (timeLeft (now + safetyMargin) deadline)

/-- The timer of a request with a timeout. -/
def timerFor (now : Instant) (deadline : Option Instant) (timeout : Millis) : Option Timer :=
  let soon := (deadline.map (deadlineWait now)).filter (· ≤ timeout)
  match soon with
  | some wait => some ⟨now + wait, .deadlineSoon⟩
  | none => if timeout = 0 then none else some ⟨now + timeout, .timedOut⟩

/-- The request a client makes at `now`. -/
def Client.request (client : Client) (id : RequestId) (now : Instant) (timeout : Option Millis) :
    Request where
  id := id
  client := client.id
  task := client.tasks.start.1
  tubes := client.watching
  timeout := timeout
  made := now
  timer :=
    if client.watching.isEmpty then none
    else timeout.bind (timerFor now client.nearestDeadline?)

end WorkQueue
