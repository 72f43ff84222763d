import WorkQueue.Broker.Dispatch

/-!
# What can happen to a broker

A broker starts empty and goes through events in any order : clients connect, send commands and
disconnect, the clock moves on with the timers on the way, and each of the two sweeps is made.
Events of a client that is not connected do nothing. `Reachable` holds of the states that come up,
also when the clock stands at an instant for which a timer is set and other events come first.
-/

namespace WorkQueue

inductive Event
  | connect
  | command (client : ClientId) (command : Command) (body : Option Bytes)
  | disconnect (client : ClientId)
  | advance (span : Millis)
  | delayedSweep
  | expirySweep
  deriving DecidableEq

namespace Broker

def start (config : Config) : Broker := { config }

def isConnected (b : Broker) (c : ClientId) : Bool :=
  b.engine.isConnected c

/-- The broker after an event. -/
def step (b : Broker) : Event → Broker
  | .connect => b.connect
  | .command c command body =>
    if b.isConnected c then (b.dispatch c command body).2 else b
  | .disconnect c => if b.isConnected c then b.disconnect c else b
  | .advance span => b.advance span
  | .delayedSweep => b.delayedSweep.2
  | .expirySweep => b.expirySweep

/-- The broker after events in a row. -/
def after (b : Broker) (events : List Event) : Broker :=
  events.foldl step b

/-- The clock comes to an instant, and some timers go off that are due by then. -/
def tick (b : Broker) (i : Instant) (requests : List Request) : Broker :=
  { b with engine := b.engine.tick i requests }

/-- No timer of an open request is due before an instant. -/
def NoneDueBefore (b : Broker) (i : Instant) : Prop :=
  ∀ q ∈ b.engine.requests, ∀ timer ∈ q.timer, b.engine.isOpen q = true → i ≤ timer.due

instance (b : Broker) (i : Instant) : Decidable (b.NoneDueBefore i) :=
  inferInstanceAs (Decidable (∀ q ∈ b.engine.requests, ∀ timer ∈ q.timer,
    b.engine.isOpen q = true → i ≤ timer.due))

/-- The states that a broker comes to. The clock stops at any instant that it likes before it passes
a timer, and whichever timers are due may go off before the next event or after it. -/
inductive Reachable : Broker → Prop
  | start (config : Config) : Reachable (start config)
  | step {b : Broker} (event : Event) (h : Reachable b) : Reachable (b.step event)
  | tick {b : Broker} {i : Instant} {requests : List Request} (hi : b.engine.now ≤ i)
    (hdue : b.NoneDueBefore i) (hrequests : requests ⊆ b.engine.requests) (h : Reachable b) :
    Reachable (b.tick i requests)

end Broker

end WorkQueue
