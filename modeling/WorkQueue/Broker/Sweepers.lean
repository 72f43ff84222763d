import WorkQueue.Broker

/-!
# The sweepers at work

While they run, the two sweeps are made at the start and every 100 ms after it, the timers of an
instant before its sweeps. A delayed sweep that promoted something is made again at the same
instant until it finds nothing.

At first the delayed sweep has its turn before the expiry sweep. A repetition waits until the
expiry sweep has had its turn, and from then on the expiry sweep is ahead.
-/

namespace WorkQueue

namespace Broker

/-- The time between two sweeps. -/
def sweepInterval : Millis := 100

/-- Repeats the delayed sweep until it finds nothing, at most `n` times. -/
def repeatSweep : Nat → Broker → Broker
  | 0, b => b
  | n + 1, b =>
    let (busy, b) := b.delayedSweep
    if busy then repeatSweep n b else b

/-- Repeats the delayed sweep until it finds nothing. Every sweep but the last promotes a job, so
there are no more of them than delayed jobs. -/
def sweepOut (b : Broker) : Broker :=
  repeatSweep (b.engine.totals.delayed + 1) b

/-- The sweeps of one instant. The flag tells whether the expiry sweep is ahead. -/
def sweepInstant (expiryAhead : Bool) (b : Broker) : Bool × Broker :=
  if expiryAhead then (true, b.expirySweep.sweepOut)
  else
    let (busy, b) := b.delayedSweep
    let b := b.expirySweep
    (busy, if busy then b.sweepOut else b)

/-- The sweeps of the next `n` instants. -/
def sweepIntervals : Nat → Bool × Broker → Bool × Broker
  | 0, state => state
  | n + 1, (ahead, b) => sweepIntervals n (sweepInstant ahead (b.advance sweepInterval))

/-- Lets the sweepers run for a while. -/
def run (b : Broker) (span : Millis) : Broker :=
  let (_, b) := sweepIntervals (span / sweepInterval) (sweepInstant false b)
  b.advance (span % sweepInterval)

end Broker

end WorkQueue
