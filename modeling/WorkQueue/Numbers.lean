/-!
# Numbers and times

Jobs, clients and reservation requests are numbered from 1 in order of arrival, each kind by
itself, and a number is given out once. The numbers have no bound here. A server that counts its
jobs in 32 bits comes round after 2 ^ 32 - 1 puts : it starts again at 1 and passes over the numbers
that are in use (`nextFree`). Up to then both give out the same numbers
(`Broker.Reachable.nextFree_eq`).

The clock counts milliseconds from the start. Clients give and see whole seconds.
-/

namespace WorkQueue

/-! ## Numbers -/

abbrev JobId := Nat

abbrev ClientId := Nat

abbrev RequestId := Nat

/-- The number for a new job where numbers have 32 bits : the first behind the last one given out
that is neither zero nor in use. The search is given up after some tries. -/
def nextFree (inUse : JobId → Bool) : Nat → UInt32 → Option UInt32
  | 0, _ => none
  | tries + 1, last =>
    let id := last + 1
    if id = 0 || inUse id.toNat then nextFree inUse tries id else some id

/-! ## Times -/

abbrev Millis := Nat

/-- A point in time : milliseconds since the start. -/
abbrev Instant := Nat

def seconds (n : Nat) : Millis := 1000 * n

/-- The whole seconds of a span. -/
def wholeSeconds (span : Millis) : Nat := span / 1000

/-- The time left at `now` until `due`, none once it has passed. -/
def timeLeft (now due : Instant) : Millis := due - now

end WorkQueue
