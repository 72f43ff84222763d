import WorkQueue.Broker.Event
import WorkQueue.Server

/-!
# What can happen to a server

A server starts with no connection and goes through events in any order : connections are accepted,
bytes arrive on them, their streams end, they make their turns, the clock moves on, and each of the
two sweeps is made. `Reachable` holds of the states that come up.
-/

namespace WorkQueue

open Yaml (Writer)

variable [Writer]

namespace Server

inductive Event
  | accept
  | receive (client : ClientId) (bytes : Bytes)
  | hangUp (client : ClientId)
  | turn (client : ClientId) (first : Branch)
  | advance (span : Millis)
  | delayedSweep
  | expirySweep
  deriving DecidableEq

def start (config : Config) : Server := { broker := .start config }

/-- The server after an event. -/
def step (s : Server) : Event → Server
  | .accept => s.accept
  | .receive c bytes => s.receive c bytes
  | .hangUp c => s.hangUp c
  | .turn c first => s.turn c first
  | .advance span => { s with broker := s.broker.advance span }
  | .delayedSweep => { s with broker := s.broker.delayedSweep.2 }
  | .expirySweep => { s with broker := s.broker.expirySweep }

/-- The server after events in a row. -/
def after (s : Server) (events : List Event) : Server :=
  events.foldl step s

/-- The states that a server comes to. -/
inductive Reachable : Server → Prop
  | start (config : Config) : Reachable (start config)
  | step {s : Server} (event : Event) (h : Reachable s) : Reachable (s.step event)

end Server

end WorkQueue
