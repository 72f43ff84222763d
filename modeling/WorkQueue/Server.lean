import WorkQueue.Broker.Sweepers
import WorkQueue.Connection

/-!
# The server

The broker and its connections. A connection makes its turn when it is its time to (`turn`), and
nothing fixes the order in which they do. `settle` is one such order : the connections take their
turns for as long as one of them can.
-/

namespace WorkQueue

open Yaml (Writer)

variable [Writer]

structure Server where
  broker : Broker := {}
  connections : Table Connection := []
  deriving DecidableEq

namespace Server

/-- Accepts a connection, of the broker's next client. -/
def accept (s : Server) : Server :=
  { broker := s.broker.connect
    connections := s.connections ++ [{ client := s.broker.nextClient }] }

/-- Adds to what has arrived on a connection. -/
def arrive (s : Server) (c : ClientId) (read : Read) : Server :=
  { s with connections := s.connections.adjust c fun k => { k with inbox := k.inbox ++ [read] } }

/-- Bytes arrive on a connection. -/
def receive (s : Server) (c : ClientId) (bytes : Bytes) : Server :=
  if bytes.isEmpty then s else s.arrive c (.bytes bytes)

/-- The stream of a connection ends. -/
def hangUp (s : Server) (c : ClientId) : Server :=
  s.arrive c (.bytes [])

/-- A connection makes its turn, if it can make one. -/
def turn (s : Server) (c : ClientId) (first : Branch) : Server :=
  match (s.connections.lookup c).bind fun k => k.turn first s.broker with
  | some (k, b) => { broker := b, connections := s.connections.adjust c fun _ => k }
  | none => s

/-! ### Settling -/

/-- The step of the first connection that can make one. -/
def step? (s : Server) : Option Server :=
  s.connections.findSome? fun k => (k.turn .answer s.broker).map fun (k', b) =>
    { broker := b, connections := s.connections.adjust k.client fun _ => k' }

/-- At most `n` steps. -/
def steps : Nat → Server → Server
  | 0, s => s
  | n + 1, s =>
    match s.step? with
    | some s => steps n s
    | none => s

/-- Lets the connections go on until each of them needs something. -/
def settle (s : Server) : Server :=
  steps (s.connections.foldr (fun k n => k.work + n) 0) s

/-- Time goes by while the sweepers run. -/
def run (s : Server) (span : Millis) : Server :=
  { s with broker := s.broker.run span }.settle

/-- What has been sent on a connection. -/
def sent (s : Server) (c : ClientId) : Bytes :=
  ((s.connections.lookup c).map (·.sent)).getD []

/-- A connection from its beginning to its end : all its bytes arrive at once, and the client hangs
up when they have been seen to. -/
def converse (s : Server) (bytes : Bytes) : Bytes × Server :=
  let c := s.broker.nextClient
  let s := ((s.accept.receive c bytes).settle.hangUp c).settle
  (s.sent c, s)

end Server

end WorkQueue
