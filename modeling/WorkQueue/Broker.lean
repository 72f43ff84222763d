import WorkQueue.Engine.Clients
import WorkQueue.Engine.Report
import WorkQueue.Engine.Reserve
import WorkQueue.Engine.Sweep
import WorkQueue.Response

/-!
# The broker

The engine with a configuration and the counts that `stats` shows. Clients connect, send commands
and disconnect, the clock moves on, and the two sweeps run.
-/

namespace WorkQueue

structure Config where
  /-- The largest job body, in bytes. -/
  maxJobSize : Nat := 65535
  processId : Nat := 0
  version : String := "0.0.0"
  deriving DecidableEq, Repr

structure Broker where
  config : Config := {}
  engine : Engine := {}
  commands : CommandCounts := {}
  jobTimeouts : Nat := 0
  totalJobs : Nat := 0
  totalConnections : Nat := 0
  deriving DecidableEq

namespace Broker

/-! ## Clients -/

/-- The number of the next client. -/
def nextClient (b : Broker) : ClientId := b.engine.nextClient

def connect (b : Broker) : Broker :=
  { b with engine := b.engine.openClient, totalConnections := b.totalConnections + 1 }

def disconnect (b : Broker) (c : ClientId) : Broker :=
  { b with engine := b.engine.close c }

/-- The clients that are connected. -/
def clients (b : Broker) : List Client :=
  b.engine.clients.filter (!·.closed)

/-! ## Time -/

def advance (b : Broker) (span : Millis) : Broker :=
  { b with engine := b.engine.advance span }

/-- The delayed sweep. The answer is whether it promoted a job. -/
def delayedSweep (b : Broker) : Bool × Broker :=
  let (busy, s) := b.engine.delayedSweep
  (busy, { b with engine := s })

/-- The expiry sweep, which counts the jobs it takes. -/
def expirySweep (b : Broker) : Broker :=
  let (n, s) := b.engine.expirySweep
  { b with engine := s, jobTimeouts := b.jobTimeouts + n }

/-! ## Answers -/

/-- The response that brings the answer to a request. -/
def outcomeResponse (b : Broker) : Outcome → Response
  | .reserved id => .reserved id (((b.engine.job? id).map (·.body)).getD [])
  | .notFound => .notice .notFound
  | .deadlineSoon => .notice .deadlineSoon
  | .timedOut => .notice .timedOut

/-- The response to a request, once it has been answered. -/
def response? (b : Broker) (r : RequestId) : Option Response :=
  (b.engine.outcome? r).map b.outcomeResponse

def stats (b : Broker) : ServerStats :=
  b.commands.fill
    { jobs := b.engine.totals
      jobTimeouts := b.jobTimeouts
      totalJobs := b.totalJobs
      maxJobSize := b.config.maxJobSize
      currentTubes := b.engine.tubes.length
      currentConnections := b.clients.length
      currentProducers := (b.clients.filter (·.producer)).length
      currentWorkers := (b.clients.filter (·.worker)).length
      currentWaiting := (b.clients.filter (·.isWaiting)).length
      totalConnections := b.totalConnections
      processId := b.config.processId
      version := b.config.version
      uptime := wholeSeconds b.engine.now }

end Broker

end WorkQueue
