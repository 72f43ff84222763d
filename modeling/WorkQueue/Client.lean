import WorkQueue.Job
import WorkQueue.Tasks

/-!
# Clients

A client uses one tube, watches some, holds the jobs it has reserved and has its open tasks. It
stays known after it is closed.
-/

namespace WorkQueue

structure Client where
  id : ClientId
  tasks : Tasks := {}
  /-- The tube that it puts jobs into. -/
  used : TubeName := .default
  /-- The tubes that it takes jobs from, in the order they were first watched. -/
  watching : List TubeName := [.default]
  /-- The jobs that it holds, by deadline. -/
  held : Agenda := []
  closed : Bool := false
  producer : Bool := false
  worker : Bool := false
  deriving DecidableEq

instance : Keyed Client ClientId := ⟨Client.id⟩

namespace Client

def hold (client : Client) (job : Job) : Client :=
  { client with held := client.held.insert job.slot }

def letGo (client : Client) (job : Job) : Client :=
  { client with held := client.held.remove job.slot }

/-- The earliest deadline among the jobs it holds. -/
def nearestDeadline? (client : Client) : Option Instant :=
  client.held.head?.map (·.rank)

def isWaiting (client : Client) : Bool :=
  0 < client.tasks.openCount

end Client

end WorkQueue
