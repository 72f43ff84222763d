import WorkQueue.Request
import WorkQueue.Tube

/-!
# The engine

All tubes, jobs, clients and requests at one moment. Nothing is ever removed from a table, so a
number stays good. `deliveries` is the record of all answers given to requests.
-/

namespace WorkQueue

structure Engine where
  now : Instant := 0
  tubes : Table Tube := [{ name := .default }]
  jobs : Table Job := []
  clients : Table Client := []
  requests : Table Request := []
  deliveries : List Delivery := []
  /-- The clients whose deadlines are looked after, in order. -/
  expiring : List ClientId := []
  deriving DecidableEq

namespace Engine

/-! ## Records -/

def tube? (s : Engine) (name : TubeName) : Option Tube := s.tubes.lookup name

def job? (s : Engine) (id : JobId) : Option Job := s.jobs.lookup id

def client? (s : Engine) (c : ClientId) : Option Client := s.clients.lookup c

def request? (s : Engine) (r : RequestId) : Option Request := s.requests.lookup r

def adjustTube (s : Engine) (name : TubeName) (f : Tube → Tube) : Engine :=
  { s with tubes := s.tubes.adjust name f }

def adjustJob (s : Engine) (id : JobId) (f : Job → Job) : Engine :=
  { s with jobs := s.jobs.adjust id f }

def adjustClient (s : Engine) (c : ClientId) (f : Client → Client) : Engine :=
  { s with clients := s.clients.adjust c f }

/-- The job of a number, if it is still registered. -/
def find? (s : Engine) (id : JobId) : Option Job :=
  (s.job? id).filter (·.registered)

/-- Whether a client is there and not closed. -/
def isConnected (s : Engine) (c : ClientId) : Bool :=
  (s.client? c).any (!·.closed)

/-- Makes a tube of a name, unless there is one. -/
def ensureTube (s : Engine) (name : TubeName) : Engine :=
  if (s.tube? name).isSome then s else { s with tubes := s.tubes ++ [{ name := name }] }

/-! ## Moving a job -/

/-- Applies a change to the client that holds a job, if one does. -/
def adjustHolder (s : Engine) (job : Job) (f : Client → Client) : Engine :=
  match job.holder? with
  | some c => s.adjustClient c f
  | none => s

/-- Takes a job off the lists that its state puts it on. -/
def withdraw (s : Engine) (job : Job) : Engine :=
  (s.adjustTube job.tube (·.withdraw job)).adjustHolder job (·.letGo job)

/-- Puts a job on the lists that its state puts it on. -/
def enlist (s : Engine) (job : Job) : Engine :=
  (s.adjustTube job.tube (·.enlist job)).adjustHolder job (·.hold job)

/-- Changes the record of a job, and its place on the lists with it. Every transition is such a
move, so the lists always tell the states. -/
def move (s : Engine) (id : JobId) (f : Job → Job) : Engine :=
  match s.job? id with
  | some job => ((s.withdraw job).adjustJob id fun _ => f job).enlist (f job)
  | none => s

end Engine

end WorkQueue
