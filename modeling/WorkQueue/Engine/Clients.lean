import WorkQueue.Engine.Transition

/-!
# Clients of the engine

A client comes and goes, and chooses the tubes it uses and watches. Closing one gives up its
requests and puts the jobs it holds back to ready, the earliest deadline first.
-/

namespace WorkQueue

namespace Engine

/-- The number of the next client. -/
def nextClient (s : Engine) : ClientId := s.clients.length + 1

def addUser (s : Engine) (name : TubeName) : Engine :=
  s.adjustTube name fun tube => { tube with users := tube.users + 1 }

def removeUser (s : Engine) (name : TubeName) : Engine :=
  s.adjustTube name fun tube => { tube with users := tube.users - 1 }

def addWatcher (s : Engine) (name : TubeName) : Engine :=
  s.adjustTube name fun tube => { tube with watchers := tube.watchers + 1 }

def removeWatcher (s : Engine) (name : TubeName) : Engine :=
  s.adjustTube name fun tube => { tube with watchers := tube.watchers - 1 }

/-- Adds a client that uses and watches the default tube. -/
def openClient (s : Engine) : Engine :=
  { (s.addUser .default).addWatcher .default with
    clients := s.clients ++ [{ id := s.nextClient }] }

/-- Changes the tube that a client uses. -/
def useTube (s : Engine) (c : ClientId) (name : TubeName) : Engine :=
  match s.client? c with
  | some client =>
    (((s.ensureTube name).addUser name).removeUser client.used).adjustClient c
      fun client => { client with used := name }
  | none => s

/-- Adds a tube to those that a client watches. -/
def watch (s : Engine) (c : ClientId) (name : TubeName) : Engine :=
  let s := s.ensureTube name
  match s.client? c with
  | some client =>
    if client.watching.contains name then s
    else (s.addWatcher name).adjustClient c
      fun client => { client with watching := client.watching ++ [name] }
  | none => s

/-- How many tubes a client watches. -/
def watchCount (s : Engine) (c : ClientId) : Nat :=
  ((s.client? c).map (·.watching.length)).getD 0

/-- Whether a tube is the only one that a client watches. -/
def watchesOnly (s : Engine) (c : ClientId) (name : TubeName) : Bool :=
  (s.client? c).any (·.watching == [name])

/-- Takes a tube off those that a client watches, unless it is the only one. -/
def ignore (s : Engine) (c : ClientId) (name : TubeName) : Engine :=
  match s.client? c with
  | some client =>
    if client.watching.contains name && !s.watchesOnly c name then
      (s.removeWatcher name).adjustClient c
        fun client => { client with watching := client.watching.filter (· ≠ name) }
    else s
  | none => s

/-- Gives up all open requests of a client. -/
def finishAll (s : Engine) (c : ClientId) : Engine :=
  s.adjustClient c fun client => { client with tasks := client.tasks.finishAll }

/-- Puts the jobs that a client holds back to ready. -/
def giveBackAll (s : Engine) (c : ClientId) : Engine :=
  match s.client? c with
  | some client => client.held.foldl (fun s slot => (s.giveBack c slot.job).2) s
  | none => s

/-- Closes a client. Its tubes lose a user and their watchers, each time it is done. -/
def close (s : Engine) (c : ClientId) : Engine :=
  match s.client? c with
  | some client =>
    let s := (s.finishAll c).giveBackAll c
    let s := client.watching.foldl removeWatcher (s.removeUser client.used)
    s.adjustClient c fun client => { client with closed := true, watching := [] }
  | none => s

end Engine

end WorkQueue
