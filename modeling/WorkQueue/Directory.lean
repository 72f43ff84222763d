import WorkQueue.Broker.Event

/-!
# The directory of tubes

The tables of the engine find a tube by its name, and a client is known by the names of its tubes.
Beneath them a tube is an object, with an address that tells it from every other one. The directory
finds the address of a name in one collection, and lists the addresses in the order in which the
objects were made in another. A client holds addresses : `watch` compares these, and `ignore` goes
by the names of the objects.

`Directory.after` takes a directory through the events of a broker. Only those that concern the
tubes of a client do anything.
-/

namespace WorkQueue

/-- The address of a tube. -/
abbrev TubeRef := Nat

/-- A tube, as far as it depends on who uses and watches it. -/
structure TubeObject where
  name : TubeName
  users : UInt64 := 0
  watchers : UInt64 := 0
  deriving DecidableEq

/-- The tubes of a client. -/
structure Seat where
  client : ClientId
  used : TubeRef
  /-- In the order they were first watched. -/
  watching : List TubeRef
  closed : Bool := false
  deriving DecidableEq

instance : Keyed Seat ClientId := ⟨Seat.client⟩

structure Directory where
  /-- The objects that have been made, each at its address. -/
  heap : List TubeObject := []
  /-- The address of each name. The first entry of a name counts. -/
  byName : List (TubeName × TubeRef) := []
  /-- In order of creation. -/
  order : List TubeRef := []
  seats : Table Seat := []
  deriving DecidableEq

namespace Directory

/-! ## Tubes -/

def name? (d : Directory) (ref : TubeRef) : Option TubeName := d.heap[ref]?.map (·.name)

def get (d : Directory) (name : TubeName) : Option TubeRef := d.byName.lookup name

/-- Makes the tube of a name, unless somebody else has made it since it was looked for. -/
def create (d : Directory) (name : TubeName) : TubeRef × Directory :=
  match d.get name with
  | some ref => (ref, d)
  | none =>
    let ref := d.heap.length
    (ref, { d with
      heap := d.heap ++ [{ name }]
      byName := (name, ref) :: d.byName
      order := d.order ++ [ref] })

/-- The tube of a name, which is made if this is its first use. -/
def getOrCreate (d : Directory) (name : TubeName) : TubeRef × Directory :=
  match d.get name with
  | some ref => (ref, d)
  | none => d.create name

/-- The names of some tubes. -/
def namesOf (d : Directory) (refs : List TubeRef) : List TubeName := refs.filterMap d.name?

/-- The names of all tubes, in order of creation. -/
def names (d : Directory) : List TubeName := d.namesOf d.order

def adjust (d : Directory) (ref : TubeRef) (f : TubeObject → TubeObject) : Directory :=
  { d with heap := d.heap.modify ref f }

def addUser (d : Directory) (ref : TubeRef) : Directory :=
  d.adjust ref fun tube => { tube with users := tube.users + 1 }

def removeUser (d : Directory) (ref : TubeRef) : Directory :=
  d.adjust ref fun tube => { tube with users := tube.users - 1 }

def addWatcher (d : Directory) (ref : TubeRef) : Directory :=
  d.adjust ref fun tube => { tube with watchers := tube.watchers + 1 }

def removeWatcher (d : Directory) (ref : TubeRef) : Directory :=
  d.adjust ref fun tube => { tube with watchers := tube.watchers - 1 }

/-! ## Clients -/

def seat? (d : Directory) (c : ClientId) : Option Seat := d.seats.lookup c

def adjustSeat (d : Directory) (c : ClientId) (f : Seat → Seat) : Directory :=
  { d with seats := d.seats.adjust c f }

def isConnected (d : Directory) (c : ClientId) : Bool :=
  (d.seat? c).any (!·.closed)

/-- Adds a client that uses and watches the default tube. -/
def connect (d : Directory) : Directory :=
  let (ref, d) := d.getOrCreate .default
  let d := (d.addUser ref).addWatcher ref
  { d with seats := d.seats ++ [{ client := d.seats.length + 1, used := ref, watching := [ref] }] }

/-- Changes the tube that a client uses. -/
def useTube (d : Directory) (c : ClientId) (name : TubeName) : Directory :=
  let (ref, d) := d.getOrCreate name
  match d.seat? c with
  | some seat =>
    ((d.addUser ref).removeUser seat.used).adjustSeat c fun seat => { seat with used := ref }
  | none => d

/-- Adds a tube to those that a client watches, unless it is one of them. The answer is how many
these are. -/
def watch (d : Directory) (c : ClientId) (name : TubeName) : Option Nat × Directory :=
  let (ref, d) := d.getOrCreate name
  match d.seat? c with
  | some seat =>
    if seat.watching.contains ref then (some seat.watching.length, d)
    else
      (some (seat.watching.length + 1), (d.addWatcher ref).adjustSeat c
        fun seat => { seat with watching := seat.watching ++ [ref] })
  | none => (none, d)

/-- Takes a tube off those that a client watches. The answer is how many are left, or nothing if
the tube is the only one, which stays. -/
def ignore (d : Directory) (c : ClientId) (name : TubeName) : Option Nat × Directory :=
  match d.seat? c with
  | some seat =>
    match seat.watching.findFinIdx? fun ref => d.name? ref = some name with
    | some i =>
      if seat.watching.length = 1 then (none, d)
      else
        (some (seat.watching.length - 1), (d.removeWatcher seat.watching[i]).adjustSeat c
          fun seat => { seat with watching := seat.watching.eraseIdx i })
    | none => (some seat.watching.length, d)
  | none => (none, d)

/-- Closes a client. Its tubes lose a user and their watchers. -/
def close (d : Directory) (c : ClientId) : Directory :=
  match d.seat? c with
  | some seat =>
    (seat.watching.foldl removeWatcher (d.removeUser seat.used)).adjustSeat c
      fun seat => { seat with closed := true, watching := [] }
  | none => d

/-! ## Events -/

/-- What a command makes of the directory. -/
def perform (d : Directory) (c : ClientId) : Command → Directory
  | .useTube name => d.useTube c name
  | .watch name => (d.watch c name).2
  | .ignore name => (d.ignore c name).2
  | _ => d

/-- The reply to a command that is about the tubes of a client or about which there are. -/
def reply? (d : Directory) (c : ClientId) : Command → Option Response
  | .useTube name => some (.usingTube name)
  | .watch name => (d.watch c name).1.map .watching
  | .ignore name =>
    some ((d.ignore c name).1.elim (.notice .notIgnored) .watching)
  | .listTubes => some (.tubes d.names)
  | .listTubeUsed => (d.seat? c).bind fun seat => (d.name? seat.used).map .usingTube
  | .listTubesWatched => (d.seat? c).map fun seat => .tubes (d.namesOf seat.watching)
  | _ => none

/-- The directory of a new broker, which has the default tube. -/
def start : Directory := (({} : Directory).getOrCreate .default).2

/-- The directory after an event. -/
def step (d : Directory) : Event → Directory
  | .connect => d.connect
  | .command c command _ => if d.isConnected c then d.perform c command else d
  | .disconnect c => if d.isConnected c then d.close c else d
  | .advance _ | .delayedSweep | .expirySweep => d

/-- The directory after events in a row. -/
def after (d : Directory) (events : List Event) : Directory :=
  events.foldl step d

end Directory

end WorkQueue
