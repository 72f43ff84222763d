import WorkQueue.Broker.Dispatch
import WorkQueue.Command.Parser
import WorkQueue.Response.Message
import WorkQueue.Stream.Calls

/-!
# Connections

A connection reads the requests of one client from a byte stream, hands them to the broker one by
one and sends the replies. `turn` is one step of it : reading a line, taking the body of a `put` or
dropping one that is too big, or sending an answer that was waited for. A step that needs more
bytes than have arrived is not made, and tried again when more have.

While a reservation is open the connection reads on, so that it notices when the client hangs up,
but it holds back one line at most and reads nothing behind it. When the answer is there and
something has arrived as well, it may take either first (`Branch`).
-/

namespace WorkQueue

open Yaml (Writer)

variable [Writer]

/-- What a connection is about to do. A line that is held back comes before any other. -/
inductive Doing
  | reading (held : Option Bytes)
  /-- The body of a `put` and its line end have to arrive. -/
  | receiving (command : Command) (size : Nat)
  /-- A body that is too big and its line end have to go by. -/
  | skipping (size : Nat)
  | waiting (request : RequestId) (held : Option Bytes)
  | closed
  deriving DecidableEq

/-- The steps that can be made from here without reading, and one more unless it is closed. -/
def Doing.rank : Doing → Nat
  | closed => 0
  | reading none | receiving .. | skipping _ => 1
  | waiting _ none => 2
  | reading (some _) => 3
  | waiting _ (some _) => 4

/-- What a connection that waits for an answer looks at first. -/
inductive Branch
  | answer
  | stream
  deriving DecidableEq

structure Connection where
  client : ClientId
  buffer : LineBuffer := {}
  /-- What has arrived and not been read. -/
  inbox : List Read := []
  doing : Doing := .reading none
  sent : Bytes := []
  deriving DecidableEq

instance : Keyed Connection ClientId := ⟨Connection.client⟩

def ParseError.response : ParseError → Response
  | badFormat => .notice .badFormat
  | unknownCommand => .notice .unknownCommand

namespace Connection

/-- The reads of the stream : what has arrived, and then one that is not ready. -/
def reads (k : Connection) : List Read :=
  k.inbox ++ [.notReady]

/-- What is left after a call that has not come to the end of the reads. -/
def after {α : Type} (k : Connection) (call : α × LineBuffer × List Read) : Connection :=
  { k with buffer := call.2.1, inbox := call.2.2.dropLast }

def send (k : Connection) (response : Response) : Connection :=
  { k with sent := k.sent ++ response.wire }

def respond (k : Connection) (response : Response) : Connection :=
  { k.send response with doing := .reading none }

/-- Closes the connection, and disconnects its client. -/
def close (k : Connection) (b : Broker) : Connection × Broker :=
  ({ k with doing := .closed }, b.disconnect k.client)

/-- Hands a command to the broker. -/
def dispatch (k : Connection) (b : Broker) (command : Command) (body : Option Bytes) :
    Connection × Broker :=
  match b.dispatch k.client command body with
  | (.now response, b) => (k.respond response, b)
  | (.later request, b) => ({ k with doing := .waiting request none }, b)
  | (.close, b) => k.close b

/-- Handles a request line. -/
def handle (k : Connection) (b : Broker) (line : Bytes) : Connection × Broker :=
  match Command.parse line with
  | .error error => (k.respond error.response, b)
  | .ok (.put pri delay ttr size) =>
    if b.config.maxJobSize < size.toNat then ({ k with doing := .skipping size.toNat }, b)
    else ({ k with doing := .receiving (.put pri delay ttr size) size.toNat }, b)
  | .ok command => k.dispatch b command none

/-- Handles the body of a `put`, with the two bytes that should end it. -/
def handleBody (k : Connection) (b : Broker) (command : Command) (size : Nat) (block : Bytes) :
    Connection × Broker :=
  if block.drop size = crlf then k.dispatch b command (some (block.take size))
  else (k.respond (.notice .expectedCrlf), b)

/-- Reads a line and goes on with it. A line that is too long ends the connection, since the next
one cannot be found. -/
def readLine (k : Connection) (b : Broker) (go : Connection → Bytes → Connection × Broker) :
    Option (Connection × Broker) :=
  let call := k.buffer.readLine .givesUp k.reads
  let k := k.after call
  match call.1 with
  | .done line => some (go k line)
  | .lineTooLong => some ((k.send (.notice .badFormat)).close b)
  | .ended | .failure _ => some (k.close b)
  | .givenUp => none

/-- Sends the answer that is waited for, if it is there. -/
def takeAnswer (k : Connection) (b : Broker) (request : RequestId) (held : Option Bytes) :
    Option (Connection × Broker) :=
  (b.response? request).map fun response => ({ k.send response with doing := .reading held }, b)

/-- Holds back a line that has arrived behind a reservation. Behind that no other one is read. -/
def readAhead (k : Connection) (b : Broker) (request : RequestId) (held : Option Bytes) :
    Option (Connection × Broker) :=
  match held with
  | some _ => none
  | none => k.readLine b fun k line => ({ k with doing := .waiting request (some line) }, b)

/-- The next step of a connection, if what has arrived allows one. -/
def turn (k : Connection) (first : Branch) (b : Broker) : Option (Connection × Broker) :=
  match k.doing with
  | .reading (some line) => some (k.handle b line)
  | .reading none => k.readLine b fun k line => k.handle b line
  | .receiving command size =>
    let call := k.buffer.readExact .givesUp (size + 2) k.reads
    let k := k.after call
    match call.1 with
    | .done block => some (k.handleBody b command size block)
    | .ended | .failure _ | .lineTooLong => some (k.close b)
    | .givenUp => none
  | .skipping size =>
    let call := k.buffer.discard .givesUp (size + 2) k.reads
    let k := k.after call
    match call.1 with
    | .done _ => some (k.respond (.notice .jobTooBig), b)
    | .ended | .failure _ | .lineTooLong => some (k.close b)
    | .givenUp => none
  | .waiting request held =>
    match first with
    | .answer => (k.takeAnswer b request held).or (k.readAhead b request held)
    | .stream => (k.readAhead b request held).or (k.takeAnswer b request held)
  | .closed => none

/-- A bound on the steps of a connection until more arrives. A step that reads takes two bytes at
least, and raises the rank by three at most. -/
def work (k : Connection) : Nat :=
  2 * (k.buffer.bytes.length + k.inbox.foldr (fun read n => read.size + n) 0) + k.doing.rank

end Connection

end WorkQueue
