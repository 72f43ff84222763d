import WorkQueue.Connection

/-!
# What a byte stream asks for

A stream of requests, read off its bytes without a connection : a request is a line and, if the
line is a `put`, the bytes of its body with two more. `transcript` hands the requests to the broker
in order and collects the replies. A connection does the same with its stream, however the bytes
arrive.
-/

namespace WorkQueue

/-- A request as it stands in a stream. -/
inductive Piece
  | line (text : Bytes)
  /-- A `put` of `size` bytes and the block that follows it. -/
  | withBody (command : Command) (size : Nat) (block : Bytes)
  deriving DecidableEq

namespace Piece

/-- The first request of a stream, and what is behind it. None if it is not complete. -/
def first? (stream : Bytes) : Option (Piece × Bytes) :=
  (findCrlf? stream).bind fun n =>
    let text := stream.take n
    let rest := stream.drop (n + 2)
    match Command.parse text with
    | .ok (.put pri delay ttr size) =>
      let length := size.toNat + 2
      if length ≤ rest.length then
        some (withBody (.put pri delay ttr size) size.toNat (rest.take length), rest.drop length)
      else none
    | _ => some (line text, rest)

/-- What comes of a request. -/
def answer (piece : Piece) (b : Broker) (c : ClientId) : Reply × Broker :=
  match piece with
  | line text =>
    match Command.parse text with
    | .ok command => b.dispatch c command none
    | .error error => (.now error.response, b)
  | withBody command size block =>
    if b.config.maxJobSize < size then (.now (.notice .jobTooBig), b)
    else if block.drop size = crlf then b.dispatch c command (some (block.take size))
    else (.now (.notice .expectedCrlf), b)

end Piece

/-- The response a reply brings at once. -/
def Reply.response? (reply : Reply) (b : Broker) : Option Response :=
  match reply with
  | now response => some response
  | later request => b.response? request
  | close => none

/-- The replies to the first `n` requests of a stream, and the broker after them. The first request
without a reply ends it. -/
def transcriptUpTo (c : ClientId) : Nat → Bytes → Broker → List Response × Broker
  | 0, _, b => ([], b)
  | n + 1, stream, b =>
    match Piece.first? stream with
    | none => ([], b)
    | some (piece, rest) =>
      let (reply, b) := piece.answer b c
      match reply.response? b with
      | none => ([], b)
      | some response =>
        let (responses, b) := transcriptUpTo c n rest b
        (response :: responses, b)

/-- The replies to the requests of a stream, and the broker after them. -/
def transcript (c : ClientId) (stream : Bytes) (b : Broker) : List Response × Broker :=
  transcriptUpTo c stream.length stream b

end WorkQueue
