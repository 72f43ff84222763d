import WorkQueue.Stream.LineBuffer

/-!
# Reading from a stream

A stream is the list of the reads to come. A call (`Call`) takes a line, an exact number of bytes,
or drops a number of bytes, and reads only when the buffer does not have enough. A read that is not
ready is waited for, unless the call is to be given up there (`Patience`) : what has been buffered
then stays, but bytes already dropped are gone. After its last read a stream has ended.
-/

namespace WorkQueue

/-- What one read brings. No bytes mean the end of the stream, though a later read may go on. -/
inductive Read
  | bytes (arrived : Bytes)
  | notReady
  | failure (message : String)
  deriving DecidableEq, Repr

/-- How many bytes a read brings. -/
def Read.size : Read → Nat
  | bytes arrived => arrived.length
  | notReady | failure _ => 0

/-- What a call comes to. -/
inductive CallResult (α : Type)
  | done (result : α)
  | ended
  | lineTooLong
  | failure (message : String)
  | givenUp
  deriving DecidableEq, Repr

/-- What a call does at a read that is not ready. -/
inductive Patience
  | waits
  | givesUp
  deriving DecidableEq, Repr

namespace LineBuffer

/-- Takes the next line off the buffer, reading as often as it takes. -/
def readLine (patience : Patience) (buffer : LineBuffer) (reads : List Read) :
    CallResult Bytes × LineBuffer × List Read :=
  match buffer.takeLine with
  | .line text rest => (.done text, rest, reads)
  | .tooLong => (.lineTooLong, buffer, reads)
  | .unfinished =>
    match reads with
    | [] => (.ended, buffer.extend [], [])
    | .bytes [] :: reads => (.ended, buffer.extend [], reads)
    | .bytes arrived :: reads => (buffer.extend arrived).readLine patience reads
    | .failure message :: reads => (.failure message, buffer.extend [], reads)
    | .notReady :: reads =>
      match patience with
      | .waits => buffer.readLine patience reads
      | .givesUp => (.givenUp, buffer, reads)
termination_by structural reads

/-- Takes `n` bytes off the buffer, reading as often as it takes. -/
def readExact (patience : Patience) (n : Nat) (buffer : LineBuffer) (reads : List Read) :
    CallResult Bytes × LineBuffer × List Read :=
  if n ≤ buffer.bytes.length then
    (.done (buffer.bytes.take n), (buffer.drop n).rewind, reads)
  else
    match reads with
    | [] => (.ended, buffer, [])
    | .bytes [] :: reads => (.ended, buffer, reads)
    | .bytes arrived :: reads => (buffer.append arrived).readExact patience n reads
    | .failure message :: reads => (.failure message, buffer, reads)
    | .notReady :: reads =>
      match patience with
      | .waits => buffer.readExact patience n reads
      | .givesUp => (.givenUp, buffer, reads)
termination_by structural reads

/-- Drops the next `n` bytes without buffering them all. A call that does not get so far has
dropped what there was. -/
def discard (patience : Patience) (n : Nat) (buffer : LineBuffer) (reads : List Read) :
    CallResult Unit × LineBuffer × List Read :=
  if n ≤ buffer.bytes.length then
    (.done (), (buffer.drop n).rewind, reads)
  else
    let left := n - buffer.bytes.length
    let buffer := buffer.drop n
    match reads with
    | [] => (.ended, buffer, [])
    | .bytes [] :: reads => (.ended, buffer, reads)
    | .bytes arrived :: reads => (buffer.append arrived).discard patience left reads
    | .failure message :: reads => (.failure message, buffer, reads)
    | .notReady :: reads =>
      match patience with
      | .waits => buffer.discard patience left reads
      | .givesUp => (.givenUp, buffer, reads)
termination_by structural reads

end LineBuffer

end WorkQueue
