import WorkQueue.Stream.Calls

/-!
# Reading without a search mark

The calls on a stream again, for a buffer that is nothing but bytes : each search for a line starts
from the first of them. What a `LineBuffer` answers is measured by it.
-/

namespace WorkQueue

namespace PlainBuffer

def readLine (patience : Patience) (buffer : Bytes) (reads : List Read) :
    CallResult Bytes × Bytes × List Read :=
  match findCrlf? buffer with
  | some n => (.done (buffer.take n), buffer.drop (n + 2), reads)
  | none =>
    if buffer.length > lineLimit then (.lineTooLong, buffer, reads)
    else
      match reads with
      | [] => (.ended, buffer, [])
      | .bytes [] :: reads => (.ended, buffer, reads)
      | .bytes arrived :: reads => readLine patience (buffer ++ arrived) reads
      | .failure message :: reads => (.failure message, buffer, reads)
      | .notReady :: reads =>
        match patience with
        | .waits => readLine patience buffer reads
        | .givesUp => (.givenUp, buffer, reads)
termination_by structural reads

def readExact (patience : Patience) (n : Nat) (buffer : Bytes) (reads : List Read) :
    CallResult Bytes × Bytes × List Read :=
  if n ≤ buffer.length then (.done (buffer.take n), buffer.drop n, reads)
  else
    match reads with
    | [] => (.ended, buffer, [])
    | .bytes [] :: reads => (.ended, buffer, reads)
    | .bytes arrived :: reads => readExact patience n (buffer ++ arrived) reads
    | .failure message :: reads => (.failure message, buffer, reads)
    | .notReady :: reads =>
      match patience with
      | .waits => readExact patience n buffer reads
      | .givesUp => (.givenUp, buffer, reads)
termination_by structural reads

def discard (patience : Patience) (n : Nat) (buffer : Bytes) (reads : List Read) :
    CallResult Unit × Bytes × List Read :=
  if n ≤ buffer.length then (.done (), buffer.drop n, reads)
  else
    match reads with
    | [] => (.ended, [], [])
    | .bytes [] :: reads => (.ended, [], reads)
    | .bytes arrived :: reads => discard patience (n - buffer.length) arrived reads
    | .failure message :: reads => (.failure message, [], reads)
    | .notReady :: reads =>
      match patience with
      | .waits => discard patience (n - buffer.length) [] reads
      | .givesUp => (.givenUp, [], reads)
termination_by structural reads

end PlainBuffer

end WorkQueue
