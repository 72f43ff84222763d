import WorkQueue.Stream.Sequence

/-!
# A stream that is there as a whole

What is asked of a reader (`Ask`) has its answer and the bytes that are taken for it in the stream
alone, without the reads they come in by : a line ends at the first line end, a number of bytes are
the next ones. Questions that are put one after another take one piece each off the front, and
their pieces with the bytes that are left make up the stream.
-/

namespace WorkQueue

/-- What a reader is asked for, however long it may take. -/
inductive Ask
  | line
  | exact (n : Nat)
  | discard (n : Nat)
  deriving DecidableEq, Repr

namespace Call

def ask : Call → Ask
  | line _ => .line
  | exact _ n => .exact n
  | discard _ n => .discard n

def patience : Call → Patience
  | line patience | exact patience _ | discard patience _ => patience

end Call

/-- How long the next line is with its end, or else the rest that has no end. -/
def lineSize (stream : Bytes) : Nat :=
  match findCrlf? stream with
  | some n => n + 2
  | none => stream.length

namespace Ask

def answer (stream : Bytes) : Ask → Answer
  | line =>
    match findCrlf? stream with
    | some n => .done (some (stream.take n))
    | none => .ended
  | exact n => if n ≤ stream.length then .done (some (stream.take n)) else .ended
  | discard n => if n ≤ stream.length then .done none else .ended

/-- How many bytes are taken off the stream. Only bytes that are to be dropped are also taken if
there are not enough of them. -/
def size (stream : Bytes) : Ask → Nat
  | line =>
    match findCrlf? stream with
    | some n => n + 2
    | none => 0
  | exact n => if n ≤ stream.length then n else 0
  | discard n => min n stream.length

/-- The bytes are only to be dropped. -/
def drops : Ask → Bool
  | discard _ => true
  | line | exact _ => false

/-- A line that is asked for is within the limit. -/
def Fits (stream : Bytes) (ask : Ask) : Prop :=
  ask = line → lineSize stream ≤ lineLimit

instance (stream : Bytes) : DecidablePred (Fits stream) := fun ask =>
  inferInstanceAs (Decidable (ask = line → _))

end Ask

/-- The answers to questions that are put one after another. -/
def wholeAnswers : Bytes → List Ask → List Answer
  | _, [] => []
  | stream, ask :: asks => ask.answer stream :: wholeAnswers (stream.drop (ask.size stream)) asks

/-- The pieces of the stream that the questions take. -/
def wholePieces : Bytes → List Ask → List Bytes
  | _, [] => []
  | stream, ask :: asks =>
    stream.take (ask.size stream) :: wholePieces (stream.drop (ask.size stream)) asks

/-- Each question fits the stream as the questions before it leave it. -/
def AllFit : Bytes → List Ask → Prop
  | _, [] => True
  | stream, ask :: asks => ask.Fits stream ∧ AllFit (stream.drop (ask.size stream)) asks

instance decidableAllFit : ∀ stream asks, Decidable (AllFit stream asks)
  | _, [] => inferInstanceAs (Decidable True)
  | stream, ask :: asks =>
    have := decidableAllFit (stream.drop (ask.size stream)) asks
    inferInstanceAs (Decidable (_ ∧ _))

/-- Reads that bring a stream and then its end : some bytes at a time, and sometimes none yet. -/
inductive Delivers : List Read → Bytes → Prop
  | nil : Delivers [] []
  | notReady {reads : List Read} {stream : Bytes} (h : Delivers reads stream) :
      Delivers (.notReady :: reads) stream
  | cons {reads : List Read} {chunk stream : Bytes} (hne : chunk ≠ []) (h : Delivers reads stream) :
      Delivers (.bytes chunk :: reads) (chunk ++ stream)

/-- The calls that have not been given up, with their answers. -/
def completed (entries : List (Call × Answer)) : List (Call × Answer) :=
  entries.filter (·.2 ≠ .givenUp)

/-- The reads that a reader has not made, which has been new before these calls. -/
def LineBuffer.unread (reads : List Read) (calls : List Call) : List Read :=
  (runCalls call {} reads calls).2.2

end WorkQueue
