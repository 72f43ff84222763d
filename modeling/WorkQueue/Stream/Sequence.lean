import WorkQueue.Stream.Plain

/-!
# Calls one after another

A reader is called any number of times. Each call is carried out on what the one before has left of
the buffer and of the stream (`runCalls`), also when that one has been given up or has failed.
-/

namespace WorkQueue

/-- What can be asked of a reader. -/
inductive Call
  | line (patience : Patience)
  | exact (patience : Patience) (n : Nat)
  | discard (patience : Patience) (n : Nat)
  deriving DecidableEq, Repr

/-- What a call answers. A call that drops bytes has none to give. -/
abbrev Answer := CallResult (Option Bytes)

namespace CallResult

def map {α β : Type} (f : α → β) : CallResult α → CallResult β
  | done result => done (f result)
  | ended => ended
  | lineTooLong => lineTooLong
  | failure message => failure message
  | givenUp => givenUp

/-- The call got what it was made for. -/
def isDone {α : Type} : CallResult α → Bool
  | done _ => true
  | _ => false

end CallResult

def LineBuffer.call (buffer : LineBuffer) (reads : List Read) :
    Call → Answer × LineBuffer × List Read
  | .line patience => (buffer.readLine patience reads).map (·.map some) id
  | .exact patience n => (buffer.readExact patience n reads).map (·.map some) id
  | .discard patience n => (buffer.discard patience n reads).map (·.map fun _ => none) id

def PlainBuffer.call (buffer : Bytes) (reads : List Read) : Call → Answer × Bytes × List Read
  | .line patience => (readLine patience buffer reads).map (·.map some) id
  | .exact patience n => (readExact patience n buffer reads).map (·.map some) id
  | .discard patience n => (discard patience n buffer reads).map (·.map fun _ => none) id

/-- What the calls answer, and what they leave in the end. -/
def runCalls {β : Type} (call : β → List Read → Call → Answer × β × List Read) :
    β → List Read → List Call → List Answer × β × List Read
  | buffer, reads, [] => ([], buffer, reads)
  | buffer, reads, c :: calls =>
    let (answer, buffer, reads) := call buffer reads c
    let (answers, left) := runCalls call buffer reads calls
    (answer :: answers, left)

/-- The answers of a new reader. -/
def LineBuffer.answers (reads : List Read) (calls : List Call) : List Answer :=
  (runCalls call {} reads calls).1

/-- The buffer of a reader that has been new before these calls. -/
def LineBuffer.after (reads : List Read) (calls : List Call) : LineBuffer :=
  (runCalls call {} reads calls).2.1

/-- The answers of a new reader that has no search mark. -/
def PlainBuffer.answers (reads : List Read) (calls : List Call) : List Answer :=
  (runCalls call [] reads calls).1

end WorkQueue
