import WorkQueue.Bytes

/-!
# A buffer that is read by lines

Bytes that have arrived wait in a buffer. `takeLine` takes the next line off it. A buffer knows how
far it has been searched (`searched`), so a byte is not looked at again when more bytes arrive,
except the last one, which may be the carriage return of a line end that was cut in two.

A line that has grown past `lineLimit` bytes without its end is an error. A longer line whose end
has arrived already is taken all the same.
-/

namespace WorkQueue

/-- The most bytes a line may grow to before its end arrives. -/
def lineLimit : Nat := 224

/-- The position of the first line end. -/
def findCrlf? : Bytes → Option Nat
  | 13 :: 10 :: _ => some 0
  | _ :: rest => (findCrlf? rest).map (· + 1)
  | [] => none

/-- Bytes that have arrived and not been taken. No line end is looked for before `searched`. -/
structure LineBuffer where
  bytes : Bytes := []
  searched : Nat := 0
  deriving DecidableEq, Repr

/-- What a search for a line finds. -/
inductive LineSearch
  | line (text : Bytes) (rest : LineBuffer)
  | tooLong
  | unfinished
  deriving DecidableEq, Repr

namespace LineBuffer

/-- The next line, without its end. -/
def takeLine (buffer : LineBuffer) : LineSearch :=
  match findCrlf? (buffer.bytes.drop buffer.searched) with
  | some n =>
    let size := buffer.searched + n
    .line (buffer.bytes.take size) ⟨buffer.bytes.drop (size + 2), 0⟩
  | none => if buffer.bytes.length > lineLimit then .tooLong else .unfinished

/-- Adds bytes that arrived while a line was wanted. The search goes on one byte before them. -/
def extend (buffer : LineBuffer) (arrived : Bytes) : LineBuffer :=
  ⟨buffer.bytes ++ arrived, buffer.bytes.length - 1⟩

/-- Adds bytes that arrived while a number of bytes was wanted. -/
def append (buffer : LineBuffer) (arrived : Bytes) : LineBuffer :=
  { buffer with bytes := buffer.bytes ++ arrived }

/-- Drops bytes off the front. -/
def drop (buffer : LineBuffer) (n : Nat) : LineBuffer :=
  { buffer with bytes := buffer.bytes.drop n }

/-- Starts the search anew. -/
def rewind (buffer : LineBuffer) : LineBuffer :=
  { buffer with searched := 0 }

end LineBuffer

end WorkQueue
