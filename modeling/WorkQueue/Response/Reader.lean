import WorkQueue.Response.Message
import WorkQueue.Stream.LineBuffer

/-!
# Reading messages

The client's side : it reads a line, splits it at spaces and, where the last word announces a block,
reads that many bytes and a line end. `readAll?` takes a stream of messages apart, and
`tubeNames?` the text of a tube list.
-/

namespace WorkQueue

/-- The words of a line, split at every space. -/
def splitSpaces : Bytes → List Bytes
  | [] => [[]]
  | b :: rest =>
    if b = space then [] :: splitSpaces rest
    else match splitSpaces rest with
      | word :: words => (b :: word) :: words
      | [] => [[b]]

namespace Message

def notice? (word : Bytes) : Option Notice :=
  Notice.all.find? fun n => ascii n.word == word

/-- A number of at least one digit. -/
def number? (word : Bytes) : Option Nat :=
  if word.isEmpty then none else WorkQueue.number? word

/-- A block of a length and its line end. -/
def takeBlock? (length : Nat) (bytes : Bytes) : Option (Bytes × Bytes) :=
  let rest := bytes.drop length
  if length ≤ bytes.length ∧ rest.take 2 = crlf then some (bytes.take length, rest.drop 2)
  else none

/-- The message of a line of words, with what is left of the bytes behind the line. -/
def ofWords? (words : List Bytes) (bytes : Bytes) : Option (Message × Bytes) :=
  match words with
  | [word] => (notice? word).map fun n => (notice n, bytes)
  | [word, item] =>
    if word = insertedWord then (number? item).map fun n => (inserted n, bytes)
    else if word = usingWord then (TubeName.ofBytes? item).map fun name => (usingTube name, bytes)
    else if word = watchingWord then (number? item).map fun n => (watching n, bytes)
    else if word = kickedWord then (number? item).map fun n => (kickedCount n, bytes)
    else if word = documentWord then
      ((number? item).bind fun n => takeBlock? n bytes).map fun block =>
        (document block.1, block.2)
    else none
  | [word, item, size] => do
    let id ← number? item
    let n ← number? size
    let block ← takeBlock? n bytes
    if word = reservedWord then some (reserved id block.1, block.2)
    else if word = foundWord then some (found id block.1, block.2)
    else none
  | _ => none

/-- The first message of a stream, and what is left behind it. -/
def read? (bytes : Bytes) : Option (Message × Bytes) :=
  (findCrlf? bytes).bind fun n => ofWords? (splitSpaces (bytes.take n)) (bytes.drop (n + 2))

/-- The messages of a stream, at most `n`. -/
def readUpTo? : Nat → Bytes → Option (List Message)
  | _, [] => some []
  | 0, _ :: _ => none
  | n + 1, bytes => do
    let (message, rest) ← read? bytes
    let messages ← readUpTo? n rest
    some (message :: messages)

/-- The messages of a stream, which holds nothing else. -/
def readAll? (bytes : Bytes) : Option (List Message) :=
  readUpTo? bytes.length bytes

end Message

/-! ## Tube lists -/

/-- The lines of a text in which each has its end. -/
def textLines : Bytes → List Bytes
  | [] => []
  | b :: rest =>
    if b = 10 then [] :: textLines rest
    else match textLines rest with
      | line :: lines => (b :: line) :: lines
      | [] => [[b]]

/-- A name that is written plainly or in single quotes. -/
def nameItem? (item : Bytes) : Option TubeName :=
  match item with
  | 39 :: rest => if rest.getLast? = some 39 then TubeName.ofBytes? rest.dropLast else none
  | _ => TubeName.ofBytes? item

/-- One line of a list of names. -/
def nameLine? : Bytes → Option TubeName
  | 45 :: 32 :: item => nameItem? item
  | _ => none

/-- The names that the text of a tube list holds. -/
def tubeNames? (text : Bytes) : Option (List TubeName) :=
  if text = ascii "[]\n" then some [] else (textLines text).mapM nameLine?

end WorkQueue
