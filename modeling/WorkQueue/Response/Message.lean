import WorkQueue.Response

/-!
# Messages

A response on its way to the client. Every message is one line of words, and a job body or the
text of a document follows in a block of its own : its length stands last on the line, and a line
end closes it.
-/

namespace WorkQueue

open Yaml (Writer)
open Yaml.Writer (write)

variable [Writer]

inductive Message
  | notice (notice : Notice)
  | inserted (id : JobId)
  | usingTube (tube : TubeName)
  | watching (count : Nat)
  | kickedCount (count : Nat)
  | reserved (id : JobId) (body : Bytes)
  | found (id : JobId) (body : Bytes)
  | document (text : Bytes)
  deriving DecidableEq

/-- The message of a response. Documents are sent in UTF-8. -/
def Response.message : Response → Message
  | notice n => .notice n
  | inserted id => .inserted id
  | usingTube tube => .usingTube tube
  | watching count => .watching count
  | kickedCount count => .kickedCount count
  | reserved id body => .reserved id body
  | found id body => .found id body
  | jobStats stats => .document (utf8 (write (.mapping stats.entries)))
  | tubeStats stats => .document (utf8 (write (.mapping stats.entries)))
  | serverStats stats => .document (utf8 (write (.mapping stats.entries)))
  | tubes names => .document (utf8 (write (tubeDocument names)))

namespace Message

/-- The first words of the messages with more than one. -/
def insertedWord : Bytes := ascii "INSERTED"
def usingWord : Bytes := ascii "USING"
def watchingWord : Bytes := ascii "WATCHING"
def kickedWord : Bytes := ascii "KICKED"
def reservedWord : Bytes := ascii "RESERVED"
def foundWord : Bytes := ascii "FOUND"
def documentWord : Bytes := ascii "OK"

/-- The words of the line. -/
def words : Message → List Bytes
  | notice n => [ascii n.word]
  | inserted id => [insertedWord, decimal id]
  | usingTube tube => [usingWord, tube.bytes]
  | watching count => [watchingWord, decimal count]
  | kickedCount count => [kickedWord, decimal count]
  | reserved id body => [reservedWord, decimal id, decimal body.length]
  | found id body => [foundWord, decimal id, decimal body.length]
  | document text => [documentWord, decimal text.length]

/-- The block behind the line. -/
def block? : Message → Option Bytes
  | reserved _ body | found _ body => some body
  | document text => some text
  | notice _ | inserted _ | usingTube _ | watching _ | kickedCount _ => none

/-- Words with single spaces between them. -/
def joinWords : List Bytes → Bytes
  | [] => []
  | [word] => word
  | word :: rest => word ++ space :: joinWords rest

def wire (message : Message) : Bytes :=
  joinWords message.words ++ crlf ++
    match message.block? with
    | some block => block ++ crlf
    | none => []

end Message

/-- The bytes of a response. -/
def Response.wire (response : Response) : Bytes :=
  response.message.wire

end WorkQueue
