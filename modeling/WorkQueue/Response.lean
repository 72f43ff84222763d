import WorkQueue.Stats

/-!
# Responses

What the server has to tell a client : a notice of one word, a number or a name, a job, or a
document of statistics or tube names.
-/

namespace WorkQueue

/-! ## Documents -/

/-- A mapping of keys to scalars, or a list of texts. -/
inductive Yaml.Document
  | mapping (entries : List (String × Yaml.Scalar))
  | sequence (items : List (List Char))
  deriving DecidableEq, Repr

/-- Whatever writes documents. How it writes them makes no difference to the server. -/
class Yaml.Writer where
  write : Yaml.Document → List Char

open Yaml (Document)

/-! ## Responses -/

/-- The responses that tell nothing but which they are. -/
inductive Notice
  | internalError
  | badFormat
  | unknownCommand
  | expectedCrlf
  | jobTooBig
  | deadlineSoon
  | timedOut
  | notFound
  | deleted
  | released
  | buried
  | touched
  | notIgnored
  | kicked
  | paused
  deriving DecidableEq, Repr

namespace Notice

def all : List Notice :=
  [.internalError, .badFormat, .unknownCommand, .expectedCrlf, .jobTooBig, .deadlineSoon,
    .timedOut, .notFound, .deleted, .released, .buried, .touched, .notIgnored, .kicked, .paused]

def word : Notice → String
  | internalError => "INTERNAL_ERROR"
  | badFormat => "BAD_FORMAT"
  | unknownCommand => "UNKNOWN_COMMAND"
  | expectedCrlf => "EXPECTED_CRLF"
  | jobTooBig => "JOB_TOO_BIG"
  | deadlineSoon => "DEADLINE_SOON"
  | timedOut => "TIMED_OUT"
  | notFound => "NOT_FOUND"
  | deleted => "DELETED"
  | released => "RELEASED"
  | buried => "BURIED"
  | touched => "TOUCHED"
  | notIgnored => "NOT_IGNORED"
  | kicked => "KICKED"
  | paused => "PAUSED"

end Notice

inductive Response
  | notice (notice : Notice)
  | inserted (id : JobId)
  | usingTube (tube : TubeName)
  | watching (count : Nat)
  | kickedCount (count : Nat)
  | reserved (id : JobId) (body : Bytes)
  | found (id : JobId) (body : Bytes)
  | jobStats (stats : JobStats)
  | tubeStats (stats : TubeStats)
  | serverStats (stats : ServerStats)
  | tubes (names : List TubeName)

/-- The list of tube names as a document. -/
def tubeDocument (names : List TubeName) : Document :=
  .sequence (names.map TubeName.chars)

/-- The document that a response brings. -/
def Response.document? : Response → Option Document
  | jobStats stats => some (.mapping stats.entries)
  | tubeStats stats => some (.mapping stats.entries)
  | serverStats stats => some (.mapping stats.entries)
  | tubes names => some (tubeDocument names)
  | notice _ | inserted _ | usingTube _ | watching _ | kickedCount _ => none
  | reserved .. | found .. => none

end WorkQueue
