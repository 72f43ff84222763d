import WorkQueue.TubeName

/-!
# Commands

A request line is a verb and its arguments. `Verb` lists the verbs with the words that spell
them, and `Command` pairs each with its arguments.
-/

namespace WorkQueue

inductive Verb
  | put
  | reserve
  | reserveWithTimeout
  | reserveJob
  | release
  | delete
  | bury
  | touch
  | watch
  | ignore
  | peek
  | peekReady
  | peekDelayed
  | peekBuried
  | kick
  | kickJob
  | statsJob
  | statsTube
  | stats
  | listTubes
  | listTubeUsed
  | listTubesWatched
  | quit
  | pauseTube
  | useTube
  deriving DecidableEq, Repr

namespace Verb

def all : List Verb :=
  [.put, .reserve, .reserveWithTimeout, .reserveJob, .release, .delete, .bury, .touch, .watch,
    .ignore, .peek, .peekReady, .peekDelayed, .peekBuried, .kick, .kickJob, .statsJob, .statsTube,
    .stats, .listTubes, .listTubeUsed, .listTubesWatched, .quit, .pauseTube, .useTube]

/-- The word that a request line starts with. -/
def word : Verb → String
  | put => "put"
  | reserve => "reserve"
  | reserveWithTimeout => "reserve-with-timeout"
  | reserveJob => "reserve-job"
  | release => "release"
  | delete => "delete"
  | bury => "bury"
  | touch => "touch"
  | watch => "watch"
  | ignore => "ignore"
  | peek => "peek"
  | peekReady => "peek-ready"
  | peekDelayed => "peek-delayed"
  | peekBuried => "peek-buried"
  | kick => "kick"
  | kickJob => "kick-job"
  | statsJob => "stats-job"
  | statsTube => "stats-tube"
  | stats => "stats"
  | listTubes => "list-tubes"
  | listTubeUsed => "list-tube-used"
  | listTubesWatched => "list-tubes-watched"
  | quit => "quit"
  | pauseTube => "pause-tube"
  | useTube => "use"

def ofWord? (bytes : Bytes) : Option Verb :=
  all.find? fun v => ascii v.word == bytes

end Verb

/-- A request. Numbers are below `2 ^ 32`, delays and timeouts in seconds. -/
inductive Command
  /-- A job of `size` bytes, which follow the line, for the tube in use. -/
  | put (pri delay ttr size : UInt32)
  /-- A job of any watched tube, whenever there is one. -/
  | reserve
  | reserveWithTimeout (timeout : UInt32)
  | reserveJob (id : UInt32)
  | release (id pri delay : UInt32)
  | delete (id : UInt32)
  | bury (id pri : UInt32)
  | touch (id : UInt32)
  | watch (tube : TubeName)
  | ignore (tube : TubeName)
  | peek (id : UInt32)
  | peekReady
  | peekDelayed
  | peekBuried
  /-- Up to `bound` jobs of the tube in use back to ready. -/
  | kick (bound : UInt32)
  | kickJob (id : UInt32)
  | statsJob (id : UInt32)
  | statsTube (tube : TubeName)
  | stats
  | listTubes
  | listTubeUsed
  | listTubesWatched
  | quit
  | pauseTube (tube : TubeName) (delay : UInt32)
  | useTube (tube : TubeName)
  deriving DecidableEq

def Command.verb : Command → Verb
  | put .. => .put
  | reserve => .reserve
  | reserveWithTimeout _ => .reserveWithTimeout
  | reserveJob _ => .reserveJob
  | release .. => .release
  | delete _ => .delete
  | bury .. => .bury
  | touch _ => .touch
  | watch _ => .watch
  | ignore _ => .ignore
  | peek _ => .peek
  | peekReady => .peekReady
  | peekDelayed => .peekDelayed
  | peekBuried => .peekBuried
  | kick _ => .kick
  | kickJob _ => .kickJob
  | statsJob _ => .statsJob
  | statsTube _ => .statsTube
  | stats => .stats
  | listTubes => .listTubes
  | listTubeUsed => .listTubeUsed
  | listTubesWatched => .listTubesWatched
  | quit => .quit
  | pauseTube .. => .pauseTube
  | useTube _ => .useTube

end WorkQueue
