import WorkQueue.Command
import WorkQueue.Numbers

/-!
# Statistics

What a client can ask about a job, a tube and the server : records of numbers and texts, each with
its list of named entries in the order they are sent. Times are whole seconds.
-/

namespace WorkQueue

/-- The value of an entry : a number, or text. -/
inductive Yaml.Scalar
  | number (n : Nat)
  | text (chars : List Char)
  deriving DecidableEq, Repr

open Yaml (Scalar)

/-- The state of a job as clients see it. -/
inductive Phase
  | ready
  | delayed
  | reserved
  | buried
  /-- Not placed yet, or deleted. -/
  | absent
  deriving DecidableEq, Repr

def Phase.word : Phase → String
  | ready => "ready"
  | delayed => "delayed"
  | reserved => "reserved"
  | buried => "buried"
  | absent => "invalid"

def textScalar (text : String) : Scalar := .text text.toList

structure JobStats where
  id : JobId
  tube : TubeName
  phase : Phase
  pri : Nat
  age : Nat
  delay : Nat
  ttr : Nat
  timeLeft : Nat
  reserves : Nat
  timeouts : Nat
  releases : Nat
  buries : Nat
  kicks : Nat

def JobStats.entries (s : JobStats) : List (String × Scalar) :=
  [("id", .number s.id),
    ("tube", .text s.tube.chars),
    ("state", textScalar s.phase.word),
    ("pri", .number s.pri),
    ("age", .number s.age),
    ("delay", .number s.delay),
    ("ttr", .number s.ttr),
    ("time-left", .number s.timeLeft),
    ("reserves", .number s.reserves),
    ("timeouts", .number s.timeouts),
    ("releases", .number s.releases),
    ("buries", .number s.buries),
    ("kicks", .number s.kicks)]

/-- How many jobs are in each state. -/
structure JobTotals where
  urgent : Nat := 0
  ready : Nat := 0
  reserved : Nat := 0
  delayed : Nat := 0
  buried : Nat := 0
  deriving DecidableEq, Repr

namespace JobTotals

def add (a b : JobTotals) : JobTotals where
  urgent := a.urgent + b.urgent
  ready := a.ready + b.ready
  reserved := a.reserved + b.reserved
  delayed := a.delayed + b.delayed
  buried := a.buried + b.buried

def entries (t : JobTotals) : List (String × Scalar) :=
  [("current-jobs-urgent", .number t.urgent),
    ("current-jobs-ready", .number t.ready),
    ("current-jobs-reserved", .number t.reserved),
    ("current-jobs-delayed", .number t.delayed),
    ("current-jobs-buried", .number t.buried)]

end JobTotals

structure TubeStats where
  name : TubeName
  jobs : JobTotals
  totalJobs : Nat
  currentUsing : Nat
  currentWaiting : Nat
  currentWatching : Nat
  pause : Nat
  cmdDelete : Nat
  cmdPause : Nat
  pauseTimeLeft : Nat

def TubeStats.entries (s : TubeStats) : List (String × Scalar) :=
  ("name", .text s.name.chars) :: s.jobs.entries ++
    [("total-jobs", .number s.totalJobs),
      ("current-using", .number s.currentUsing),
      ("current-waiting", .number s.currentWaiting),
      ("current-watching", .number s.currentWatching),
      ("pause", .number s.pause),
      ("cmd-delete", .number s.cmdDelete),
      ("cmd-pause-tube", .number s.cmdPause),
      ("pause-time-left", .number s.pauseTimeLeft)]

/-! ## Command counts -/

/-- How often each command has been used. -/
structure CommandCounts where
  put : Nat := 0
  peek : Nat := 0
  peekReady : Nat := 0
  peekDelayed : Nat := 0
  peekBuried : Nat := 0
  reserve : Nat := 0
  reserveWithTimeout : Nat := 0
  reserveJob : Nat := 0
  touch : Nat := 0
  useTube : Nat := 0
  watch : Nat := 0
  ignore : Nat := 0
  delete : Nat := 0
  release : Nat := 0
  bury : Nat := 0
  kick : Nat := 0
  kickJob : Nat := 0
  stats : Nat := 0
  statsJob : Nat := 0
  statsTube : Nat := 0
  listTubes : Nat := 0
  listTubeUsed : Nat := 0
  listTubesWatched : Nat := 0
  pauseTube : Nat := 0
  deriving DecidableEq, Repr

/-- Counts one more use of a command. `quit` is not counted. -/
def CommandCounts.record (c : CommandCounts) : Verb → CommandCounts
  | .put => { c with put := c.put + 1 }
  | .peek => { c with peek := c.peek + 1 }
  | .peekReady => { c with peekReady := c.peekReady + 1 }
  | .peekDelayed => { c with peekDelayed := c.peekDelayed + 1 }
  | .peekBuried => { c with peekBuried := c.peekBuried + 1 }
  | .reserve => { c with reserve := c.reserve + 1 }
  | .reserveWithTimeout => { c with reserveWithTimeout := c.reserveWithTimeout + 1 }
  | .reserveJob => { c with reserveJob := c.reserveJob + 1 }
  | .touch => { c with touch := c.touch + 1 }
  | .useTube => { c with useTube := c.useTube + 1 }
  | .watch => { c with watch := c.watch + 1 }
  | .ignore => { c with ignore := c.ignore + 1 }
  | .delete => { c with delete := c.delete + 1 }
  | .release => { c with release := c.release + 1 }
  | .bury => { c with bury := c.bury + 1 }
  | .kick => { c with kick := c.kick + 1 }
  | .kickJob => { c with kickJob := c.kickJob + 1 }
  | .stats => { c with stats := c.stats + 1 }
  | .statsJob => { c with statsJob := c.statsJob + 1 }
  | .statsTube => { c with statsTube := c.statsTube + 1 }
  | .listTubes => { c with listTubes := c.listTubes + 1 }
  | .listTubeUsed => { c with listTubeUsed := c.listTubeUsed + 1 }
  | .listTubesWatched => { c with listTubesWatched := c.listTubesWatched + 1 }
  | .pauseTube => { c with pauseTube := c.pauseTube + 1 }
  | .quit => c

/-! ## The server -/

structure ServerStats where
  jobs : JobTotals := {}
  cmdPut : Nat := 0
  cmdPeek : Nat := 0
  cmdPeekReady : Nat := 0
  cmdPeekDelayed : Nat := 0
  cmdPeekBuried : Nat := 0
  cmdReserve : Nat := 0
  cmdReserveWithTimeout : Nat := 0
  cmdReserveJob : Nat := 0
  cmdTouch : Nat := 0
  cmdUseTube : Nat := 0
  cmdWatch : Nat := 0
  cmdIgnore : Nat := 0
  cmdDelete : Nat := 0
  cmdRelease : Nat := 0
  cmdBury : Nat := 0
  cmdKick : Nat := 0
  cmdKickJob : Nat := 0
  cmdStats : Nat := 0
  cmdStatsJob : Nat := 0
  cmdStatsTube : Nat := 0
  cmdListTubes : Nat := 0
  cmdListTubeUsed : Nat := 0
  cmdListTubesWatched : Nat := 0
  cmdPauseTube : Nat := 0
  jobTimeouts : Nat := 0
  totalJobs : Nat := 0
  maxJobSize : Nat := 0
  currentTubes : Nat := 0
  currentConnections : Nat := 0
  currentProducers : Nat := 0
  currentWorkers : Nat := 0
  currentWaiting : Nat := 0
  totalConnections : Nat := 0
  processId : Nat := 0
  version : String := ""
  uptime : Nat := 0

/-- Copies the command counts into the statistics of a server. -/
def CommandCounts.fill (c : CommandCounts) (s : ServerStats) : ServerStats :=
  { s with
    cmdPut := c.put
    cmdPeek := c.peek
    cmdPeekReady := c.peekReady
    cmdPeekDelayed := c.peekDelayed
    cmdPeekBuried := c.peekBuried
    cmdReserve := c.reserve
    cmdReserveWithTimeout := c.reserveWithTimeout
    cmdReserveJob := c.reserveJob
    cmdTouch := c.touch
    cmdUseTube := c.useTube
    cmdWatch := c.watch
    cmdIgnore := c.ignore
    cmdDelete := c.delete
    cmdRelease := c.release
    cmdBury := c.bury
    cmdKick := c.kick
    cmdKickJob := c.kickJob
    cmdStats := c.stats
    cmdStatsJob := c.statsJob
    cmdStatsTube := c.statsTube
    cmdListTubes := c.listTubes
    cmdListTubeUsed := c.listTubeUsed
    cmdListTubesWatched := c.listTubesWatched
    cmdPauseTube := c.pauseTube }

namespace ServerStats

/-- The command counts under the names that they are sent with. -/
def commandEntries (s : ServerStats) : List (String × Scalar) :=
  [("cmd-put", .number s.cmdPut),
    ("cmd-peek", .number s.cmdPeek),
    ("cmd-peek-ready", .number s.cmdPeekReady),
    ("cmd-peek-delayed", .number s.cmdPeekDelayed),
    ("cmd-peek-buried", .number s.cmdPeekBuried),
    ("cmd-reserve", .number s.cmdReserve),
    ("cmd-reserve-with-timeout", .number s.cmdReserveWithTimeout),
    ("cmd-reserve-job", .number s.cmdReserveJob),
    ("cmd-touch", .number s.cmdTouch),
    ("cmd-use", .number s.cmdUseTube),
    ("cmd-watch", .number s.cmdWatch),
    ("cmd-ignore", .number s.cmdIgnore),
    ("cmd-delete", .number s.cmdDelete),
    ("cmd-release", .number s.cmdRelease),
    ("cmd-bury", .number s.cmdBury),
    ("cmd-kick", .number s.cmdKick),
    ("cmd-kick-job", .number s.cmdKickJob),
    ("cmd-stats", .number s.cmdStats),
    ("cmd-stats-job", .number s.cmdStatsJob),
    ("cmd-stats-tube", .number s.cmdStatsTube),
    ("cmd-list-tubes", .number s.cmdListTubes),
    ("cmd-list-tube-used", .number s.cmdListTubeUsed),
    ("cmd-list-tubes-watched", .number s.cmdListTubesWatched),
    ("cmd-pause-tube", .number s.cmdPauseTube)]

def entries (s : ServerStats) : List (String × Scalar) :=
  s.jobs.entries ++ s.commandEntries ++
    [("job-timeouts", .number s.jobTimeouts),
      ("total-jobs", .number s.totalJobs),
      ("max-job-size", .number s.maxJobSize),
      ("current-tubes", .number s.currentTubes),
      ("current-connections", .number s.currentConnections),
      ("current-producers", .number s.currentProducers),
      ("current-workers", .number s.currentWorkers),
      ("current-waiting", .number s.currentWaiting),
      ("total-connections", .number s.totalConnections),
      ("pid", .number s.processId),
      ("version", textScalar s.version),
      ("uptime", .number s.uptime)]

end ServerStats

end WorkQueue
