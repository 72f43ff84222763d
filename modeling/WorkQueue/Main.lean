import WorkQueue.Server
import WorkQueue.Yaml.Style

/-!
# Command line

Serves one client over the standard streams : requests come in on standard input, replies go out on
standard output. The option `--max-job-size` sets the largest job body. The clock is the machine's.
It is caught up with whenever something arrives, so an answer that fell due in a silence is sent at
the end of it.
-/

namespace WorkQueue

/-- The configuration that the arguments ask for. -/
def configOf : List String → Except String Config
  | [] => .ok {}
  | ["--max-job-size", size] =>
    match size.toNat? with
    | some n =>
      if n < UInt32.size then .ok { maxJobSize := n } else .error "the job size is too large"
    | none => .error "the job size is not a number"
  | _ => .error "usage: workqueue [--max-job-size BYTES]"

/-- Sends what a connection has sent beyond `sent` bytes. -/
def flushFrom (output : IO.FS.Stream) (server : Server) (c : ClientId) (sent : Nat) :
    IO Nat := do
  let bytes := server.sent c
  output.write ⟨(bytes.drop sent).toArray⟩
  output.flush
  return bytes.length

/-- Serves until the client hangs up or its connection is closed. -/
partial def serve (input output : IO.FS.Stream) (server : Server) (c : ClientId)
    (clock sent : Nat) : IO Unit := do
  let chunk ← input.read 4096
  let now ← IO.monoMsNow
  let server := server.run (now - clock)
  let bytes := chunk.toList
  let server := (if bytes.isEmpty then server.hangUp c else server.receive c bytes).settle
  let sent ← flushFrom output server c sent
  let isOver := (server.connections.lookup c).all (·.doing == .closed)
  if isOver || bytes.isEmpty then return
  serve input output server c now sent

end WorkQueue

open WorkQueue in
def main (arguments : List String) : IO UInt32 := do
  match configOf arguments with
  | .error message =>
    (← IO.getStderr).putStrLn message
    return 2
  | .ok config =>
    let server : Server := { broker := { config } }
    let c := server.broker.nextClient
    serve (← IO.getStdin) (← IO.getStdout) server.accept c (← IO.monoMsNow) 0
    return 0
