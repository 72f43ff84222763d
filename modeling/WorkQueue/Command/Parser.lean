import WorkQueue.Command

/-!
# Reading a request line

A line is a verb and its arguments, each after a single space. The verb alone decides between the
two errors : a line whose first word is no verb is an unknown command whatever follows, and any
other line that is not a command has a bad format.
-/

namespace WorkQueue

inductive ParseError
  | badFormat
  | unknownCommand
  deriving DecidableEq, Repr

def ParseError.message : ParseError → String
  | badFormat => "bad format"
  | unknownCommand => "unknown command"

namespace Command

/-- The bytes up to the first space, and the rest from that space on. -/
def splitWord (line : Bytes) : Bytes × Bytes :=
  (line.takeWhile (· ≠ space), line.dropWhile (· ≠ space))

/-- The argument after one space. It has at least one byte. -/
def argument? : Bytes → Option (Bytes × Bytes)
  | [] => none
  | b :: rest =>
    if b = space ∧ (splitWord rest).1 ≠ [] then some (splitWord rest) else none

/-- A number argument, in decimal digits and below `2 ^ 32`. -/
def numberArgument? (line : Bytes) : Option (UInt32 × Bytes) := do
  let (word, rest) ← argument? line
  let n ← number? word
  if n < UInt32.size then some (n.toUInt32, rest) else none

/-- A tube name argument. -/
def nameArgument? (line : Bytes) : Option (TubeName × Bytes) := do
  let (word, rest) ← argument? line
  let name ← TubeName.ofBytes? word
  some (name, rest)

/-- The arguments of a verb, and the rest of the line after them. -/
def arguments? (verb : Verb) (line : Bytes) : Option (Command × Bytes) :=
  match verb with
  | .put => do
    let (pri, line) ← numberArgument? line
    let (delay, line) ← numberArgument? line
    let (ttr, line) ← numberArgument? line
    let (size, line) ← numberArgument? line
    some (put pri delay ttr size, line)
  | .reserve => some (reserve, line)
  | .reserveWithTimeout => (numberArgument? line).map fun a => (reserveWithTimeout a.1, a.2)
  | .reserveJob => (numberArgument? line).map fun a => (reserveJob a.1, a.2)
  | .release => do
    let (id, line) ← numberArgument? line
    let (pri, line) ← numberArgument? line
    let (delay, line) ← numberArgument? line
    some (release id pri delay, line)
  | .delete => (numberArgument? line).map fun a => (delete a.1, a.2)
  | .bury => do
    let (id, line) ← numberArgument? line
    let (pri, line) ← numberArgument? line
    some (bury id pri, line)
  | .touch => (numberArgument? line).map fun a => (touch a.1, a.2)
  | .watch => (nameArgument? line).map fun a => (watch a.1, a.2)
  | .ignore => (nameArgument? line).map fun a => (ignore a.1, a.2)
  | .peek => (numberArgument? line).map fun a => (peek a.1, a.2)
  | .peekReady => some (peekReady, line)
  | .peekDelayed => some (peekDelayed, line)
  | .peekBuried => some (peekBuried, line)
  | .kick => (numberArgument? line).map fun a => (kick a.1, a.2)
  | .kickJob => (numberArgument? line).map fun a => (kickJob a.1, a.2)
  | .statsJob => (numberArgument? line).map fun a => (statsJob a.1, a.2)
  | .statsTube => (nameArgument? line).map fun a => (statsTube a.1, a.2)
  | .stats => some (stats, line)
  | .listTubes => some (listTubes, line)
  | .listTubeUsed => some (listTubeUsed, line)
  | .listTubesWatched => some (listTubesWatched, line)
  | .quit => some (quit, line)
  | .pauseTube => do
    let (tube, line) ← nameArgument? line
    let (delay, line) ← numberArgument? line
    some (pauseTube tube delay, line)
  | .useTube => (nameArgument? line).map fun a => (useTube a.1, a.2)

/-- Reads a request line, without its line end. -/
def parse (line : Bytes) : Except ParseError Command :=
  let (word, rest) := splitWord line
  if word = [] then .error .badFormat
  else match Verb.ofWord? word with
    | none => .error .unknownCommand
    | some verb => match arguments? verb rest with
      | some (command, []) => .ok command
      | _ => .error .badFormat

end Command

end WorkQueue
