import WorkQueue.Command

/-!
# Writing a request line

The line of a command is its word and its arguments, with single spaces between them and no line
end. `line` writes numbers in decimal, and `Spells` also lets them have zeros in front.
-/

namespace WorkQueue

inductive Argument
  | number (n : UInt32)
  | tube (name : TubeName)
  deriving DecidableEq

namespace Argument

def bytes : Argument → Bytes
  | number n => decimal n.toNat
  | tube name => name.bytes

/-- The words that stand for an argument. -/
def IsSpelledBy (argument : Argument) (word : Bytes) : Prop :=
  match argument with
  | number n => ∃ zeros, word = List.replicate zeros 48 ++ decimal n.toNat
  | tube name => word = name.bytes

end Argument

namespace Command

/-- The arguments in the order they are written. -/
def arguments : Command → List Argument
  | put pri delay ttr size => [.number pri, .number delay, .number ttr, .number size]
  | reserveWithTimeout n | reserveJob n | delete n | touch n | peek n | kick n | kickJob n
  | statsJob n => [.number n]
  | release id pri delay => [.number id, .number pri, .number delay]
  | bury id pri => [.number id, .number pri]
  | watch name | ignore name | statsTube name | useTube name => [.tube name]
  | pauseTube name delay => [.tube name, .number delay]
  | reserve | peekReady | peekDelayed | peekBuried | stats | listTubes | listTubeUsed
  | listTubesWatched | quit => []

/-- A line of a word and arguments. -/
def lineOf (verb : Verb) (words : List Bytes) : Bytes :=
  ascii verb.word ++ words.flatMap (space :: ·)

/-- The request line of a command. -/
def line (command : Command) : Bytes :=
  lineOf command.verb (command.arguments.map Argument.bytes)

/-- Whether words stand for arguments, one for one. -/
def AreSpelledBy : List Argument → List Bytes → Prop
  | [], [] => True
  | a :: rest, word :: words => a.IsSpelledBy word ∧ AreSpelledBy rest words
  | _, _ => False

/-- Whether a line stands for a command. -/
def Spells (line : Bytes) (command : Command) : Prop :=
  ∃ words, AreSpelledBy command.arguments words ∧ line = lineOf command.verb words

end Command

end WorkQueue
