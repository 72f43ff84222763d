/-!
# Bytes

Requests, replies and job bodies are lists of bytes. `ascii` spells a text of characters below
128, `utf8` any text, and `decimal` a number. Reading a number back (`number?`) forgives leading
zeros and nothing else. `escape` shows bytes in a log line.
-/

namespace WorkQueue

abbrev Bytes := List UInt8

/-- The bytes of a text whose characters are all below 128. -/
def ascii (text : String) : Bytes :=
  text.toList.map fun c => c.toNat.toUInt8

/-- The bytes of a text in UTF-8. -/
def utf8 (text : List Char) : Bytes :=
  text.flatMap String.utf8EncodeChar

/-- The character of each byte, 0 to 255. -/
def latin1 (bytes : Bytes) : List Char :=
  bytes.map fun b => Char.ofNat b.toNat

def space : UInt8 := 32

/-- The end of a line. -/
def crlf : Bytes := [13, 10]

/-! ## Numbers -/

/-- A number in decimal, without leading zeros. -/
def decimal (n : Nat) : Bytes :=
  (Nat.toDigits 10 n).map fun c => c.toNat.toUInt8

/-- The value of a decimal digit. -/
def digit? (b : UInt8) : Option Nat :=
  if 48 ≤ b ∧ b ≤ 57 then some (b.toNat - 48) else none

/-- The number that digits spell, most significant first. -/
def ofDigits (digits : List Nat) : Nat :=
  digits.foldl (fun n d => 10 * n + d) 0

/-- The number a string of digits spells. The empty string spells zero. -/
def number? (bytes : Bytes) : Option Nat :=
  (bytes.mapM digit?).map ofDigits

/-! ## For a human reader -/

/-- The two lower-case hexadecimal digits of a byte. -/
def hexPair (b : UInt8) : List Char :=
  [Nat.digitChar (b.toNat / 16), Nat.digitChar (b.toNat % 16)]

/-- One byte as printable ASCII. Quotes and the backslash get a backslash, the tab and the line ends
their usual letters, and every other byte outside the printable range its hexadecimal digits. -/
def escapeByte (b : UInt8) : List Char :=
  match b with
  | 9 => ['\\', 't']
  | 10 => ['\\', 'n']
  | 13 => ['\\', 'r']
  | 34 | 39 | 92 => ['\\', Char.ofNat b.toNat]
  | _ => if 32 ≤ b ∧ b ≤ 126 then [Char.ofNat b.toNat] else '\\' :: 'x' :: hexPair b

/-- Bytes as printable ASCII. -/
def escape (bytes : Bytes) : String :=
  String.ofList (bytes.flatMap escapeByte)

end WorkQueue
