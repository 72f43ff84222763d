import WorkQueue.Bytes

/-!
# What a plain word means

A YAML reader takes some plain words for something other than text : nothing, a truth value, a
number. Such a word has to be quoted to stay text (`needsQuotes`). A decimal number counts only if
it is finite as a double, so `1e400` is a word. Digits after a leading zero are no number, but are
quoted with the numbers.
-/

namespace WorkQueue.Yaml

def isNullWord (word : List Char) : Bool :=
  word.isEmpty || ["null", "Null", "NULL", "~"].any (·.toList == word)

def isBoolWord (word : List Char) : Bool :=
  ["true", "True", "TRUE", "false", "False", "FALSE"].any (·.toList == word)

/-! ## Integers with a radix mark -/

/-- The value of a digit, letters of either case standing for ten and more. -/
def digitValue? (radix : Nat) (c : Char) : Option Nat :=
  let value :=
    if '0' ≤ c ∧ c ≤ '9' then c.toNat - 48
    else if 'a' ≤ c ∧ c ≤ 'z' then c.toNat - 87
    else if 'A' ≤ c ∧ c ≤ 'Z' then c.toNat - 55
    else radix
  if value < radix then some value else none

/-- The number that digits of a radix spell, at least one. -/
def ofRadix? (radix : Nat) (digits : List Char) : Option Nat :=
  if digits.isEmpty then none
  else (digits.mapM (digitValue? radix)).map (·.foldl (fun n d => radix * n + d) 0)

/-- A word of a radix mark (`0x`, `0o`, `0b`) and digits, with its value. -/
def marked? (word : List Char) : Option Nat :=
  match word with
  | '0' :: 'x' :: digits => ofRadix? 16 digits
  | '0' :: 'o' :: digits => ofRadix? 8 digits
  | '0' :: 'b' :: digits => ofRadix? 2 digits
  | _ => none

/-- A marked integer of at most 128 bits, signed if it is negative. -/
def isMarkedInteger (word : List Char) : Bool :=
  match word with
  | '-' :: word => (marked? word).any (· ≤ Nat.pow 2 127)
  | '+' :: word => (marked? word).any (· < Nat.pow 2 128)
  | word => (marked? word).any (· < Nat.pow 2 128)

/-! ## Decimal numbers -/

def dropSign : List Char → List Char
  | '+' :: word => word
  | '-' :: word => word
  | word => word

/-- Digits behind a leading zero. -/
def isZeroLed (word : List Char) : Bool :=
  match dropSign word with
  | '0' :: rest => !rest.isEmpty && rest.all Char.isDigit
  | _ => false

/-- The number that decimal digits spell. -/
def ofDecimal (digits : List Char) : Nat :=
  ofDigits (digits.map fun c => c.toNat - 48)

/-- The exponent at the end of a decimal number. None is zero. -/
def exponent? (word : List Char) : Option Int :=
  match word with
  | [] => some 0
  | mark :: word =>
    let digits := dropSign word
    if (mark == 'e' || mark == 'E') && !digits.isEmpty && digits.all Char.isDigit then
      some (if word.head? = some '-' then -(ofDecimal digits : Int) else ofDecimal digits)
    else none

/-- The least number too large to round to a finite double. -/
def doubleLimit : Nat := Nat.pow 2 1024 - Nat.pow 2 970

/-- Whether `digits`, times ten to the `exponent`, is below `doubleLimit`. -/
def isFinite (digits : List Char) (exponent : Int) : Bool :=
  let n := ofDecimal digits
  match exponent with
  | .ofNat e => n == 0 || (e ≤ 310 && n * Nat.pow 10 e < doubleLimit)
  | .negSucc e => digits.length ≤ e || n < doubleLimit * Nat.pow 10 (e + 1)

/-- A finite decimal number : digits with a point somewhere, or none, and maybe an exponent. -/
def isDecimalNumber (word : List Char) : Bool :=
  let word := dropSign word
  let whole := word.takeWhile Char.isDigit
  let (fraction, rest) :=
    match word.dropWhile Char.isDigit with
    | '.' :: rest => (rest.takeWhile Char.isDigit, rest.dropWhile Char.isDigit)
    | rest => ([], rest)
  match exponent? rest with
  | some e =>
    !(whole ++ fraction).isEmpty && isFinite (whole ++ fraction) (e - fraction.length)
  | none => false

/-- The words for infinity and for no number. -/
def isSpecialNumber (word : List Char) : Bool :=
  [".inf", ".Inf", ".INF", "+.inf", "+.Inf", "+.INF", "-.inf", "-.Inf", "-.INF",
    ".nan", ".NaN", ".NAN"].any (·.toList == word)

/-- Whether a plain word would not be read as text, or would look like a number. -/
def needsQuotes (word : List Char) : Bool :=
  isNullWord word || isBoolWord word || isMarkedInteger word || isZeroLed word ||
    isDecimalNumber word || isSpecialNumber word

end WorkQueue.Yaml
