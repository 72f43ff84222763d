import WorkQueue.Response
import WorkQueue.Yaml.Meaning

/-!
# The writer

The writer of the program. A text is written plainly where it can be. A text that would mean
something else, or that an indicator or a blank keeps from standing plainly, is put in single
quotes, and one that single quotes cannot hold in double quotes with escapes. A text with a newline
is a literal block.
-/

namespace WorkQueue.Yaml

inductive Style
  | plain
  | singleQuoted
  | doubleQuoted
  | literal
  deriving DecidableEq, Repr

/-! ## Characters -/

def isBreak (c : Char) : Bool :=
  c.toNat == 0x0A || c.toNat == 0x0D || c.toNat == 0x85 || c.toNat == 0x2028 || c.toNat == 0x2029

/-- A blank, a break or the end of a text. -/
def isGap : Option Char → Bool
  | none => true
  | some c => c == ' ' || c == '\t' || c.toNat == 0 || isBreak c

/-- The characters that need no escape. -/
def isPrintable (c : Char) : Bool :=
  let n := c.toNat
  n == 0x0A || (0x20 ≤ n && n ≤ 0x7E) || (0xA0 ≤ n && n ≤ 0xFFFD && n != 0xFEFF)

/-- The characters that no plain text starts with. -/
def isIndicator (c : Char) : Bool :=
  "#,[]\x7b\x7d&*!|>'\"%@\x60".toList.contains c

/-! ## Choice of a style -/

/-- Whether `p` holds of two neighbours. -/
def anyPair (p : Char → Char → Bool) : List Char → Bool
  | a :: b :: rest => p a b || anyPair p (b :: rest)
  | _ => false

/-- A space behind a break. -/
def hasBreakSpace (text : List Char) : Bool :=
  anyPair (fun a b => isBreak a && b == ' ') text

/-- A break behind a space. -/
def hasSpaceBreak (text : List Char) : Bool :=
  anyPair (fun a b => a == ' ' && isBreak b) text

/-- A colon before a gap, or a number sign behind one. -/
def hasInnerMark : List Char → Bool
  | a :: b :: rest =>
    (b == ':' && isGap rest.head?) || (b == '#' && isGap (some a)) || hasInnerMark (b :: rest)
  | _ => false

/-- Whether an indicator keeps a text from standing plainly. -/
def hasIndicator (text : List Char) : Bool :=
  match text with
  | [] => false
  | c :: rest =>
    "---".toList.isPrefixOf text || "...".toList.isPrefixOf text || isIndicator c ||
      ((c == '?' || c == ':' || c == '-') && isGap rest.head?) || hasInnerMark text

/-- Whether a text may stand plainly as far as its characters go. -/
def isPlain (text : List Char) : Bool :=
  text.all (fun c => isPrintable c && !isBreak c) && text.head? != some ' ' &&
    text.getLast? != some ' ' && !hasIndicator text

def isSingleQuotable (text : List Char) : Bool :=
  text.all isPrintable && !hasBreakSpace text && !hasSpaceBreak text

def isLiteral (text : List Char) : Bool :=
  text.all isPrintable && !hasSpaceBreak text && text.getLast? != some ' '

/-- The style of a text. -/
def style (text : List Char) : Style :=
  if text.contains '\n' then
    if isLiteral text then .literal else .doubleQuoted
  else if !needsQuotes text && isPlain text then .plain
  else if isSingleQuotable text then .singleQuoted
  else .doubleQuoted

/-! ## Writing -/

/-- The indentation of a text that goes over several lines. -/
def indentation : List Char := [' ', ' ']

/-- Lines of a text behind the first, indented. `fresh` tells that a line has just begun. -/
def indented (fresh : Bool) : List Char → List Char
  | [] => []
  | c :: rest =>
    if isBreak c then c :: indented true rest
    else (if fresh then indentation else []) ++ c :: indented false rest

/-- Single quotes around a text, with its own doubled. -/
def singleQuoted (text : List Char) : List Char :=
  let doubled := text.flatMap fun c => if c == '\'' then [c, c] else [c]
  let tail := if (text.getLast?.map isBreak).getD false then indentation else []
  ['\''] ++ indented false doubled ++ tail ++ ['\'']

/-- The upper-case hexadecimal digits of a number, to a width. -/
def hexDigits (width n : Nat) : List Char :=
  let digits := (Nat.toDigits 16 n).map Char.toUpper
  List.replicate (width - digits.length) '0' ++ digits

/-- The escape of a character, without its backslash. -/
def escapeMark (c : Char) : List Char :=
  match c.toNat with
  | 0x00 => ['0']
  | 0x07 => ['a']
  | 0x08 => ['b']
  | 0x09 => ['t']
  | 0x0A => ['n']
  | 0x0B => ['v']
  | 0x0C => ['f']
  | 0x0D => ['r']
  | 0x1B => ['e']
  | 0x22 => ['"']
  | 0x5C => ['\\']
  | 0x85 => ['N']
  | 0xA0 => ['_']
  | 0x2028 => ['L']
  | 0x2029 => ['P']
  | n =>
    if n ≤ 0xFF then 'x' :: hexDigits 2 n
    else if n ≤ 0xFFFF then 'u' :: hexDigits 4 n
    else 'U' :: hexDigits 8 n

/-- Double quotes around a text, with escapes. -/
def doubleQuoted (text : List Char) : List Char :=
  let escaped := text.flatMap fun c =>
    if !isPrintable c || isBreak c || c == '"' || c == '\\' then '\\' :: escapeMark c else [c]
  ['"'] ++ escaped ++ ['"']

/-- The marks of a literal block : its indentation if the text starts with a blank, and how its
last break is to be read. -/
def literalMarks (text : List Char) : List Char :=
  let start := match text.head? with
    | some c => if c == ' ' || isBreak c then ['2'] else []
    | none => []
  let chomp := match text.reverse with
    | c :: d :: _ => if !isBreak c then ['-'] else if isBreak d then ['+'] else []
    | [c] => if isBreak c then ['+'] else ['-']
    | [] => ['-']
  start ++ chomp

def literal (text : List Char) : List Char :=
  ['|'] ++ literalMarks text ++ ['\n'] ++ indented true text

namespace Scalar

def render : Scalar → List Char
  | number n => Nat.toDigits 10 n
  | text chars =>
    match style chars with
    | .plain => chars
    | .singleQuoted => singleQuoted chars
    | .doubleQuoted => doubleQuoted chars
    | .literal => literal chars

/-- The scalar and the end of its line, unless a literal block has ended it. -/
def line (scalar : Scalar) : List Char :=
  let written := scalar.render
  if (written.getLast?.map isBreak).getD false then written else written ++ ['\n']

end Scalar

namespace Document

def entryLine (entry : String × Scalar) : List Char :=
  entry.1.toList ++ [':', ' '] ++ entry.2.line

def itemLine (item : List Char) : List Char :=
  ['-', ' '] ++ (Scalar.text item).line

/-- The text of a document. An empty list is written in brackets. -/
def render : Document → List Char
  | mapping entries => entries.flatMap entryLine
  | sequence [] => ['[', ']', '\n']
  | sequence items => items.flatMap itemLine

end Document

instance : Writer := ⟨Document.render⟩

end WorkQueue.Yaml
