import Criteria.Datum

/-!
# Writing YAML

Data trees in block style with two blanks of indentation. The arrays of an object stand at the
level of its keys; an array or object within an array begins on the line of the dash. A key that is
long or has several lines is marked with a question mark, and its value with a colon, each on a
line of its own.
-/

namespace Criteria.Yaml

open Criteria.Text

/-! ## Plain scalars

What an unquoted scalar would be taken for if it were read back: nothing, a truth value, an
integer, a floating-point number, or a text. `isPlainText` says whether a text written without
quotes stays a text. -/

def isNull (s : String) : Bool := ["", "~", "null", "Null", "NULL"].contains s

def isBoolean (s : String) : Bool :=
  ["true", "True", "TRUE", "false", "False", "FALSE"].contains s

/-- A text without a leading sign. -/
def unsigned : List Char → List Char
  | '+' :: rest => rest
  | '-' :: rest => rest
  | s => s

/-- Digits after a leading zero, which no number has. -/
def isZeroLed (s : List Char) : Bool :=
  match unsigned s with
  | '0' :: rest => !rest.isEmpty && rest.all Char.isDigit
  | _ => false

/-- What a digit of up to sixteen counts. -/
def digitOf? (c : Char) : Option Nat :=
  if c.isDigit then some (c.toNat - 48)
  else if 'a' ≤ c && c ≤ 'f' then some (c.toNat - 87)
  else if 'A' ≤ c && c ≤ 'F' then some (c.toNat - 55)
  else none

/-- The number that digits in a base denote; there has to be one at least. -/
def readBase? (base : Nat) (s : List Char) : Option Nat :=
  if s.isEmpty then none else
    s.foldlM (fun n c =>
      (digitOf? c).bind fun d => if d < base then some (base * n + d) else none) 0

/-- The number after the mark of a base, without a sign. -/
def readMarked? : List Char → Option Nat
  | '0' :: 'x' :: s => readBase? 16 s
  | '0' :: 'o' :: s => readBase? 8 s
  | '0' :: 'b' :: s => readBase? 2 s
  | _ => none

/-- An integer with the mark of a base, of at most 128 bits. -/
def isMarkedInteger (s : List Char) : Bool :=
  match s with
  | '-' :: rest => (readMarked? rest).any (· ≤ Nat.pow 2 127)
  | '+' :: rest => (readMarked? rest).any (· < Nat.pow 2 128)
  | _ => (readMarked? s).any (· < Nat.pow 2 128)

/-- A finite decimal number, or one of the names of infinity and of what is no number. -/
def isFloat (s : String) : Bool :=
  [".inf", ".Inf", ".INF", "+.inf", "+.Inf", "+.INF", "-.inf", "-.Inf", "-.INF",
    ".nan", ".NaN", ".NAN"].contains s ||
    (Scientific.readBinary64? s.toList).any Binary64.isFinite

/-- A text that stays a text when it is written without quotes and read back. -/
def isPlainText (s : String) : Bool :=
  !(isNull s || isBoolean s || isMarkedInteger s.toList || isZeroLed s.toList || isFloat s)

/-! ## Styles of scalars

How a text is written: plain, in single quotes, in double quotes, or as a literal block. A text
with a line feed becomes a block and any other stays plain where it can; what the style cannot
express moves it on to single and then to double quotes, which can express everything. -/

/-- The characters that end a line. -/
def isBreak (c : Char) : Bool :=
  c == '\n' || c == '\r' || c == '\u0085' || c == '\u2028' || c == '\u2029'

/-- The characters that may stand unescaped. -/
def isPrintable (c : Char) : Bool :=
  let n := c.toNat
  n == 0x0A || (0x20 ≤ n && n ≤ 0x7E) || (0xA0 ≤ n && n ≤ 0xD7FF) ||
    (0xE000 ≤ n && n ≤ 0xFFFD && n != 0xFEFF) || 0x10000 ≤ n

/-- The characters that set words apart, the character zero among them. -/
def isGap (c : Char) : Bool := c == ' ' || c == '\t' || c == '\x00' || isBreak c

/-- Some two neighbours in a text stand in a relation. -/
def hasNeighbours (r : Char → Char → Bool) : List Char → Bool
  | c :: d :: rest => r c d || hasNeighbours r (d :: rest)
  | _ => false

/-- The characters that have a meaning of their own at the start of a plain scalar. -/
def leadingIndicators : List Char := "#,[]{}&*!|>'\"%@`".toList

/-- A text that would be taken for structure if it were written without quotes. -/
def hasIndicators (s : List Char) : Bool :=
  ['-', '-', '-'].isPrefixOf s || ['.', '.', '.'].isPrefixOf s ||
    (match s with
      | [] => false
      | c :: rest => leadingIndicators.contains c ||
        ((c == '?' || c == '-') && (rest.head?.map isGap).getD true)) ||
    hasNeighbours (fun c d => c == ':' && isGap d) s || s.getLast? == some ':' ||
    hasNeighbours (fun c d => isGap c && d == '#') s

/-- The ways to write a text. -/
inductive Style where
  | plain
  | single
  | double
  | block
deriving Repr, DecidableEq

/-- A blank before the end of a line, or a character that has to be escaped. -/
def needsEscapes (s : List Char) : Bool :=
  hasNeighbours (fun c d => c == ' ' && isBreak d) s || !s.all isPrintable

/-- A blank at the start of a line other than the first. -/
def hasIndentedLine (s : List Char) : Bool := hasNeighbours (fun c d => isBreak c && d == ' ') s

/-- A blank or the end of a line at either end of a text. -/
def hasOuterBlank (s : List Char) : Bool :=
  let outer (c : Char) : Bool := c == ' ' || isBreak c
  (s.head?.map outer).getD false || (s.getLast?.map outer).getD false

def Style.allows (s : List Char) : Style → Bool
  | .plain => !(needsEscapes s || hasIndentedLine s || hasOuterBlank s || s.any isBreak ||
      hasIndicators s)
  | .single => !(needsEscapes s || hasIndentedLine s)
  | .block => !(s.isEmpty || needsEscapes s || s.getLast? == some ' ')
  | .double => true

/-- The style in which a text is written. -/
def styleOf (s : String) : Style :=
  let cs := s.toList
  if cs.contains '\n' then (if Style.block.allows cs then .block else .double)
  else if isPlainText s && Style.plain.allows cs then .plain
  else if Style.single.allows cs then .single
  else .double

/-- Hexadecimal digits in capitals, a fixed count of them. -/
def hexDigits : Nat → Nat → List Char
  | 0, _ => []
  | width + 1, n =>
    hexDigits width (n / 16) ++ [Char.ofNat (if n % 16 < 10 then 48 + n % 16 else 55 + n % 16)]

/-- A character in double quotes. -/
def escape (c : Char) : List Char :=
  let n := c.toNat
  if isPrintable c && !isBreak c && c != '"' && c != '\\' then [c]
  else '\\' ::
    if n = 0x00 then ['0'] else if n = 0x07 then ['a'] else if n = 0x08 then ['b']
    else if n = 0x09 then ['t'] else if n = 0x0A then ['n'] else if n = 0x0B then ['v']
    else if n = 0x0C then ['f'] else if n = 0x0D then ['r'] else if n = 0x1B then ['e']
    else if n = 0x22 then ['"'] else if n = 0x5C then ['\\'] else if n = 0x85 then ['N']
    else if n = 0x2028 then ['L'] else if n = 0x2029 then ['P']
    else if n ≤ 0xFF then 'x' :: hexDigits 2 n
    else if n ≤ 0xFFFF then 'u' :: hexDigits 4 n
    else 'U' :: hexDigits 8 n

/-- The lines of a text behind those written, which are given backwards: the first character of
each line that is not empty comes after `indent` blanks. `fresh` says that a line has just
begun. -/
def indentLines (indent : Nat) (double : Char → List Char) (written : List Char) (fresh : Bool) :
    List Char → List Char × Bool
  | [] => (written, fresh)
  | c :: rest =>
    if isBreak c then indentLines indent double (c :: written) true rest
    else
      let written := if fresh then List.replicate indent ' ' ++ written else written
      indentLines indent double ((double c).reverse ++ written) false rest

/-- A text in single quotes: a quote is doubled, and lines after the first are indented. -/
def singleQuoted (indent : Nat) (s : List Char) : List Char :=
  let (written, fresh) :=
    indentLines indent (fun c => if c = '\'' then ['\'', '\''] else [c]) ['\''] false s
  let written := if fresh then List.replicate indent ' ' ++ written else written
  ('\'' :: written).reverse

/-- What tells a reader how a block ends: a break at the end is kept by default, a minus sign
leaves it out, and a plus sign keeps further ones. -/
def chompMark (s : List Char) : List Char :=
  match s.reverse with
  | [] => ['-']
  | [c] => if isBreak c then ['+'] else ['-']
  | c :: d :: _ => if isBreak c then (if isBreak d then ['+'] else []) else ['-']

/-- A text as an indented block; a digit gives the indentation when the text itself begins with a
blank. -/
def block (indent : Nat) (s : List Char) : List Char :=
  let hint := match s with
    | c :: _ => if c == ' ' || isBreak c then ['2'] else []
    | [] => []
  '|' :: hint ++ chompMark s ++ '\n' :: (indentLines indent (fun c => [c]) [] true s).1.reverse

/-- A text in its style, with `indent` blanks before the lines after the first. -/
def scalar (indent : Nat) (s : String) : String :=
  match styleOf s with
  | .plain => s
  | .single => String.ofList (singleQuoted indent s.toList)
  | .double => String.ofList ('"' :: s.toList.flatMap escape ++ ['"'])
  | .block => String.ofList (block indent s.toList)

/-! ## Trees -/

/-- Numbers are written positionally while the leading digit counts `1e-5` to `1e15`, and always
show that they are no integers. -/
def numberStyle : Binary64.Style where
  tie := .toEven
  positional := some (-5, 15)
  pointZero := true
  plus := ""
  infinity := ".inf"
  nan := ".nan"

/-- A key that fits on one line before its colon: at most 128 bytes without a break. -/
def isSimpleKey (key : String) : Bool := key.utf8ByteSize ≤ 128 && !key.toList.any isBreak

/-- Begins a line at an indentation, unless the text ends with a break already. -/
def startLine (indent : Nat) (out : String) : String :=
  let out := if isBreak out.back then out else out.push '\n'
  out ++ String.ofList (List.replicate indent ' ')

/-- Where a tree begins: on the line that has begun, or behind the colon of a simple key. -/
inductive Place where
  | inline
  | behindKey
deriving Repr, DecidableEq

/-- What precedes a tree that stays on the line. -/
def Place.space : Place → String
  | .inline => ""
  | .behindKey => " "

/-- Adds a key, its marks, and what precedes the value; the value begins at a place of its own. -/
def writeKey (indent : Nat) (out key : String) : String :=
  if isSimpleKey key then out ++ scalar (indent + 2) key ++ ":"
  else startLine indent (out ++ "? " ++ scalar (indent + 2) key) ++ ": "

/-- Where the value of a key begins. -/
def valuePlace (key : String) : Place := if isSimpleKey key then .behindKey else .inline

/-- Begins the first line of an array or object at an indentation. -/
def beginBlock (place : Place) (indent : Nat) (out : String) : String :=
  match place with
  | .inline => out
  | .behindKey => startLine indent out

mutual

/-- Adds a tree, the lines of which are indented; an array behind a key is two blanks less so. -/
def writeAt (place : Place) (indent : Nat) (out : String) : Datum → String
  | .null => out ++ place.space ++ "null"
  | .boolean b => out ++ place.space ++ if b then "true" else "false"
  | .integer n => out ++ place.space ++ toString n
  | .number x => out ++ place.space ++ x.write numberStyle
  | .text s => out ++ place.space ++ scalar indent s
  | .array [] => out ++ place.space ++ "[]"
  | .array (item :: items) =>
    let indent := if place = .behindKey then indent - 2 else indent
    let out := beginBlock place indent out
    writeItems indent (writeAt .inline (indent + 2) (out ++ "- ") item) items
  | .object [] => out ++ place.space ++ "\x7b\x7d"
  | .object ((key, value) :: entries) =>
    let out := writeKey indent (beginBlock place indent out) key
    writeEntries indent (writeAt (valuePlace key) (indent + 2) out value) entries

/-- Adds further items of an array. -/
def writeItems (indent : Nat) (out : String) : List Datum → String
  | [] => out
  | item :: items =>
    let out := writeAt .inline (indent + 2) (startLine indent out ++ "- ") item
    writeItems indent out items

/-- Adds further entries of an object. -/
def writeEntries (indent : Nat) (out : String) : List (String × Datum) → String
  | [] => out
  | (key, value) :: entries =>
    let out := writeKey indent (startLine indent out) key
    writeEntries indent (writeAt (valuePlace key) (indent + 2) out value) entries

end

/-- The indentation at the root: that of the lines of a text is two. -/
def rootIndent : Datum → Nat
  | .text _ => 2
  | _ => 0

/-- The text of a tree, with a break at its end. -/
def write (d : Datum) : String := startLine 0 (writeAt .inline (rootIndent d) "" d)

end Criteria.Yaml
