import Criteria.Datum

/-!
# JSON

Data trees as JSON texts: the writer gives one line without blanks, or two blanks of indentation
for each level, and the reader takes one value with nothing but blanks around it.
-/

namespace Criteria.Json

/-! ## Writing

The writer adds to the text written so far, level by level. -/

/-- Numbers are written positionally while the leading digit counts `1e-5` to `1e15`, and always
show that they are no integers. -/
def numberStyle : Binary64.Style where
  tie := .toEven
  positional := some (-5, 15)
  pointZero := true
  plus := "+"
  infinity := "null"
  nan := "null"

/-- A number that is not finite has no form but `null`. -/
def writeNumber (x : Binary64) : String :=
  if x.isFinite then x.write numberStyle else "null"

def hexDigit (n : Nat) : Char := Char.ofNat (if n < 10 then 48 + n else 87 + n)

/-- A character inside a string: quotes, backslashes and control characters are escaped. -/
def escape (c : Char) : List Char :=
  if c = '"' then ['\\', '"']
  else if c = '\\' then ['\\', '\\']
  else if 0x20 ≤ c.toNat then [c]
  else if c = '\x08' then ['\\', 'b']
  else if c = '\t' then ['\\', 't']
  else if c = '\n' then ['\\', 'n']
  else if c = '\x0c' then ['\\', 'f']
  else if c = '\r' then ['\\', 'r']
  else ['\\', 'u', '0', '0', hexDigit (c.toNat / 16), hexDigit (c.toNat % 16)]

/-- A text as a string with its quotes. -/
def quote (s : String) : String := String.ofList ('"' :: s.toList.flatMap escape ++ ['"'])

/-- How the parts of a text are set apart. -/
inductive Layout where
  | compact
  | indented
deriving Repr, DecidableEq

/-- What stands before an item at a level of nesting. -/
def Layout.lineBreak (layout : Layout) (level : Nat) : String :=
  match layout with
  | .compact => ""
  | .indented => "\n" ++ String.ofList (List.replicate (2 * level) ' ')

/-- What stands between a key and its value. -/
def Layout.colon : Layout → String
  | .compact => ":"
  | .indented => ": "

mutual

/-- Adds a tree at a level of nesting. -/
def writeAt (layout : Layout) (level : Nat) (out : String) : Datum → String
  | .null => out ++ "null"
  | .boolean b => out ++ if b then "true" else "false"
  | .integer n => out ++ toString n
  | .number x => out ++ writeNumber x
  | .text s => out ++ quote s
  | .array [] => out ++ "[]"
  | .array (item :: items) =>
    let out := writeAt layout (level + 1) (out ++ "[" ++ layout.lineBreak (level + 1)) item
    writeItems layout (level + 1) out items ++ layout.lineBreak level ++ "]"
  | .object [] => out ++ "\x7b\x7d"
  | .object ((key, value) :: entries) =>
    let out := out ++ "\x7b" ++ layout.lineBreak (level + 1) ++ quote key ++ layout.colon
    let out := writeAt layout (level + 1) out value
    writeEntries layout (level + 1) out entries ++ layout.lineBreak level ++ "\x7d"

/-- Adds further items of an array. -/
def writeItems (layout : Layout) (level : Nat) (out : String) : List Datum → String
  | [] => out
  | item :: items =>
    let out := writeAt layout level (out ++ "," ++ layout.lineBreak level) item
    writeItems layout level out items

/-- Adds further entries of an object. -/
def writeEntries (layout : Layout) (level : Nat) (out : String) : List (String × Datum) → String
  | [] => out
  | (key, value) :: entries =>
    let out := out ++ "," ++ layout.lineBreak level ++ quote key ++ layout.colon
    writeEntries layout level (writeAt layout level out value) entries

end

/-- The text of a tree. -/
def write (layout : Layout) (d : Datum) : String := writeAt layout 0 "" d

/-! ## Numbers

A number without a fraction or exponent is an integer as long as it fits into 64 bits, of which a
negative number needs one for its sign; any other number is a floating-point number. Such a number
is computed from as many leading digits as fit into 64 bits by one multiplication or division with a
power of ten, so that its last digits can differ from those of the nearest number. Numbers that are
too large are refused. -/

/-- The greatest number of 64 binary digits. -/
def maxWord : Nat := 0xFFFFFFFFFFFFFFFF

/-- The number that leading digits denote, as far as it fits into 64 bits, and the digits that
are left. -/
def readWord (n : Nat) : List Char → Nat × List Char
  | [] => (n, [])
  | c :: rest =>
    if c.isDigit then
      let next := 10 * n + Text.digitValue c
      if maxWord < next then (n, c :: rest) else readWord next rest
    else (n, c :: rest)

/-- The power of ten nearest to `10 ^ n`. -/
def powerOfTen (n : Nat) : Binary64 := Binary64.ofNat (Nat.pow 10 n)

/-- A magnitude divided by the greatest power of ten as often as it takes until the exponent left
over has a power of its own. -/
def scaleDown (x : Binary64) : Nat → Nat → Binary64
  | 0, n => x.div (powerOfTen n)
  | fuel + 1, n =>
    if n ≤ 308 then x.div (powerOfTen n)
    else if x.magnitude.val = 0 then x
    else scaleDown (x.div (powerOfTen 308)) fuel (n - 308)

/-- The magnitude of digits with an exponent, unless it is too large. -/
def scale (digits : Nat) (exponent : Int) : Option Binary64 :=
  let x := Binary64.ofNat digits
  if 0 ≤ exponent then
    if 308 < exponent then (if digits = 0 then some x else none)
    else
      let y := x.mul (powerOfTen exponent.toNat)
      if y.isFinite then some y else none
  else some (scaleDown x 4 (-exponent).toNat)

/-- The exponent after its mark, and what follows it: an optional sign and at least one digit. -/
def readExponent? (s : List Char) : Option (Int × List Char) :=
  let (negative, s) := match s with
    | '-' :: rest => (true, rest)
    | '+' :: rest => (false, rest)
    | s => (false, s)
  let digits := s.takeWhile Char.isDigit
  if digits.isEmpty then none
  else
    let n : Int := Text.decimalValue digits
    some (if negative then -n else n, s.dropWhile Char.isDigit)

/-- The number made up by digits and the exponent so far, with the exponent that may follow. -/
def readScaled? (negative : Bool) (digits : Nat) (exponent : Int) (s : List Char) :
    Option (Datum × List Char) :=
  let number (e : Int) (rest : List Char) : Option (Datum × List Char) :=
    (scale digits e).map fun x => (.number { x with negative := negative }, rest)
  match s with
  | c :: rest =>
    if c = 'e' ∨ c = 'E' then
      (readExponent? rest).bind fun (e, rest) => number (exponent + e) rest
    else number exponent s
  | [] => number exponent s

/-- The number with a fraction that begins with `digits` and has the point behind it. -/
def readFraction? (negative : Bool) (digits : Nat) (exponent : Int) (s : List Char) :
    Option (Datum × List Char) :=
  let fraction := s.takeWhile Char.isDigit
  if fraction.isEmpty then none
  else
    let (digits, rest) := readWord digits s
    let used : Nat := s.length - rest.length
    readScaled? negative digits (exponent - used) (s.dropWhile Char.isDigit)

/-- What whole digits without a fraction and exponent denote, which fit into 64 bits. A negative
number is no integer if it needs more with its sign, and neither is a negative zero. -/
def integer (negative : Bool) (n : Nat) : Datum :=
  if negative then
    if 0 < n ∧ fitsWord (-n) then .integer (-n)
    else .number { Binary64.ofNat n with negative := true }
  else .integer n

/-- The number behind an optional sign. No digit may follow a leading zero. -/
def readUnsigned? (negative : Bool) (s : List Char) : Option (Datum × List Char) :=
  let whole := s.takeWhile Char.isDigit
  let (digits, dropped) := readWord 0 s
  let skipped : Nat := (dropped.takeWhile Char.isDigit).length
  if whole.isEmpty || (whole.head? == some '0' && 1 < whole.length) then none
  else
    match s.dropWhile Char.isDigit with
    | '.' :: rest => readFraction? negative digits skipped rest
    | c :: rest =>
      if c = 'e' ∨ c = 'E' then readScaled? negative digits skipped (c :: rest)
      else if skipped = 0 then some (integer negative digits, c :: rest)
      else readScaled? negative digits skipped (c :: rest)
    | [] =>
      if skipped = 0 then some (integer negative digits, [])
      else readScaled? negative digits skipped []

/-- A number at the head of a text. -/
def readNumber? : List Char → Option (Datum × List Char)
  | '-' :: rest => readUnsigned? true rest
  | s => readUnsigned? false s

/-! ## Reading

A text is read as one value with nothing but blanks around it. Values nest to a limited depth, and
a later entry of an object replaces an earlier one with the same key. -/

/-- The depth to which arrays and objects may nest. -/
def maxDepth : Nat := 127

/-- The characters that may stand between tokens. -/
def isSpace (c : Char) : Bool := c == ' ' || c == '\t' || c == '\n' || c == '\r'

def skipSpace (s : List Char) : List Char := s.dropWhile isSpace

/-- What a hexadecimal digit counts. -/
def hexValue? (c : Char) : Option Nat :=
  if c.isDigit then some (c.toNat - 48)
  else if 'a' ≤ c && c ≤ 'f' then some (c.toNat - 87)
  else if 'A' ≤ c && c ≤ 'F' then some (c.toNat - 55)
  else none

/-- Four hexadecimal digits at the head of a text. -/
def readUnit? : List Char → Option (Nat × List Char)
  | a :: b :: c :: d :: rest => do
    let a ← hexValue? a
    let b ← hexValue? b
    let c ← hexValue? c
    let d ← hexValue? d
    return (4096 * a + 256 * b + 16 * c + d, rest)
  | _ => none

/-- The character of an escape `\u`, which may take two of them. Half a pair is no character. -/
def readEscaped? (s : List Char) : Option (Char × List Char) := do
  let (high, rest) ← readUnit? s
  if 0xD800 ≤ high ∧ high ≤ 0xDBFF then
    match rest with
    | '\\' :: 'u' :: rest =>
      let (low, rest) ← readUnit? rest
      if 0xDC00 ≤ low ∧ low ≤ 0xDFFF then
        return (Char.ofNat (0x10000 + 0x400 * (high - 0xD800) + (low - 0xDC00)), rest)
      else none
    | _ => none
  else if 0xDC00 ≤ high ∧ high ≤ 0xDFFF then none
  else return (Char.ofNat high, rest)

/-- The escapes of one letter. -/
def simpleEscape? (c : Char) : Option Char :=
  if c = '"' then some '"' else if c = '\\' then some '\\' else if c = '/' then some '/'
  else if c = 'b' then some '\x08' else if c = 'f' then some '\x0c'
  else if c = 'n' then some '\n' else if c = 'r' then some '\r' else if c = 't' then some '\t'
  else none

/-- The rest of a string behind what has been read, which is given backwards, up to its closing
quote. The text is at most `fuel` characters long. -/
def readStringFrom? (read : List Char) : Nat → List Char → Option (String × List Char)
  | 0, _ => none
  | _ + 1, [] => none
  | fuel + 1, c :: rest =>
    if c = '"' then some (String.ofList read.reverse, rest)
    else if c = '\\' then
      match rest with
      | 'u' :: rest =>
        match readEscaped? rest with
        | some (d, rest) => readStringFrom? (d :: read) fuel rest
        | none => none
      | e :: rest =>
        match simpleEscape? e with
        | some d => readStringFrom? (d :: read) fuel rest
        | none => none
      | [] => none
    else if c.toNat < 0x20 then none
    else readStringFrom? (c :: read) fuel rest

/-- A string behind its opening quote. -/
def readString? (s : List Char) : Option (String × List Char) :=
  readStringFrom? [] (s.length + 1) s

/-- The items behind those read, which are given latest first, up to the closing bracket. The text
is at most `fuel` characters long. -/
def readItems? (item : List Char → Option (Datum × List Char)) (read : List Datum) :
    Nat → List Char → Option (List Datum × List Char)
  | 0, _ => none
  | fuel + 1, s =>
    match item s with
    | none => none
    | some (d, rest) =>
      match skipSpace rest with
      | ',' :: rest => readItems? item (d :: read) fuel rest
      | ']' :: rest => some ((d :: read).reverse, rest)
      | _ => none

/-- A key with its value. -/
def readPair (item : List Char → Option (Datum × List Char)) (s : List Char) :
    Option ((String × Datum) × List Char) :=
  match skipSpace s with
  | '"' :: rest =>
    match readString? rest with
    | none => none
    | some (key, rest) =>
      match skipSpace rest with
      | ':' :: rest => (item rest).map fun (d, rest) => ((key, d), rest)
      | _ => none
  | _ => none

/-- The entries behind those read up to the closing brace. The text is at most `fuel` characters
long. -/
def readEntries? (item : List Char → Option (Datum × List Char)) (read : List (String × Datum)) :
    Nat → List Char → Option (List (String × Datum) × List Char)
  | 0, _ => none
  | fuel + 1, s =>
    match readPair item s with
    | none => none
    | some ((key, d), rest) =>
      let read := Entries.put read key d
      match skipSpace rest with
      | ',' :: rest => readEntries? item read fuel rest
      | '\x7d' :: rest => some (read, rest)
      | _ => none

/-- One of the three words, a number or a string. -/
def readLeaf? (s : List Char) : Option (Datum × List Char) :=
  match s with
  | '"' :: rest => (readString? rest).map fun (t, rest) => (.text t, rest)
  | 't' :: 'r' :: 'u' :: 'e' :: rest => some (.boolean true, rest)
  | 'f' :: 'a' :: 'l' :: 's' :: 'e' :: rest => some (.boolean false, rest)
  | 'n' :: 'u' :: 'l' :: 'l' :: rest => some (.null, rest)
  | s => readNumber? s

/-- A value at the head of a text, with arrays and objects nested to a depth. -/
def readValue? : Nat → List Char → Option (Datum × List Char)
  | 0, s =>
    match skipSpace s with
    | '[' :: _ => none
    | '\x7b' :: _ => none
    | s => readLeaf? s
  | depth + 1, s =>
    match skipSpace s with
    | '[' :: rest =>
      match skipSpace rest with
      | ']' :: rest => some (.array [], rest)
      | rest => (readItems? (readValue? depth) [] rest.length rest).map fun (items, rest) =>
          (.array items, rest)
    | '\x7b' :: rest =>
      match skipSpace rest with
      | '\x7d' :: rest => some (.object [], rest)
      | rest => (readEntries? (readValue? depth) [] rest.length rest).map fun (entries, rest) =>
          (.object entries, rest)
    | s => readLeaf? s

/-- The value that a text denotes as a whole. -/
def read? (s : List Char) : Option Datum :=
  match readValue? maxDepth s with
  | some (d, rest) => if (skipSpace rest).isEmpty then some d else none
  | none => none

end Criteria.Json
