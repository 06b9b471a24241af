import Criteria.Calendar
import Criteria.Datum

/-!
# Scalars of TOML

Truth values, integers, floating-point numbers and dates, each read from the run of characters that
it takes up. Dates have no type of their own in data; they become texts of one fixed form.
-/

namespace Criteria.Toml

open Criteria.Text

/-- Digits of a class with single underscores between them, without the underscores. -/
def readDigits? (isDigit : Char → Bool) (s : List Char) : Option (List Char) :=
  let parts := s.splitOn '_'
  if parts.all (fun p => !p.isEmpty && p.all isDigit) then some parts.flatten else none

def hexValue (c : Char) : Nat :=
  if c.isDigit then c.toNat - 48 else if 'a' ≤ c then c.toNat - 87 else c.toNat - 55

def isHexDigit (c : Char) : Bool :=
  c.isDigit || ('a' ≤ c && c ≤ 'f') || ('A' ≤ c && c ≤ 'F')

/-- The number that digits in a base denote. -/
def baseValue (base : Nat) (digits : List Char) : Nat :=
  digits.foldl (fun n c => base * n + hexValue c) 0

/-- A whole number without needless zeros in front. -/
def readWhole? (s : List Char) : Option (List Char) :=
  (readDigits? Char.isDigit s).filter fun digits => digits.length = 1 || digits.head? != some '0'

/-- An integer with 64 bits. -/
def integer? (n : Int) : Option Datum :=
  if fitsWord n then some (.integer n) else none

/-- An integer in a base behind the mark of that base. -/
def readBased? (base : Nat) (isDigit : Char → Bool) (s : List Char) : Option Datum :=
  (readDigits? isDigit s).bind fun digits => integer? (baseValue base digits)

def readInteger? (s : List Char) : Option Datum :=
  match s with
  | '0' :: 'x' :: rest => readBased? 16 isHexDigit rest
  | '0' :: 'o' :: rest => readBased? 8 (fun c => '0' ≤ c && c ≤ '7') rest
  | '0' :: 'b' :: rest => readBased? 2 (fun c => c == '0' || c == '1') rest
  | '-' :: rest => (readWhole? rest).bind fun digits => integer? (-(decimalValue digits : Int))
  | '+' :: rest => (readWhole? rest).bind fun digits => integer? (decimalValue digits)
  | s => (readWhole? s).bind fun digits => integer? (decimalValue digits)

/-- The sign at the head of a number, which is a minus sign or not, and the rest. -/
def readSign : List Char → Bool × List Char
  | '-' :: rest => (true, rest)
  | '+' :: rest => (false, rest)
  | s => (false, s)

def isExponentMark (c : Char) : Bool := c == 'e' || c == 'E'

/-- A number with a fraction or an exponent or both, its parts cleared of underscores. -/
def clearFloat? (s : List Char) : Option (List Char) := do
  let mantissa := s.takeWhile (!isExponentMark ·)
  let exponent := s.dropWhile (!isExponentMark ·)
  let whole ← readWhole? (mantissa.takeWhile (· ≠ '.'))
  let fraction ← match mantissa.dropWhile (· ≠ '.') with
    | [] => if exponent.isEmpty then none else some []
    | _ :: rest => (readDigits? Char.isDigit rest).map ('.' :: ·)
  let exponent ← match exponent with
    | [] => some []
    | _ :: rest =>
      let (negative, digits) := readSign rest
      (readDigits? Char.isDigit digits).map fun digits =>
        'e' :: (if negative then ['-'] else []) ++ digits
  return whole ++ fraction ++ exponent

def readFloat? (s : List Char) : Option Datum :=
  let (negative, rest) := readSign s
  if rest = "inf".toList then some (.number (Binary64.infinity negative))
  else if rest = "nan".toList then some (.number Binary64.notANumber)
  else do
    let n ← Scientific.read? (← clearFloat? rest)
    if n.toBinary64.isFinite then return .number { n.toBinary64 with negative := negative }
    else none

/-! ## Dates -/

/-- Exactly `width` digits within bounds, as they stand. -/
def readField? (width low high : Nat) (s : List Char) : Option (Nat × List Char) :=
  (Text.readDigits? width s).filter fun (n, _) => low ≤ n ∧ n ≤ high

def readMark? (mark : Char) (s : List Char) : Option (List Char) :=
  if s.head? = some mark then some (s.drop 1) else none

/-- A date, as text. -/
def readDate? (s : List Char) : Option (List Char × List Char) := do
  let (year, s) ← readField? 4 0 9999 s
  let (month, s) ← readField? 2 1 12 (← readMark? '-' s)
  let (day, s) ← readField? 2 1 31 (← readMark? '-' s)
  if Calendar.daysInMonth year month < day then none
  return (fixedDigits 4 year ++ '-' :: fixedDigits 2 month ++ '-' :: fixedDigits 2 day, s)

/-- The fraction of a second, as text: up to nine digits, at least one, without further zeros at the
end. -/
def readFraction? : List Char → Option (List Char × List Char)
  | '.' :: s =>
    let digits := s.takeWhile Char.isDigit
    let kept := ((digits.take 9).reverse.dropWhile (· == '0')).reverse
    if digits.isEmpty then none
    else some ('.' :: (if kept.isEmpty then ['0'] else kept), s.dropWhile Char.isDigit)
  | s => some ([], s)

/-- The second of a time of day with its fraction, as text. A time may go without them. -/
def readSecond? : List Char → Option (List Char × List Char)
  | ':' :: s => do
    let (second, s) ← readField? 2 0 60 s
    let (fraction, s) ← readFraction? s
    return (':' :: fixedDigits 2 second ++ fraction, s)
  | s => some ([], s)

/-- A time of day, as text. -/
def readTime? (s : List Char) : Option (List Char × List Char) := do
  let (hour, s) ← readField? 2 0 23 s
  let (minute, s) ← readField? 2 0 59 (← readMark? ':' s)
  let (second, s) ← readSecond? s
  return (fixedDigits 2 hour ++ ':' :: fixedDigits 2 minute ++ second, s)

/-- An offset from universal time, as text. -/
def readOffset? (s : List Char) : Option (List Char) :=
  match s with
  | [] => some []
  | c :: rest =>
    if (c = 'Z' ∨ c = 'z') ∧ rest.isEmpty then some ['Z']
    else if c = '+' ∨ c = '-' then do
      let (hour, rest) ← readField? 2 0 23 rest
      let (minute, rest) ← readField? 2 0 59 (← readMark? ':' rest)
      let sign := if c = '-' ∧ (hour ≠ 0 ∨ minute ≠ 0) then '-' else '+'
      if rest.isEmpty then return sign :: fixedDigits 2 hour ++ ':' :: fixedDigits 2 minute
      else none
    else none

/-- A date, a time of day, or both, then perhaps with an offset. -/
def readDateTime? (s : List Char) : Option Datum :=
  match readDate? s with
  | some (date, []) => some (.text (String.ofList date))
  | some (date, c :: rest) =>
    if c = 'T' ∨ c = 't' ∨ c = ' ' then do
      let (time, rest) ← readTime? rest
      let offset ← readOffset? rest
      return .text (String.ofList (date ++ 'T' :: time ++ offset))
    else none
  | none =>
    match readTime? s with
    | some (time, []) => some (.text (String.ofList time))
    | _ => none

/-- The characters of scalars that are no strings. -/
def isScalarChar (c : Char) : Bool :=
  c.isAlphanum || c == '+' || c == '-' || c == '_' || c == '.' || c == ':'

/-- A scalar that is no string at the head of a text. One blank may part a date from a time. -/
def readScalar? (s : List Char) : Option (Datum × List Char) :=
  let run := s.takeWhile isScalarChar
  let rest := s.dropWhile isScalarChar
  let (run, rest) :=
    match readDate? run, rest with
    | some (_, []), ' ' :: c :: more =>
      if c.isDigit then
        (run ++ ' ' :: (c :: more).takeWhile isScalarChar, (c :: more).dropWhile isScalarChar)
      else (run, rest)
    | _, _ => (run, rest)
  let datum :=
    if run = "true".toList then some (.boolean true)
    else if run = "false".toList then some (.boolean false)
    else (readInteger? run).or ((readFloat? run).or (readDateTime? run))
  datum.map (·, rest)

end Criteria.Toml
