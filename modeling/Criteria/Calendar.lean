import Criteria.Text

/-!
# The calendar

A `DateTime` is a point of the Gregorian calendar from year 0 on, down to milliseconds, read in
universal time; an `Instant` is a point of the time line together with the offset from universal
time at which it is shown. `DateTime.instant` counts the days before a date to get from the first
to the second, `readDateTime?` reads the one from a text, and `rfc3339` writes the other.
-/

namespace Criteria

/-- A point of the time line: whole seconds since the start of 1970 in universal time, further
nanoseconds, and the offset in seconds of the clock that shows it. -/
structure Instant where
  seconds : Int
  nanos : Nat
  offset : Int
deriving Repr, DecidableEq, Inhabited

namespace Calendar

/-- Every fourth year is a leap year, of the hundreds only every fourth. -/
def isLeap (year : Nat) : Bool :=
  year % 4 == 0 && (year % 100 != 0 || year % 400 == 0)

/-- The number of days of a month, which counts from 1. -/
def daysInMonth (year month : Nat) : Nat :=
  match month with
  | 2 => if isLeap year then 29 else 28
  | 4 | 6 | 9 | 11 => 30
  | _ => 31

/-- The days from the start of year 0 to the start of a year. -/
def daysBeforeYear (year : Nat) : Nat :=
  365 * year + (year + 3) / 4 - (year + 99) / 100 + (year + 399) / 400

/-- The days from the start of a year to the start of a month, which counts from 1. -/
def daysBeforeMonth (year : Nat) : Nat → Nat
  | 0 => 0
  | 1 => 0
  | month + 1 => daysBeforeMonth year month + daysInMonth year month

/-- The days from the start of year 0 to the start of 1970. -/
def epochDay : Nat := daysBeforeYear 1970

/-- The greatest year up to a bound that has started before the end of a day. -/
def yearUpTo : Nat → Nat → Nat
  | 0, _ => 0
  | bound + 1, day => if daysBeforeYear (bound + 1) ≤ day then bound + 1 else yearUpTo bound day

/-- The year that holds a day, days counting from the start of year 0. -/
def yearOf (day : Nat) : Nat := yearUpTo (day / 365) day

/-- The greatest month up to a bound that has started before the end of a day of a year. -/
def monthUpTo (year : Nat) : Nat → Nat → Nat
  | 0, _ => 1
  | bound + 1, day =>
    if daysBeforeMonth year (bound + 1) ≤ day then bound + 1 else monthUpTo year bound day

/-- The month that holds a day of a year, days counting from 0. -/
def monthOf (year day : Nat) : Nat := monthUpTo year 12 day

end Calendar

/-- A date and a time of day of the Gregorian calendar in universal time. -/
structure DateTime where
  year : Nat
  month : Nat
  day : Nat
  hour : Nat
  minute : Nat
  second : Nat
  milli : Nat
deriving Repr, DecidableEq, Inhabited

namespace DateTime

/-- The components name a day that exists and a time of that day. -/
structure Valid (d : DateTime) : Prop where
  year_le : d.year ≤ 9999
  month_pos : 1 ≤ d.month
  month_le : d.month ≤ 12
  day_pos : 1 ≤ d.day
  day_le : d.day ≤ Calendar.daysInMonth d.year d.month
  hour_le : d.hour ≤ 23
  minute_le : d.minute ≤ 59
  second_le : d.second ≤ 59
  milli_le : d.milli ≤ 999

/-- The days from the start of year 0 to the date. -/
def dayNumber (d : DateTime) : Nat :=
  Calendar.daysBeforeYear d.year + Calendar.daysBeforeMonth d.year d.month + (d.day - 1)

/-- The seconds of the day before the time of day. -/
def secondOfDay (d : DateTime) : Nat := 3600 * d.hour + 60 * d.minute + d.second

/-- The point of the time line, shown in universal time. -/
def instant (d : DateTime) : Instant where
  seconds := 86400 * ((d.dayNumber : Int) - Calendar.epochDay) + d.secondOfDay
  nanos := 1000000 * d.milli
  offset := 0

/-! ## The date language

A date is written `YYYY-MM-DD`, followed by a time of day `THH:MM:SS` or by none; one to three
digits of a fraction may follow the seconds, and `Z` may end the whole. `readDateTime?` accepts a
text that is a date from its first character to its last and names a day that exists. -/

open Criteria.Text

/-- A number of exactly `width` digits within bounds, and what follows it. -/
def readField? (width low high : Nat) (s : List Char) : Option (Nat × List Char) :=
  match readDigits? width s with
  | some (n, rest) => if low ≤ n ∧ n ≤ high then some (n, rest) else none
  | none => none

/-- What follows a given first character. -/
def readMark? (mark : Char) : List Char → Option (List Char)
  | c :: rest => if c = mark then some rest else none
  | [] => none

/-- One to three digits of a fraction of a second in milliseconds, zeros filled in on the
right. -/
def readMillis? (s : List Char) : Option (Nat × List Char) :=
  let digits := (s.take 3).takeWhile Char.isDigit
  if digits.isEmpty then none
  else some (decimalValue digits * Nat.pow 10 (3 - digits.length), s.drop digits.length)

/-- The fraction after the seconds in milliseconds; without one it is zero. -/
def readFraction? : List Char → Option (Nat × List Char)
  | '.' :: rest => readMillis? rest
  | s => some (0, s)

/-- A time of day, `HH:MM:SS` with an optional fraction: hour, minute, second, millisecond. -/
def readTime? (s : List Char) : Option ((Nat × Nat × Nat × Nat) × List Char) := do
  let (hour, s) ← readField? 2 0 23 s
  let s ← readMark? ':' s
  let (minute, s) ← readField? 2 0 59 s
  let s ← readMark? ':' s
  let (second, s) ← readField? 2 0 59 s
  let (milli, s) ← readFraction? s
  return ((hour, minute, second, milli), s)

/-- The time of day after a date; without one it is midnight. -/
def readTimeOfDay? : List Char → Option ((Nat × Nat × Nat × Nat) × List Char)
  | 'T' :: rest => readTime? rest
  | s => some ((0, 0, 0, 0), s)

/-- A text that is a date from its first character to its last. -/
def readDateTime? (s : List Char) : Option DateTime := do
  let (year, s) ← readField? 4 0 9999 s
  let s ← readMark? '-' s
  let (month, s) ← readField? 2 1 12 s
  let s ← readMark? '-' s
  let (day, s) ← readField? 2 1 31 s
  let ((hour, minute, second, milli), s) ← readTimeOfDay? s
  if (s = [] ∨ s = ['Z']) ∧ day ≤ Calendar.daysInMonth year month then
    some { year, month, day, hour, minute, second, milli }
  else
    none

end DateTime

/-! ## The format of RFC 3339

`YYYY-MM-DDTHH:MM:SS`, a fraction without trailing zeros unless it is zero, and the offset, which
is `Z` for universal time and `±HH:MM` elsewhere. The format has no room for years outside
0 to 9999, for offsets of a day or more and for offsets with seconds. -/

namespace Instant

open Criteria.Text

/-- Why an instant cannot be written. -/
inductive FormatError where
  | year
  | offsetHour
  | offsetSecond
deriving Repr, DecidableEq

/-- The component of the instant that has no place in the format. -/
def FormatError.component : FormatError → String
  | .year => "year"
  | .offsetHour => "offset_hour"
  | .offsetSecond => "offset_second"

def FormatError.message (e : FormatError) : String :=
  "The " ++ e.component ++ " component cannot be formatted into the requested format."

/-- The day on the clock that shows the instant, counted from the start of year 0. -/
def localDay (t : Instant) : Int := (t.seconds + t.offset) / 86400 + Calendar.epochDay

/-- The second of the day on the clock that shows the instant. -/
def localSecond (t : Instant) : Nat := ((t.seconds + t.offset) % 86400).toNat

/-- The fraction of a second: nothing for zero, else a point and the nine digits of the
nanoseconds without the zeros at the end. -/
def fractionText (nanos : Nat) : List Char :=
  if nanos = 0 then [] else
    '.' :: ((fixedDigits 9 nanos).reverse.dropWhile (· == '0')).reverse

/-- The offset from universal time, in hours and minutes. -/
def offsetText (offset : Int) : List Char :=
  if offset = 0 then ['Z'] else
    (if offset < 0 then '-' else '+') :: fixedDigits 2 (offset.natAbs / 3600) ++
      ':' :: fixedDigits 2 (offset.natAbs / 60 % 60)

/-- The date of a day counted from the start of year 0. -/
def dateText (day : Nat) : List Char :=
  let year := Calendar.yearOf day
  let dayOfYear := day - Calendar.daysBeforeYear year
  let month := Calendar.monthOf year dayOfYear
  fixedDigits 4 year ++ '-' :: fixedDigits 2 month ++
    '-' :: fixedDigits 2 (dayOfYear - Calendar.daysBeforeMonth year month + 1)

/-- The time of day of a second of the day. -/
def timeText (second : Nat) : List Char :=
  fixedDigits 2 (second / 3600) ++ ':' :: fixedDigits 2 (second / 60 % 60) ++
    ':' :: fixedDigits 2 (second % 60)

/-- The text of an instant, or the first component that has no place in the format. -/
def rfc3339 (t : Instant) : Except FormatError String :=
  if t.localDay < 0 ∨ Calendar.daysBeforeYear 10000 ≤ t.localDay then .error .year
  else if 24 ≤ t.offset.natAbs / 3600 then .error .offsetHour
  else if t.offset.natAbs % 60 ≠ 0 then .error .offsetSecond
  else .ok <| String.ofList <|
    dateText t.localDay.toNat ++ 'T' :: timeText t.localSecond ++ fractionText t.nanos ++
      offsetText t.offset

end Instant

end Criteria
