import Criteria.Text

/-!
# Numbers of 64 binary digits

A number is its sign and its magnitude, where a magnitude is the rank of the number among those
that are not negative: rank 0 is zero, the next rank is the next representable number, and one
rank above the finite ones stands infinity. So magnitudes compare as values do. `ofRatio` rounds a
quotient of natural numbers to the nearest representable number, a tie going to the even rank.
Numbers are read from decimals with exponents (`Scientific`) and written as the shortest decimals
that read back as them, in the notation of an output format (`Style`).
-/

namespace Criteria

/-- A floating-point number with 53 bits of precision and 11 of exponent. -/
structure Binary64 where
  negative : Bool
  magnitude : Fin (Nat.pow 2 63)
deriving Repr, DecidableEq, Inhabited

namespace Binary64

/-- The count of ranks from one power of two to the next. -/
def binade : Nat := Nat.pow 2 52

/-- The rank of infinity; ranks above it are no numbers. -/
def infinityRank : Nat := 2047 * binade

/-- The number whose encoding in 64 bits is `w`. -/
def ofBits (w : UInt64) : Binary64 where
  negative := Nat.pow 2 63 ≤ w.toNat
  magnitude := ⟨w.toNat % Nat.pow 2 63, Nat.mod_lt _ (by decide)⟩

/-- The encoding in 64 bits. -/
def toBits (x : Binary64) : UInt64 :=
  UInt64.ofNat ((if x.negative then Nat.pow 2 63 else 0) + x.magnitude)

def isFinite (x : Binary64) : Bool := x.magnitude < infinityRank

def isNaN (x : Binary64) : Bool := infinityRank < x.magnitude

/-- What a finite magnitude of rank `r` counts in units of `2 ^ -1074`, the least positive
number. -/
def units (r : Nat) : Nat :=
  if r < binade then r else (binade + r % binade) * Nat.pow 2 (r / binade - 1)

/-- The quotient to the nearest integer, a tie going to the even one. -/
def roundDiv (num den : Nat) : Nat :=
  let q := num / den
  let twice := 2 * (num % den)
  if twice < den then q else if den < twice then q + 1 else q + q % 2

/-- The rank of the representable number nearest to `num / den`. The unit of the last place is
`2 ^ k` times the least positive number, for the least `k` that leaves at most 53 bits. -/
def nearestRank (num den : Nat) : Nat :=
  let scaled := num * Nat.pow 2 1074
  let k := (scaled / den).log2 + 1 - 53
  k * binade + roundDiv scaled (den * Nat.pow 2 k)

/-- The number nearest to `± num / den`; beyond the largest number it is infinity. -/
def ofRatio (negative : Bool) (num den : Nat) : Binary64 where
  negative := negative
  magnitude := ⟨min (nearestRank num den) infinityRank, by
    have : infinityRank < Nat.pow 2 63 := by decide
    omega⟩

/-- Infinity, or its opposite. -/
def infinity (negative : Bool) : Binary64 := ⟨negative, ⟨infinityRank, by decide⟩⟩

/-- What stands for no number. -/
def notANumber : Binary64 := ⟨false, ⟨infinityRank + binade / 2, by decide⟩⟩

theorem units_zero : units 0 = 0 := by decide

/-! ## Arithmetic on magnitudes

Products and quotients of finite numbers that are not negative, rounded once to the nearest number,
and the numbers nearest to natural numbers. -/

/-- The denominator of the units in which finite magnitudes are whole. -/
def unitDenominator : Nat := Nat.pow 2 1074

/-- The number nearest to a natural number. -/
def ofNat (n : Nat) : Binary64 := ofRatio false n 1

/-- The product of two finite magnitudes. -/
def mul (x y : Binary64) : Binary64 :=
  ofRatio false (units x.magnitude * units y.magnitude) (unitDenominator * unitDenominator)

/-- The quotient of two finite magnitudes, the second of which is not zero. -/
def div (x y : Binary64) : Binary64 := ofRatio false (units x.magnitude) (units y.magnitude)

/-! ## Shortest decimals

The decimal with the fewest digits that reads back as a given number, and of those the nearest to
it. Decimals of one digit count make up a grid around the number; the first grid with a point that
rounds to the number decides, and only the two points next to the number have to be looked at. -/

/-- Which of two equally near decimals is taken. -/
inductive Tie where
  | toEven
  | awayFromZero
deriving Repr, DecidableEq

/-- The number `digits * 10 ^ exponent`. -/
structure Decimal where
  digits : Nat
  exponent : Int
deriving Repr, DecidableEq

/-- The denominator of the half units in which the bounds of a rounding interval are whole. -/
def halfUnit : Nat := Nat.pow 2 1075

/-- The exponent of the leading digit of a positive quotient. -/
def leadingExponent (num den : Nat) : Int :=
  if den ≤ num then ((Nat.toDigits 10 (num / den)).length : Int) - 1
  else
    let n := (Nat.toDigits 10 (den / num)).length
    if den = num * Nat.pow 10 (n - 1) then -((n - 1 : Nat) : Int) else -(n : Int)

/-- The greatest multiple of `10 ^ exponent` that a quotient reaches, as a count. -/
def gridFloor (num den : Nat) (exponent : Int) : Nat :=
  num * Nat.pow 10 (-exponent).toNat / (den * Nat.pow 10 exponent.toNat)

/-- A decimal rounds to the number of a positive rank. The interval of the reals that do ends
halfway to the neighbouring ranks, and its ends belong to it when the rank is even. -/
def roundsTo (rank : Nat) (d : Decimal) : Bool :=
  let value := d.digits * Nat.pow 10 d.exponent.toNat * halfUnit
  let low := (units (rank - 1) + units rank) * Nat.pow 10 (-d.exponent).toNat
  let high := (units rank + units (rank + 1)) * Nat.pow 10 (-d.exponent).toNat
  if rank % 2 = 0 then low ≤ value && value ≤ high else low < value && value < high

/-- Of the two neighbours of a positive rank's number on a grid, the nearer one that rounds to
it, if any does. -/
def onGrid? (tie : Tie) (rank : Nat) (exponent : Int) : Option Decimal :=
  let below : Decimal := ⟨gridFloor (2 * units rank) halfUnit exponent, exponent⟩
  let above : Decimal := ⟨below.digits + 1, exponent⟩
  match roundsTo rank below, roundsTo rank above with
  | false, false => none
  | true, false => some below
  | false, true => some above
  | true, true =>
    let twice := 4 * units rank * Nat.pow 10 (-exponent).toNat
    let middle := (below.digits + above.digits) * Nat.pow 10 exponent.toNat * halfUnit
    if twice < middle then some below
    else if middle < twice then some above
    else match tie with
      | .toEven => some (if below.digits % 2 = 0 then below else above)
      | .awayFromZero => some above

/-- A decimal without zeros at the end, given a bound on their count. -/
def Decimal.strip : Nat → Decimal → Decimal
  | 0, d => d
  | n + 1, d => if d.digits % 10 = 0 then strip n ⟨d.digits / 10, d.exponent + 1⟩ else d

/-- The shortest decimal of a positive finite rank. Seventeen digits always suffice. -/
def shortest (tie : Tie) (rank : Nat) : Decimal :=
  let lead := leadingExponent (2 * units rank) halfUnit
  let found := (List.range 17).findSome? fun n : Nat => onGrid? tie rank (lead - n)
  (found.getD ⟨gridFloor (2 * units rank) halfUnit (lead - 16), lead - 16⟩).strip 17

/-! ## Notations

How a number is written, given the conventions of an output format: a `Style` says where positional
notation ends and how the rest is spelled, and `write` applies it to the shortest decimal. -/

/-- The conventions of an output format for numbers. -/
structure Style where
  /-- Which of two equally near decimals is taken. -/
  tie : Tie
  /-- The least and the greatest exponent of the leading digit that are written without an
  exponent; all of them if there are no bounds. -/
  positional : Option (Int × Int)
  /-- Whether a whole number without an exponent ends in `.0`. -/
  pointZero : Bool
  /-- The sign before an exponent that is not negative. -/
  plus : String
  infinity : String
  nan : String
deriving Repr

/-- Whether an exponent of the leading digit is written positionally. -/
def Style.isPositional (style : Style) (lead : Int) : Bool :=
  match style.positional with
  | none => true
  | some (low, high) => low ≤ lead && lead ≤ high

/-- Digits with a point, the leading digit counting `10 ^ lead`. -/
def positionalText (pointZero : Bool) (digits : List Char) (lead : Int) : List Char :=
  if lead < 0 then
    '0' :: '.' :: List.replicate (-lead - 1).toNat '0' ++ digits
  else
    let whole := digits.take (lead.toNat + 1)
    let fraction := digits.drop (lead.toNat + 1)
    whole ++ List.replicate (lead.toNat + 1 - whole.length) '0' ++
      if fraction.isEmpty then (if pointZero then ['.', '0'] else []) else '.' :: fraction

/-- The leading digit, the others after a point, and the exponent of the leading digit. -/
def exponentText (plus : String) (digits : List Char) (lead : Int) : List Char :=
  digits.take 1 ++ (if digits.length ≤ 1 then [] else '.' :: digits.drop 1) ++
    'e' :: (if lead < 0 then ['-'] else plus.toList) ++ Nat.toDigits 10 lead.natAbs

/-- A finite magnitude. -/
def writeMagnitude (style : Style) (rank : Nat) : List Char :=
  if rank = 0 then (if style.pointZero then ['0', '.', '0'] else ['0'])
  else
    let d := shortest style.tie rank
    let digits := Nat.toDigits 10 d.digits
    let lead := d.exponent + digits.length - 1
    if style.isPositional lead then positionalText style.pointZero digits lead
    else exponentText style.plus digits lead

/-- The text of a number. -/
def write (style : Style) (x : Binary64) : String :=
  if x.isNaN then style.nan
  else
    (if x.negative then "-" else "") ++
      if x.isFinite then String.ofList (writeMagnitude style x.magnitude) else style.infinity

end Binary64

/-! ## Decimals with exponents

Digits with a point anywhere among them or at either end, and optionally an exponent. `toBinary64`
gives the nearest number; exponents far outside the range of numbers need no computation. -/

/-- Digits and the exponent of ten that counts the last of them. -/
structure Scientific where
  digits : List Char
  exponent : Int
deriving Repr, DecidableEq

namespace Scientific

open Criteria.Text

/-- An integer with an optional sign of either kind. -/
def readInteger? : List Char → Option Int
  | '-' :: rest => (readNatural? rest).map fun n => -(n : Int)
  | '+' :: rest => (readNatural? rest).map fun n => (n : Int)
  | s => (readNatural? s).map fun n => (n : Int)

/-- The digits after a point, and what follows them; without a point there are none. -/
def readFraction : List Char → List Char × List Char
  | '.' :: rest => (rest.takeWhile Char.isDigit, rest.dropWhile Char.isDigit)
  | s => ([], s)

/-- A text that is a number without a sign as a whole. There is at least one digit. -/
def read? (s : List Char) : Option Scientific :=
  let whole := s.takeWhile Char.isDigit
  let (fraction, rest) := readFraction (s.dropWhile Char.isDigit)
  if whole.isEmpty && fraction.isEmpty then none else
    match rest with
    | [] => some ⟨whole ++ fraction, -(fraction.length : Int)⟩
    | c :: rest =>
      if c = 'e' ∨ c = 'E' then
        (readInteger? rest).map fun e => ⟨whole ++ fraction, e - fraction.length⟩
      else none

/-- The number nearest to the value. -/
def toBinary64 (n : Scientific) : Binary64 :=
  let significant := n.digits.dropWhile (· == '0')
  let lead := significant.length + n.exponent
  if significant.isEmpty || lead < -330 then Binary64.ofRatio false 0 1
  else if 310 < lead then Binary64.ofRatio false (Nat.pow 10 310) 1
  else Binary64.ofRatio false (decimalValue significant * Nat.pow 10 n.exponent.toNat)
    (Nat.pow 10 (-n.exponent).toNat)

/-- A text that is a number with an optional sign as a whole, rounded. -/
def readBinary64? : List Char → Option Binary64
  | '-' :: rest => (read? rest).map fun n => { n.toBinary64 with negative := true }
  | '+' :: rest => (read? rest).map toBinary64
  | s => (read? s).map toBinary64

end Scientific

end Criteria
