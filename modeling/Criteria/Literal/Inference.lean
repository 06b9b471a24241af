import Criteria.Binary64
import Criteria.Calendar

/-!
# Literals

The typed values that a filter compares fields with, and how the type of a value is read off its
text.
-/

namespace Criteria

/-- A typed value of a filter. A pattern matches a text in any mixture of cases. -/
inductive Literal where
  | date (instant : Instant)
  | number (value : Binary64)
  | boolean (value : Bool)
  | pattern (source : String)
deriving Repr, DecidableEq

/-! ## Numerals

A numeral is an optional minus sign, digits, and optionally a point and further digits. It denotes
a fraction whose denominator is a power of ten, and `toBinary64` rounds that fraction once. -/

/-- The sign of a numeral, the number that its digits denote without the point, and the count of
digits after the point. -/
structure Numeral where
  negative : Bool
  digits : Nat
  scale : Nat
deriving Repr, DecidableEq

namespace Numeral

open Criteria.Text

/-- Digits, and optionally a point and further digits, from the first character of a text to its
last. -/
def readUnsigned? (negative : Bool) (s : List Char) : Option Numeral :=
  let whole := s.takeWhile Char.isDigit
  if whole.isEmpty then none else
    match s.dropWhile Char.isDigit with
    | [] => some ⟨negative, decimalValue whole, 0⟩
    | '.' :: fraction =>
      if fraction ≠ [] ∧ fraction.all Char.isDigit then
        some ⟨negative, decimalValue (whole ++ fraction), fraction.length⟩
      else none
    | _ => none

/-- A text that is a numeral from its first character to its last. -/
def read? : List Char → Option Numeral
  | '-' :: rest => readUnsigned? true rest
  | s => readUnsigned? false s

/-- The representable number nearest to a numeral's value. -/
def toBinary64 (n : Numeral) : Binary64 :=
  Binary64.ofRatio n.negative n.digits (Nat.pow 10 n.scale)

end Numeral

/-! ## Inference

A value in matching quotes is a date or a pattern; any other is a date, a number that is finite when
rounded, one of the words `true` and `false`, or a pattern, in this order. -/

namespace Literal

/-- The text between matching quotes, for a text of at least two characters that begins and ends
with the same quote. -/
def unquote? : List Char → Option (List Char)
  | [] => none
  | q :: rest =>
    if (q = '\'' ∨ q = '"') ∧ rest.getLast? = some q then some rest.dropLast else none

/-- The date that a text denotes as a whole. -/
def readDate? (s : List Char) : Option Instant :=
  (DateTime.readDateTime? s).map DateTime.instant

/-- The number that a text denotes as a whole, unless it is too large to be finite. -/
def readNumber? (s : List Char) : Option Binary64 :=
  match Numeral.read? s with
  | some n => if n.toBinary64.isFinite then some n.toBinary64 else none
  | none => none

/-- The two words for truth values. -/
def readBoolean? (s : List Char) : Option Bool :=
  if s = "true".toList then some true else if s = "false".toList then some false else none

/-- What the text inside quotes denotes. -/
def ofQuoted (inner : List Char) : Literal :=
  match readDate? inner with
  | some t => .date t
  | none => .pattern (String.ofList inner)

/-- What a text without quotes around it denotes. -/
def ofBare (s : List Char) : Literal :=
  match readDate? s with
  | some t => .date t
  | none =>
    match readNumber? s with
    | some x => .number x
    | none =>
      match readBoolean? s with
      | some b => .boolean b
      | none => .pattern (String.ofList s)

/-- The literal that the text of a value denotes. -/
def infer (token : String) : Literal :=
  match unquote? token.toList with
  | some inner => ofQuoted inner
  | none => ofBare token.toList

end Literal

end Criteria
