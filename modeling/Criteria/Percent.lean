/-!
# Percent-encoding

Writing a text with the characters that a URI may hold. The bytes of all other characters in UTF-8
are written as `%` with two hexadecimal digits; the characters that structure a URI stay as they
are.
-/

namespace Criteria.Percent

/-- The characters besides the letters and digits of ASCII that stay as they are. -/
def uriMarks : List Char := "-_.!~*'();,/?:@&=+$#".toList

/-- The characters that stay as they are. -/
def isUriChar (c : Char) : Bool := c.isAlphanum || uriMarks.contains c

/-- The hexadecimal digit that counts `n`, for `n` below sixteen. -/
def hexDigit (n : Nat) : Char := Char.ofNat (if n < 10 then 48 + n else 55 + n)

/-- A byte as `%` and two hexadecimal digits. -/
def escapeByte (b : UInt8) : List Char := ['%', hexDigit (b.toNat / 16), hexDigit (b.toNat % 16)]

/-- A character as it is, or its bytes escaped. -/
def encodeChar (c : Char) : List Char :=
  if isUriChar c then [c] else (String.utf8EncodeChar c).flatMap escapeByte

/-- A text with all characters escaped that a URI may not hold. -/
def encodeUri (s : String) : String := String.ofList (s.toList.flatMap encodeChar)

/-- Encoding works character by character. -/
theorem encodeUri_append (a b : String) : encodeUri (a ++ b) = encodeUri a ++ encodeUri b := by
  simp [encodeUri, String.ofList_append]

/-! ## Decoding

The reader that stands across from `encodeUri`: an escape in either case of its digits is one byte,
any other character is itself in UTF-8, and the bytes have to make up a text. A plus sign stands for
itself. -/

/-- What a hexadecimal digit in either case counts. -/
def hexValue? (c : Char) : Option Nat :=
  if c.isDigit then some (c.toNat - 48)
  else if 'A' ≤ c ∧ c ≤ 'F' then some (c.toNat - 55)
  else if 'a' ≤ c ∧ c ≤ 'f' then some (c.toNat - 87)
  else none

/-- The byte that two hexadecimal digits denote. -/
def byte? (high low : Char) : Option UInt8 :=
  (hexValue? high).bind fun h => (hexValue? low).map fun l => UInt8.ofNat (16 * h + l)

/-- The bytes of an encoded text; a percent sign without two digits behind it is itself. -/
def decodeBytes : List Char → List UInt8
  | [] => []
  | '%' :: high :: low :: rest =>
    match byte? high low with
    | some b => b :: decodeBytes rest
    | none => String.utf8EncodeChar '%' ++ decodeBytes (high :: low :: rest)
  | c :: rest => String.utf8EncodeChar c ++ decodeBytes rest

/-- The text that an encoded text denotes, if its bytes are one in UTF-8. -/
def decode? (s : List Char) : Option String :=
  String.fromUTF8? (decodeBytes s).toByteArray

end Criteria.Percent
