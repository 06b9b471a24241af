import Criteria.Filter
import Criteria.Params

/-!
# Options

The parameters apart from the filter: how many records to skip and to give, their order, the fields
to give, and the connector between the words of a search. `Options.read` checks them in a fixed
order, and absent ones have defaults.
-/

namespace Criteria

/-! ## Sort orders

A sort order is a list of fields with directions, the first one leading. It is written as tokens
`field:asc` and `field:desc`. -/

/-- The direction in which records are put by a field. -/
inductive Direction where
  | ascending
  | descending
deriving Repr, DecidableEq

namespace Direction

def word : Direction → String
  | .ascending => "asc"
  | .descending => "desc"

/-- The direction that a word names. -/
def ofWord? (s : String) : Option Direction :=
  if s = "asc" then some .ascending else if s = "desc" then some .descending else none

def invalidMessage (word : String) : String := "invalid sort direction: " ++ word

end Direction

/-- A field and the direction in which it orders records. -/
structure SortKey where
  field : String
  direction : Direction
deriving Repr, DecidableEq

/-- Fields with directions, the first one leading. -/
abbrev SortOrder := List SortKey

/-- Why a text is no sort key. -/
inductive SortKey.Reason where
  | missingDirection (token : String)
  | invalidField (token : String)
  | invalidDirection (word : String)
deriving Repr, DecidableEq

namespace SortKey

def Reason.message : Reason → String
  | .missingDirection token => "missing direction in '" ++ token ++ "'"
  | .invalidField token => "invalid sort field in '" ++ token ++ "'"
  | .invalidDirection word => Direction.invalidMessage word

/-- The key as a token. -/
def display (k : SortKey) : String := k.field ++ ":" ++ k.direction.word

/-- Reads a token: a key before the first colon, and a direction after it. -/
def parse (token : String) : Except Reason SortKey :=
  let field := token.toList.takeWhile (· ≠ ':')
  match token.toList.dropWhile (· ≠ ':') with
  | [] => .error (.missingDirection token)
  | _ :: rest =>
    if field ≠ [] ∧ field.all Text.isKeyChar then
      match Direction.ofWord? (String.ofList rest) with
      | some direction => .ok ⟨String.ofList field, direction⟩
      | none => .error (.invalidDirection (String.ofList rest))
    else .error (.invalidField token)

end SortKey

/-- The keys as tokens with one blank between them. -/
def SortOrder.display (order : SortOrder) : String :=
  " ".intercalate (order.map SortKey.display)

/-! ## Options -/

/-- The checked parameters apart from the filter. -/
structure Options where
  skip : UInt64
  limit : UInt64
  sort : SortOrder
  fields : List String
  defaultOperator : Connector
deriving Repr, DecidableEq

namespace Options

def defaultSkip : UInt64 := 0

def defaultLimit : UInt64 := 50

/-- A number that is written in decimal digits, blanks around it aside, and needs at most 64 binary
digits. -/
def readCount? (value : String) : Option UInt64 :=
  match Text.readNatural? (Text.trim value.toList) with
  | some n => if h : n < UInt64.size then some (UInt64.ofNatLT n h) else none
  | none => none

/-- The count that a parameter gives, or a default. -/
def readCount (p : Params) (parameter : Parameter) (default : UInt64) : Validation UInt64 :=
  match p.get? parameter.name with
  | none => pure default
  | some value => Validation.orReject parameter value (readCount? value)

def readSkip (p : Params) : Validation UInt64 := readCount p .skip defaultSkip

def readLimit (p : Params) : Validation UInt64 := readCount p .limit defaultLimit

/-- The sort order that the words of a text make up. -/
def readSortOrder? (value : String) : Option SortOrder :=
  ((Text.wordsOf value).mapM SortKey.parse).toOption

def readSort (p : Params) : Validation SortOrder :=
  match p.get? Parameter.sort.name with
  | none => pure []
  | some value => Validation.orReject .sort value (readSortOrder? value)

/-- The words of `fields`. -/
def readFields (p : Params) : List String :=
  Text.wordsOf (p.getTrimmed Parameter.fields.name)

/-- The connector that a text names, blanks around it and ASCII case aside. -/
def readConnector? (value : String) : Option Connector :=
  Connector.ofWordAnyCase? (String.ofList (Text.trim value.toList))

def readDefaultOperator (p : Params) : Validation Connector :=
  match p.get? Parameter.defaultOperator.name with
  | none => pure .and
  | some value => Validation.orReject .defaultOperator value (readConnector? value)

/-- Checks all options, up to the first that is not acceptable. -/
def read (p : Params) : Validation Options := do
  let skip ← readSkip p
  let limit ← readLimit p
  let sort ← readSort p
  let defaultOperator ← readDefaultOperator p
  return { skip, limit, sort, fields := readFields p, defaultOperator }

end Options

end Criteria
