import Criteria.Datum

/-!
# Parameters

The raw parameters of a request: texts under names, each name once. A look-up prefers the exact
name and else takes the smallest name that differs in ASCII case only; a blank value counts as
absent.
-/

namespace Criteria

/-- The parameters that a request may give. -/
inductive Parameter where
  | filter
  | sort
  | skip
  | limit
  | fields
  | defaultOperator
deriving Repr, DecidableEq

namespace Parameter

/-- The name under which a parameter is given. -/
def name : Parameter → String
  | .filter => "filter"
  | .sort => "sort"
  | .skip => "skip"
  | .limit => "limit"
  | .fields => "fields"
  | .defaultOperator => "defaultOperator"

end Parameter

/-- Texts under names, each name once. -/
structure Params where
  entries : List (String × String)
  nodup_keys : (Entries.keys entries).Nodup

namespace Params

/-- No parameters. -/
def empty : Params := ⟨[], List.nodup_nil⟩

instance : Inhabited Params := ⟨empty⟩

/-- Writes a text under a name. -/
def insert (p : Params) (key value : String) : Params :=
  ⟨Entries.put p.entries key value, Entries.nodup_keys_put p.nodup_keys key value⟩

/-- The parameters of some pairs, later ones over earlier ones. -/
def ofList (pairs : List (String × String)) : Params :=
  ⟨Entries.putAll [] pairs, Entries.nodup_keys_putAll empty.nodup_keys pairs⟩

/-- Lays one set of parameters over another. -/
def merge (p overlay : Params) : Params :=
  ⟨Entries.putAll p.entries overlay.entries,
    Entries.nodup_keys_putAll p.nodup_keys overlay.entries⟩

/-- The number of names. -/
def size (p : Params) : Nat := p.entries.length

def isEmpty (p : Params) : Bool := p.entries.isEmpty

/-- The pairs by name, in the order of code points. -/
def sorted (p : Params) : List (String × String) :=
  p.entries.mergeSort fun a b => decide (a.1 ≤ b.1)

/-- Two names that are equal up to the case of ASCII letters. -/
def sameName (a b : String) : Bool :=
  a.toList.map Char.toLower == b.toList.map Char.toLower

/-- The entry with the smaller name. -/
def smaller (best : Option (String × String)) (e : String × String) : Option (String × String) :=
  match best with
  | none => some e
  | some b => if e.1 < b.1 then some e else some b

/-- The entry with the smallest of the names that equal a name up to ASCII case. -/
def variant? (p : Params) (key : String) : Option (String × String) :=
  (p.entries.filter fun e => sameName e.1 key).foldl smaller none

/-- The text under a name, or else under the smallest variant of it, even if it is blank. -/
def raw? (p : Params) (key : String) : Option String :=
  (Entries.get? p.entries key).or ((p.variant? key).map Prod.snd)

/-- The text under a name or its smallest variant; a blank one counts as absent. -/
def get? (p : Params) (key : String) : Option String :=
  (p.raw? key).filter fun v => !Text.blank v.toList

/-- The text under a name without blanks at its ends; empty if there is none. -/
def getTrimmed (p : Params) (key : String) : String :=
  match p.get? key with
  | some v => String.ofList (Text.trim v.toList)
  | none => ""

end Params

/-! ## Validation

Checking parameters stops at the first one that is not acceptable, and every rejection is logged
as a warning. Callers learn the parameter and its value; the log may say more. -/

/-- A parameter whose value, given as it was received, is not acceptable. -/
structure InvalidParameter where
  parameter : Parameter
  value : String
deriving Repr, DecidableEq

def InvalidParameter.message (e : InvalidParameter) : String :=
  "invalid value for parameter '" ++ e.parameter.name ++ "': '" ++ e.value ++ "'"

/-- A logged rejection, with a reason where there is one to give. -/
structure Warning where
  parameter : Parameter
  value : String
  reason : Option String
deriving Repr, DecidableEq

def Warning.message (w : Warning) : String :=
  "Rejected parameter '" ++ w.parameter.name ++ "': '" ++ w.value ++ "'" ++
    match w.reason with
    | some reason => ": " ++ reason
    | none => ""

/-- A computation that may reject a parameter and logs warnings, in order. -/
abbrev Validation (α : Type) := ExceptT InvalidParameter (StateM (List Warning)) α

namespace Validation

/-- Logs a rejection and stops. -/
def reject {α : Type} (parameter : Parameter) (value : String) (reason : Option String) :
    Validation α := do
  modify (· ++ [⟨parameter, value, reason⟩])
  throw ⟨parameter, value⟩

/-- A result that is there already, or a rejection without a reason. -/
def orReject {α : Type} (parameter : Parameter) (value : String) : Option α → Validation α
  | some a => pure a
  | none => reject parameter value none

/-- The result and the warnings. -/
def outcome {α : Type} (v : Validation α) : Except InvalidParameter α × List Warning :=
  v.run.run []

end Validation

end Criteria
