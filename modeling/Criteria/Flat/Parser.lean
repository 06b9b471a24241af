import Criteria.Filter.Token

/-!
# Flat filters

A flat filter is a list of terms without connectors or groups, as search engines take them. A term
has a surface form, `display`, and a form in the query language of the engine, `render`.
-/

namespace Criteria.Flat

/-! ## Terms -/

/-- Whether records must hold a word or must not. -/
inductive Mark where
  | required
  | prohibited
deriving Repr, DecidableEq

def Mark.sign : Mark → String
  | .required => "+"
  | .prohibited => "-"

/-- One term of a flat filter. -/
inductive Term where
  /-- A search word, possibly marked. -/
  | text (mark : Option Mark) (word : String)
  /-- A comparison with the text of a value. -/
  | comparison (field : String) (comparator : Comparator) (value : String)
deriving Repr, DecidableEq

namespace Term

/-- The term as it is written in a filter. -/
def display : Term → String
  | .text mark word => (mark.map Mark.sign).getD "" ++ word
  | .comparison field c value => field ++ c.symbol ++ value

/-- The term in the query language of the engine, which does not tell equality from likeness and
negates a whole clause. -/
def render : Term → String
  | .text mark word => (Term.text mark word).display
  | .comparison field c value =>
    match c with
    | .like | .equal => field ++ ":" ++ value
    | .notEqual => "!(" ++ field ++ ":" ++ value ++ ")"
    | .greater => field ++ ":>" ++ value
    | .greaterEqual => field ++ ":>=" ++ value
    | .less => field ++ ":<" ++ value
    | .lessEqual => field ++ ":<=" ++ value

end Term

/-- The terms in the query language of the engine, one blank between them. -/
def render (terms : List Term) : String := " ".intercalate (terms.map Term.render)

/-! ## Reading

A flat filter is cut at blank characters, and each piece has to be a term from its first character
to its last. A piece that begins with a comparison is read as one; otherwise a sign before a key is
its mark. -/

open Criteria.Text

/-- Why a piece of a flat filter is no term. -/
inductive Reason where
  /-- Flat filters have no connectors. -/
  | connector (word : String)
  /-- No term begins the piece. -/
  | unreadable (token : String)
  /-- A term begins the piece, but `rest` follows it. -/
  | leftover (rest token : String)
deriving Repr, DecidableEq

def Reason.message : Reason → String
  | .connector word => "Connector '" ++ word ++ "' is not allowed in a flat filter"
  | .unreadable token => "Invalid token '" ++ token ++ "': " ++ Filter.noAlternative
  | .leftover rest token => "Unexpected '" ++ rest ++ "' in token '" ++ token ++ "'"

/-- A comparison with a bare value at the head of a text. -/
def readComparison? (s : List Char) : Option (Term × List Char) :=
  match readKey? s with
  | none => none
  | some (field, s) =>
    match Comparator.read? s with
    | none => none
    | some (c, s) =>
      match readBareValue? s with
      | none => none
      | some (value, rest) =>
        some (.comparison (String.ofList field) c (String.ofList value), rest)

/-- The sign at the head of a text, if there is one. -/
def readMark : List Char → Option Mark × List Char
  | '+' :: rest => (some .required, rest)
  | '-' :: rest => (some .prohibited, rest)
  | s => (none, s)

/-- A search word at the head of a text, with the sign before it. -/
def readText? (s : List Char) : Option (Term × List Char) :=
  (readKey? (readMark s).2).map fun (word, rest) =>
    (.text (readMark s).1 (String.ofList word), rest)

/-- The term that a text denotes as a whole. -/
def Term.parse (token : String) : Except Reason Term :=
  if (Connector.ofWord? token).isSome then .error (.connector token) else
    match (readComparison? token.toList).or (readText? token.toList) with
    | none => .error (.unreadable token)
    | some (term, []) => .ok term
    | some (_, rest) => .error (.leftover (String.ofList rest) token)

/-- Reads a flat filter. A blank text has no terms; the first piece that is no term refuses the
whole. -/
def parse (text : String) : Except (Filter.Refusal Reason) (List Term) :=
  match (wordsOf text).mapM Term.parse with
  | .error reason => .error ⟨text, reason⟩
  | .ok terms => .ok terms

end Criteria.Flat
