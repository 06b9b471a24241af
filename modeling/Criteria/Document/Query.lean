import Criteria.Filter.Parser
import Criteria.Options

/-!
# Queries for document databases

A filter becomes a document of a document database, and a query is such a document with the options
of a search in it.
-/

namespace Criteria

/-! ## Documents

The values of a document database and the documents that hold them. A document keeps its entries
in order, since the order of sort keys matters. `Native.toDatum` gives the plain data that stands
for a value in text formats: dates and patterns become objects that name their type. -/

/-- A value of a document database. -/
inductive Native where
  | boolean (value : Bool)
  | integer (value : Int)
  | double (value : Binary64)
  | text (value : String)
  | date (instant : Instant)
  | regex (pattern options : String)
  | array (items : List Native)
  | document (entries : List (String × Native))
deriving Inhabited

/-- Keys with values, in order. -/
abbrev Document := List (String × Native)

namespace Native

/-- A pattern that matches in any mixture of cases. -/
def anyCase (pattern : String) : Native := .regex pattern "i"

/-- The value that a literal denotes in the database. -/
def ofLiteral : Literal → Native
  | .date t => .date t
  | .number x => .double x
  | .boolean b => .boolean b
  | .pattern source => anyCase source

/-- A document with one entry, as a value. -/
def single (key : String) (value : Native) : Native := .document [(key, value)]

mutual

/-- The plain data that stands for a value; a date may have no text. -/
def toDatum : Native → Except Instant.FormatError Datum
  | .boolean b => .ok (.boolean b)
  | .integer n => .ok (.integer n)
  | .double x => .ok (.number x)
  | .text s => .ok (.text s)
  | .date t => t.rfc3339.map fun s => .object [("$date", .text s)]
  | .regex pattern options =>
    .ok (.object [("$regularExpression",
      .object [("pattern", .text pattern), ("options", .text options)])])
  | .array items => (itemsToData [] items).map .array
  | .document entries => (entriesToData [] entries).map .object

/-- The data of further items behind those done, which are given latest first. -/
def itemsToData (done : List Datum) : List Native → Except Instant.FormatError (List Datum)
  | [] => .ok done.reverse
  | item :: items =>
    match item.toDatum with
    | .error e => .error e
    | .ok d => itemsToData (d :: done) items

/-- The data of further entries behind those done, which are given latest first. -/
def entriesToData (done : List (String × Datum)) :
    List (String × Native) → Except Instant.FormatError (List (String × Datum))
  | [] => .ok done.reverse
  | (key, value) :: entries =>
    match value.toDatum with
    | .error e => .error e
    | .ok d => entriesToData ((key, d) :: done) entries

end

end Native

/-! ## Filters as documents

A filter becomes a query document: a comparison is an entry under the field's name, a node is an
array of clauses under its connector's operator. A query may ask for a free-text search only once
at a level, so the search words among the operands of a node share the clause of the first of
them. -/

/-- The query operator of a comparator; likeness has none. -/
def Comparator.queryOperator? : Comparator → Option String
  | .like => none
  | .equal => some "$eq"
  | .notEqual => some "$ne"
  | .greater => some "$gt"
  | .greaterEqual => some "$gte"
  | .less => some "$lt"
  | .lessEqual => some "$lte"

/-- The query operator of a connector. -/
def Connector.queryOperator : Connector → String
  | .and => "$and"
  | .or => "$or"

namespace Filter

/-- The clause that searches for words. -/
def textClause (words : String) : Document := [("$text", Native.single "$search" (.text words))]

/-- The clause that compares a field with a value. -/
def comparisonClause (field : String) (c : Comparator) (value : Literal) : Document :=
  match c.queryOperator? with
  | none => [(field, Native.ofLiteral value)]
  | some operator => [(field, Native.single operator (Native.ofLiteral value))]

/-- The search word of a filter that is one. -/
def word? : Filter → Option String
  | .text word => some word
  | _ => none

/-- The search words among some operands, one blank between them. -/
def searchWords (operands : List Filter) : String :=
  " ".intercalate (operands.filterMap word?)

/-- The document of a node: its clauses in an array, or its clause if it has only one. -/
def chainDocument (c : Connector) : List Document → Document
  | [only] => only
  | clauses => [(c.queryOperator, .array (clauses.map .document))]

mutual

/-- The query document of a filter. -/
def toDocument : Filter → Document
  | .comparison field c value => comparisonClause field c value
  | .text word => textClause word
  | .node c operands => chainDocument c (clauses (searchWords operands) false [] operands)

/-- The clauses of further operands behind those done, which are given latest first. The words of
all operands make up one clause, which stands where the first word stands. -/
def clauses (words : String) (placed : Bool) (done : List Document) : List Filter → List Document
  | [] => done.reverse
  | .text _ :: rest =>
    if placed then clauses words true done rest
    else clauses words true (textClause words :: done) rest
  | .comparison field c value :: rest =>
    clauses words placed (comparisonClause field c value :: done) rest
  | .node c operands :: rest =>
    clauses words placed ((Filter.node c operands).toDocument :: done) rest

end

/-- The query document of a filter that may be absent; without one it is empty. -/
def documentOf (f : Option Filter) : Document :=
  match f with
  | none => []
  | some f => f.toDocument

end Filter

/-! ## Queries

The default connector is checked but has no bearing on the query, because the filter names its
own. -/

/-- The sort document: each field once, where it first occurs, with the direction of its last
occurrence as `1` or `-1`. -/
def SortOrder.toDocument (order : SortOrder) : Document :=
  Entries.putAll [] (order.map fun k =>
    (k.field, .integer (match k.direction with | .ascending => 1 | .descending => -1)))

/-- A query for a document database. -/
structure DocumentQuery where
  skip : UInt64
  limit : UInt64
  sort : Document
  /-- The fields to give; all of them if it is absent. -/
  projection : Option (List String)
  filter : Document

namespace DocumentQuery

/-- Reads the filter among the parameters. -/
def readFilter (p : Params) : Validation (Option Filter) :=
  let value := (p.get? Parameter.filter.name).getD ""
  match Filter.parse value with
  | .ok f => pure f
  | .error refusal => Validation.reject .filter refusal.filter (some refusal.reason.message)

/-- The query that the parameters ask for. -/
def read (p : Params) : Validation DocumentQuery := do
  let options ← Options.read p
  let filter ← readFilter p
  return {
    skip := options.skip
    limit := options.limit
    sort := options.sort.toDocument
    projection := if options.fields.isEmpty then none else some options.fields
    filter := Filter.documentOf filter }

/-- The plain data that stands for a query. -/
def toDatum (q : DocumentQuery) : Except Instant.FormatError Datum := do
  let sort ← (Native.document q.sort).toDatum
  let filter ← (Native.document q.filter).toDatum
  let projection := match q.projection with
    | none => Datum.null
    | some fields => .array (fields.map .text)
  return .object [
    ("skip", .integer q.skip.toNat),
    ("limit", .integer q.limit.toNat),
    ("sort", sort),
    ("projection", projection),
    ("filter", filter)]

end DocumentQuery

end Criteria
