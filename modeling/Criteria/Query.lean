import Criteria.Document.Query
import Criteria.Flat.Parser
import Criteria.Percent

/-!
# Queries

From parameters to the query of a backend. Either all parameters are acceptable, or the first one
that is not is named and logged.
-/

namespace Criteria

/-! ## Backends

The two kinds of system that queries are made for. Each has a label and a second name, the name of
a product that speaks its language. -/

/-- The kind of system that a query is made for. -/
inductive Backend where
  /-- A search engine, queried through a URI. -/
  | search
  /-- A document database, queried with documents. -/
  | document
deriving Repr, DecidableEq, Inhabited

namespace Backend

def label : Backend → String
  | .search => "search"
  | .document => "document"

/-- The backend that a name stands for as it is spelled. -/
def ofName? (s : String) : Option Backend :=
  if s = "search" ∨ s = "elasticsearch" then some .search
  else if s = "document" ∨ s = "mongodb" then some .document
  else none

/-- The backend that a name stands for in any mixture of ASCII cases. -/
def ofNameAnyCase? (s : String) : Option Backend := ofName? (s.map Char.toLower)

def invalidMessage (name : String) : String := "invalid backend: " ++ name

/-- Where nothing is said, queries are made for a document database. -/
def fallback : Backend := .document

end Backend

/-! ## Queries for search engines

A query for a search engine is a URI query string: the options, and, if there is a filter, the
filter in the language of the engine together with the connector that it puts between terms. -/

/-- A query for a search engine. -/
structure SearchQuery where
  start : UInt64
  size : UInt64
  sort : SortOrder
  source : List String
  defaultOperator : Connector
  /-- The filter in the language of the engine; empty if there is none. -/
  filter : String
deriving Repr, DecidableEq

namespace SearchQuery

/-- The query string before it is encoded. -/
def rawText (q : SearchQuery) : String :=
  "?&from=" ++ toString q.start.toNat ++ "&size=" ++ toString q.size.toNat ++
    "&sort=" ++ q.sort.display ++ "&_source=" ++ " ".intercalate q.source ++
    if q.filter = "" then ""
    else "&default_operator=" ++ q.defaultOperator.word ++ "&q=" ++ q.filter

/-- The query string as it stands after the path of a URI. -/
def text (q : SearchQuery) : String := Percent.encodeUri q.rawText

/-- Reads the flat filter among the parameters. -/
def readFilter (p : Params) : Validation (List Flat.Term) :=
  let value := (p.get? Parameter.filter.name).getD ""
  match Flat.parse value with
  | .ok terms => pure terms
  | .error refusal => Validation.reject .filter refusal.filter (some refusal.reason.message)

/-- The query that the parameters ask for. -/
def read (p : Params) : Validation SearchQuery := do
  let options ← Options.read p
  let terms ← readFilter p
  return {
    start := options.skip
    size := options.limit
    sort := options.sort
    source := options.fields
    defaultOperator := options.defaultOperator
    filter := Flat.render terms }

end SearchQuery

/-! ## Queries of either kind -/

/-- A query for either kind of system. -/
inductive Query where
  | search (query : SearchQuery)
  | document (query : DocumentQuery)

namespace Query

/-- The query that parameters ask for on a backend. -/
def read (b : Backend) (p : Params) : Validation Query :=
  match b with
  | .search => search <$> SearchQuery.read p
  | .document => document <$> DocumentQuery.read p

/-- The query that parameters ask for on a backend or the first parameter that is not acceptable,
with the warnings that were logged. -/
def ofParams (b : Backend) (p : Params) : Except InvalidParameter Query × List Warning :=
  (read b p).outcome

end Query

end Criteria
