import Criteria.Main
import Criteria.Proofs.Binary64.Rounding
import Criteria.Proofs.Calendar.Language
import Criteria.Proofs.Calendar.Order
import Criteria.Proofs.Calendar.Rfc3339
import Criteria.Proofs.Datum.Json
import Criteria.Proofs.Document.Clauses
import Criteria.Proofs.Document.Json
import Criteria.Proofs.Document.Leaves
import Criteria.Proofs.Document.Meaning
import Criteria.Proofs.Document.Recovery
import Criteria.Proofs.Document.Shape
import Criteria.Proofs.Document.Sort
import Criteria.Proofs.Entries
import Criteria.Proofs.Filter.Acceptance
import Criteria.Proofs.Filter.Bounds
import Criteria.Proofs.Filter.Canonical
import Criteria.Proofs.Filter.Composition
import Criteria.Proofs.Filter.Cursor
import Criteria.Proofs.Filter.Grammar
import Criteria.Proofs.Filter.Layout
import Criteria.Proofs.Filter.Leaves
import Criteria.Proofs.Filter.Lexemes
import Criteria.Proofs.Filter.Pieces
import Criteria.Proofs.Filter.Printing
import Criteria.Proofs.Filter.Reading
import Criteria.Proofs.Filter.Reasons
import Criteria.Proofs.Filter.Runs
import Criteria.Proofs.Filter.Tokens
import Criteria.Proofs.Filter.Values
import Criteria.Proofs.Flat.Agreement
import Criteria.Proofs.Flat.Grammar
import Criteria.Proofs.Flat.Layout
import Criteria.Proofs.Flat.Rendering
import Criteria.Proofs.Literal.Classes
import Criteria.Proofs.Literal.Dates
import Criteria.Proofs.Literal.Inference
import Criteria.Proofs.Literal.Magnitude
import Criteria.Proofs.Options
import Criteria.Proofs.Options.Counts
import Criteria.Proofs.Options.SortOrder
import Criteria.Proofs.Params.Acceptance
import Criteria.Proofs.Params.Blank
import Criteria.Proofs.Params.History
import Criteria.Proofs.Params.Lookup
import Criteria.Proofs.Params.Validation
import Criteria.Proofs.Percent
import Criteria.Proofs.Program
import Criteria.Proofs.Query
import Criteria.Proofs.Search.Query
import Criteria.Proofs.Search.QueryString
import Criteria.Proofs.Text.Runs
import Criteria.Proofs.Text.Words
