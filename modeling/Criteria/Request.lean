import Criteria.Datum.Json
import Criteria.Datum.Toml.Reader
import Criteria.Datum.Yaml.Reader
import Criteria.Query

/-!
# Requests

A request file names a backend and gives parameters, both of which may be missing.
`Request.ofDatum?` takes a request out of the data that such a file holds. The keys at the root of
the data are paths: `params.limit` stands for the entry `limit` of the entry `params`.
-/

namespace Criteria

/-- A backend, if one is named, and parameters. -/
structure Request where
  backend : Option Backend
  params : Params

namespace Request

/-- What a file that says nothing asks for. -/
def empty : Request := ⟨none, Params.empty⟩

/-! ## Paths -/

/-- A step into a tree. -/
inductive Step where
  | key (name : String)
  | index (position : Int)
deriving Repr, DecidableEq

def isNameChar (c : Char) : Bool := c.isAlphanum || c == '_' || c == '-'

/-- An optional minus sign and digits as an integer. -/
def readInteger? (s : List Char) : Option Int :=
  let (negative, digits) := match s with
    | '-' :: rest => (true, rest)
    | s => (false, s)
  if digits.isEmpty || !digits.all Char.isDigit then none
  else
    let n : Int := digits.foldl (fun n c => 10 * n + (c.toNat - 48)) 0
    some (if negative then -n else n)

/-- The further steps of a path: `.name` into an object and `[position]` into an array. The text is
at most `fuel` characters long. -/
def readSteps? : Nat → List Char → Option (List Step)
  | 0, s => if s.isEmpty then some [] else none
  | fuel + 1, s =>
    match s with
    | [] => some []
    | '.' :: rest =>
      let name := rest.takeWhile isNameChar
      if name.isEmpty then none
      else (readSteps? fuel (rest.dropWhile isNameChar)).map (.key (String.ofList name) :: ·)
    | '[' :: rest =>
      let isSpace (c : Char) : Bool := c == ' ' || c == '\t'
      let inner := rest.takeWhile (· ≠ ']')
      let trimmed := ((inner.dropWhile isSpace).reverse.dropWhile isSpace).reverse
      match readInteger? trimmed, rest.dropWhile (· ≠ ']') with
      | some n, _ :: rest =>
        if fitsWord n then (readSteps? fuel rest).map (.index n :: ·) else none
      | _, _ => none
    | _ => none

/-- The path that a key at the root stands for. A key that is no path stands for itself. -/
def readPath (key : String) : List Step :=
  let s := key.toList
  let name := s.takeWhile isNameChar
  match name.isEmpty, readSteps? s.length (s.dropWhile isNameChar) with
  | false, some steps => .key (String.ofList name) :: steps
  | _, _ => [.key key]

/-- The entries of an object; other data has none. -/
def entriesOf : Datum → List (String × Datum)
  | .object entries => entries
  | _ => []

/-- Writes data over data: the entries of objects one by one, everything else as a whole. -/
def overlay (old new : Datum) : Datum :=
  match new with
  | .object entries => .object (Entries.putAll (entriesOf old) entries)
  | d => d

/-- Writes data at a path. What lies on the way and is no object becomes one; a position makes an
array, of which nothing else is kept. -/
def write (old : Datum) (path : List Step) (new : Datum) : Datum :=
  match path with
  | [] => overlay old new
  | .key name :: path =>
    let entries := entriesOf old
    let inner := (Entries.get? entries name).getD .null
    .object (Entries.put entries name (write inner path new))
  | .index _ :: path => .array [write .null path new]

/-- The data with the paths at its root followed. -/
def followPaths (entries : List (String × Datum)) : Datum :=
  entries.foldl (fun d e => write d (readPath e.1) e.2) (.object [])

/-! ## Requests in data -/

/-- Numbers are written positionally, and without a point if they are whole. -/
def numberStyle : Binary64.Style where
  tie := .awayFromZero
  positional := none
  pointZero := false
  plus := ""
  infinity := "inf"
  nan := "NaN"

/-- The text that a single value stands for. -/
def valueText? : Datum → Option String
  | .text s => some s
  | .boolean b => some (if b then "true" else "false")
  | .integer n => some (toString n)
  | .number x => some (x.write numberStyle)
  | .null | .array _ | .object _ => none

/-- The parameters that data stands for: an object of single values, or nothing at all. -/
def params? : Option Datum → Option Params
  | none => some Params.empty
  | some (.object entries) =>
    (entries.mapM fun e => (valueText? e.2).map (e.1, ·)).map Params.ofList
  | some _ => none

/-- The backend that data stands for: its name, an object with its name as the only key, or
nothing. -/
def backend? : Option Datum → Option (Option Backend)
  | none | some .null => some none
  | some (.text name) => (Backend.ofName? name).map some
  | some (.object [(name, _)]) => (Backend.ofName? name).map some
  | some _ => none

/-- The request that data stands for. -/
def ofDatum? : Datum → Option Request
  | .object entries => do
    let entries := entriesOf (followPaths entries)
    let backend ← backend? (Entries.get? entries "backend")
    let params ← params? (Entries.get? entries "params")
    return ⟨backend, params⟩
  | _ => none

/-! ## Files

Files that hold requests, in one of three formats, which the extension of the file tells. -/

/-- The formats of request files. -/
inductive FileFormat where
  | json
  | yaml
  | toml
deriving Repr, DecidableEq

/-- The format that an extension stands for. -/
def FileFormat.ofExtension? (extension : String) : Option FileFormat :=
  if extension = "json" then some .json
  else if extension = "yaml" ∨ extension = "yml" then some .yaml
  else if extension = "toml" then some .toml
  else none

/-- The data that a text holds. -/
def FileFormat.read? (format : FileFormat) (s : List Char) : Option Datum :=
  match format with
  | .json => Json.read? s
  | .yaml => Yaml.read? s
  | .toml => Toml.read? s

/-- A file, by the extension of its name and its text. -/
structure File where
  extension : String
  text : String

/-- The characters of a text without the mark of its byte order. -/
def withoutMark (text : String) : List Char :=
  match text.toList with
  | '\ufeff' :: rest => rest
  | s => s

/-- The request that a file holds. -/
def ofFile? (file : File) : Option Request := do
  let format ← FileFormat.ofExtension? file.extension
  ofDatum? (← format.read? (withoutMark file.text))

end Request

end Criteria
