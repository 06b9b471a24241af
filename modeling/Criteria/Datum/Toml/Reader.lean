import Criteria.Datum.Toml.Scalar

/-!
# Reading TOML

A text is read as headers and assignments, each on a line of its own. Arrays and inline tables may
span lines, and strings in triple quotes hold their line breaks. Neither values nor dotted keys may
be nested deeper than `maxDepth`.
-/

namespace Criteria.Toml

/-! ## Tables

The tables of a text while it is read. Every table and every value is given once: a header opens a
table that no header or dotted key has opened before, dotted keys go on with tables that no header
has opened, and a header in double brackets adds a table to a list of its own. -/

/-- How a table came to be: on the way to another one, by its own header, or by dotted keys. -/
inductive Origin where
  | implicit
  | header
  | dotted
deriving Repr, DecidableEq

/-- What stands under a key. -/
inductive Item where
  | value (datum : Datum)
  | table (origin : Origin) (entries : List (String × Item))
  /-- Tables under headers in double brackets, latest first. -/
  | list (tables : List (List (String × Item)))

/-- The entries of a table. -/
abbrev Table := List (String × Item)

/-- Changes the table at the end of a path of headers; a list stands for its latest table. -/
def descend? (change : Table → Option Table) : Table → List String → Option Table
  | table, [] => change table
  | table, key :: path =>
    match Entries.get? table key with
    | none => (descend? change [] path).map fun t => Entries.put table key (.table .implicit t)
    | some (.table origin inner) =>
      (descend? change inner path).map fun t => Entries.put table key (.table origin t)
    | some (.list (latest :: others)) =>
      (descend? change latest path).map fun t => Entries.put table key (.list (t :: others))
    | some (.list []) | some (.value _) => none

/-- Writes a value at the end of a path of dotted keys. -/
def assign? (value : Datum) (key : String) : Table → List String → Option Table
  | table, [] =>
    match Entries.get? table key with
    | none => some (Entries.put table key (.value value))
    | some _ => none
  | table, step :: path =>
    match Entries.get? table step with
    | none => (assign? value key [] path).map fun t => Entries.put table step (.table .dotted t)
    | some (.table origin inner) =>
      if origin = .header then none
      else (assign? value key inner path).map fun t => Entries.put table step (.table origin t)
    | some _ => none

/-- Opens a table under a header. -/
def openTable? (root : Table) (path : List String) (key : String) : Option Table :=
  descend? (fun table =>
    match Entries.get? table key with
    | none => some (Entries.put table key (.table .header []))
    | some (.table .implicit inner) => some (Entries.put table key (.table .header inner))
    | some _ => none) root path

/-- Adds a table to the list under a header in double brackets. -/
def openListed? (root : Table) (path : List String) (key : String) : Option Table :=
  descend? (fun table =>
    match Entries.get? table key with
    | none => some (Entries.put table key (.list [[]]))
    | some (.list tables) => some (Entries.put table key (.list ([] :: tables)))
    | some _ => none) root path

mutual

/-- The data that an item stands for. -/
def Item.toDatum : Item → Datum
  | .value d => d
  | .table _ entries => .object (tableData entries)
  | .list tables => .array (listData [] tables)

/-- The data of the entries of a table. -/
def tableData : List (String × Item) → List (String × Datum)
  | [] => []
  | (key, item) :: rest => (key, item.toDatum) :: tableData rest

/-- The data of tables that are given latest first. -/
def listData (later : List Datum) : List (List (String × Item)) → List Datum
  | [] => later
  | table :: rest => listData (.object (tableData table) :: later) rest

end

/-- How many arrays and inline tables may enclose a value, and how many keys may have points between
them. -/
def maxDepth : Nat := 80

def isSpace (c : Char) : Bool := c == ' ' || c == '\t'

def skipSpace (s : List Char) : List Char := s.dropWhile isSpace

/-- The characters that may stand in comments and in strings on one line. -/
def isAllowed (c : Char) : Bool := c == '\t' || (0x20 ≤ c.toNat && c != '\x7f')

/-- A text without a comment at its head. A comment ends before the line does. -/
def skipComment? (s : List Char) : Option (List Char) :=
  match s with
  | '#' :: rest =>
    let rest := rest.dropWhile isAllowed
    match rest with
    | [] | '\n' :: _ | '\r' :: '\n' :: _ => some rest
    | _ => none
  | s => some s

/-- A text without the break at its head. -/
def readBreak? : List Char → Option (List Char)
  | '\n' :: rest => some rest
  | '\r' :: '\n' :: rest => some rest
  | _ => none

/-- Blanks, breaks and comments. -/
def skipLines? : Nat → List Char → Option (List Char)
  | 0, s => some s
  | fuel + 1, s =>
    match skipComment? (skipSpace s) with
    | none => none
    | some s =>
      match readBreak? s with
      | some rest => skipLines? fuel rest
      | none => some s

/-! ## Strings -/

/-- The character of `width` hexadecimal digits. -/
def readHex? (width : Nat) (s : List Char) : Option (Char × List Char) :=
  let digits := s.take width
  let n := baseValue 16 digits
  if digits.length = width ∧ digits.all isHexDigit ∧ n.isValidChar then
    some (Char.ofNat n, s.drop width)
  else none

/-- An escape behind its backslash. -/
def readEscape? : List Char → Option (Char × List Char)
  | 'b' :: rest => some ('\x08', rest)
  | 't' :: rest => some ('\t', rest)
  | 'n' :: rest => some ('\n', rest)
  | 'f' :: rest => some ('\x0c', rest)
  | 'r' :: rest => some ('\r', rest)
  | 'e' :: rest => some ('\x1b', rest)
  | '"' :: rest => some ('"', rest)
  | '\\' :: rest => some ('\\', rest)
  | 'x' :: rest => readHex? 2 rest
  | 'u' :: rest => readHex? 4 rest
  | 'U' :: rest => readHex? 8 rest
  | _ => none

/-- A string behind its opening quote; what has been read is given backwards. Only with `escapes`
does a backslash begin one. -/
def readLine? (quote : Char) (escapes : Bool) (read : List Char) :
    Nat → List Char → Option (String × List Char)
  | 0, _ => none
  | _ + 1, [] => none
  | fuel + 1, c :: rest =>
    if c = quote then some (String.ofList read.reverse, rest)
    else if c = '\\' ∧ escapes then
      match readEscape? rest with
      | some (d, rest) => readLine? quote escapes (d :: read) fuel rest
      | none => none
    else if isAllowed c then readLine? quote escapes (c :: read) fuel rest
    else none

/-- What follows a backslash at the end of a line: the text from the next character that is no
blank. -/
def skipLineEnd? (s : List Char) : Option (List Char) :=
  (readBreak? (skipSpace s)).map fun rest =>
    rest.dropWhile fun c => isSpace c || c == '\n' || c == '\r'

/-- A string behind three opening quotes; what has been read is given backwards. Up to two quotes
may stand before the closing ones. -/
def readLines? (quote : Char) (escapes : Bool) (read : List Char) :
    Nat → List Char → Option (String × List Char)
  | 0, _ => none
  | _ + 1, [] => none
  | fuel + 1, c :: rest =>
    if c = quote then
      let quotes := (c :: rest).takeWhile (· = quote)
      if quotes.length < 3 then readLines? quote escapes (c :: read) fuel rest
      else if 5 < quotes.length then none
      else some (String.ofList ((quotes.drop 3 ++ read).reverse), (c :: rest).drop quotes.length)
    else if c = '\\' ∧ escapes then
      match skipLineEnd? rest with
      | some rest => readLines? quote escapes read fuel rest
      | none =>
        match readEscape? rest with
        | some (d, rest) => readLines? quote escapes (d :: read) fuel rest
        | none => none
    else
      match readBreak? (c :: rest) with
      | some rest =>
        readLines? quote escapes (if c = '\r' then '\n' :: '\r' :: read else '\n' :: read) fuel rest
      | none => if isAllowed c then readLines? quote escapes (c :: read) fuel rest else none

/-- A string behind three quotes, of which a break right behind them is no part. -/
def readTriple? (quote : Char) (escapes : Bool) (s : List Char) : Option (String × List Char) :=
  let s := (readBreak? s).getD s
  readLines? quote escapes [] (s.length + 1) s

/-- A string of any kind at the head of a text. -/
def readString? : List Char → Option (String × List Char)
  | '"' :: '"' :: '"' :: rest => readTriple? '"' true rest
  | '"' :: rest => readLine? '"' true [] (rest.length + 1) rest
  | '\'' :: '\'' :: '\'' :: rest => readTriple? '\'' false rest
  | '\'' :: rest => readLine? '\'' false [] (rest.length + 1) rest
  | _ => none

/-! ## Keys -/

def isBareKeyChar (c : Char) : Bool := c.isAlphanum || c == '_' || c == '-'

/-- One key: bare, or a string on one line. -/
def readSimpleKey? (s : List Char) : Option (String × List Char) :=
  match s with
  | '"' :: rest => readLine? '"' true [] (rest.length + 1) rest
  | '\'' :: rest => readLine? '\'' false [] (rest.length + 1) rest
  | s =>
    let name := s.takeWhile isBareKeyChar
    if name.isEmpty then none else some (String.ofList name, s.dropWhile isBareKeyChar)

/-- At most the given number of keys with points between them: those before the last, the last, and
what follows. -/
def readKeys? (before : List String) : Nat → List Char → Option (List String × String × List Char)
  | 0, _ => none
  | count + 1, s =>
    match readSimpleKey? (skipSpace s) with
    | none => none
    | some (name, rest) =>
      match skipSpace rest with
      | '.' :: rest => readKeys? (name :: before) count rest
      | rest => some (before.reverse, name, rest)

/-- A key, which may have several parts. -/
def readKey? (s : List Char) : Option (List String × String × List Char) := readKeys? [] maxDepth s

/-! ## Values -/

mutual

/-- A value at the head of a text, which may hold as many levels of arrays and tables as `depth`
says. -/
def readValue? (depth : Nat) : Nat → List Char → Option (Datum × List Char)
  | 0, _ => none
  | fuel + 1, s =>
    match s, depth with
    | '[' :: rest, depth + 1 => readItems? depth [] fuel rest
    | '{' :: rest, depth + 1 => readEntries? depth [] fuel rest
    | c :: rest, _ =>
      if c = '"' ∨ c = '\'' then (readString? (c :: rest)).map fun (t, rest) => (.text t, rest)
      else readScalar? (c :: rest)
    | [], _ => none

/-- The items of an array behind those read, latest first. -/
def readItems? (depth : Nat) (read : List Datum) : Nat → List Char → Option (Datum × List Char)
  | 0, _ => none
  | fuel + 1, s => do
    match ← skipLines? s.length s with
    | ']' :: rest => return (.array read.reverse, rest)
    | s =>
      let (d, rest) ← readValue? depth fuel s
      match ← skipLines? rest.length rest with
      | ',' :: rest => readItems? depth (d :: read) fuel rest
      | ']' :: rest => return (.array (d :: read).reverse, rest)
      | _ => none

/-- The entries of an inline table behind those read. -/
def readEntries? (depth : Nat) (read : Table) : Nat → List Char → Option (Datum × List Char)
  | 0, _ => none
  | fuel + 1, s => do
    match ← skipLines? s.length s with
    | '}' :: rest => return (.object (tableData read), rest)
    | s =>
      let (path, key, rest) ← readKey? s
      match ← skipLines? rest.length rest with
      | '=' :: rest =>
        let (d, rest) ← readValue? depth fuel (← skipLines? rest.length rest)
        let read ← assign? d key read path
        match ← skipLines? rest.length rest with
        | ',' :: rest => readEntries? depth read fuel rest
        | '}' :: rest => return (.object (tableData read), rest)
        | _ => none
      | _ => none

end

/-! ## Lines -/

/-- What has been read, and the header under which assignments stand. -/
structure State where
  root : Table
  path : List String

/-- The keys of a header and what follows its brackets. -/
def readHeader? (listed : Bool) (s : List Char) : Option (List String × String × List Char) := do
  let (path, key, rest) ← readKey? s
  match rest, listed with
  | ']' :: ']' :: rest, true => return (path, key, rest)
  | ']' :: rest, false => return (path, key, rest)
  | _, _ => none

/-- A header or an assignment at the head of a line. -/
def readStatement? (state : State) (s : List Char) : Option (State × List Char) :=
  match s with
  | '[' :: '[' :: rest => do
    let (path, key, rest) ← readHeader? true rest
    return (⟨← openListed? state.root path key, path ++ [key]⟩, rest)
  | '[' :: rest => do
    let (path, key, rest) ← readHeader? false rest
    return (⟨← openTable? state.root path key, path ++ [key]⟩, rest)
  | s => do
    let (path, key, rest) ← readKey? s
    match rest with
    | '=' :: rest =>
      let (d, rest) ← readValue? maxDepth (2 * rest.length + 2) (skipSpace rest)
      let root ← descend? (fun table => assign? d key table path) state.root state.path
      return ({ state with root := root }, rest)
    | _ => none

/-- All statements. The text is at most `fuel` characters long. -/
def readAll? (state : State) : Nat → List Char → Option State
  | 0, _ => none
  | fuel + 1, s => do
    match ← skipLines? s.length s with
    | [] => return state
    | s =>
      let (state, rest) ← readStatement? state s
      let rest ← skipComment? (skipSpace rest)
      match rest, readBreak? rest with
      | [], _ => return state
      | _, some rest => readAll? state fuel rest
      | _, none => none

/-- The data that a text denotes. -/
def read? (s : List Char) : Option Datum :=
  (readAll? ⟨[], []⟩ (s.length + 1) s).map fun state => .object (tableData state.root)

end Criteria.Toml
