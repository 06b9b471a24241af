import Criteria.Datum.Yaml

/-!
# Tokens of YAML

What a text is made of once its indentation has been turned into marks: every block collection has a
start and an end, every key and every value its mark, and scalars are texts. Tags, anchors and
directives are read here.
-/

namespace Criteria.Yaml

/-! ## Places in a text

A text is read from left to right with a cursor, which knows the characters that are left and where
they stand: the indentation of a block is the column at which it begins, and a key has to be on one
line with its colon. Here are the classes of characters that part a text, and the steps of a
cursor. -/

def isSpace (c : Char) : Bool := c == ' ' || c == '\t'

/-- The characters that end a line of a text that is read. -/
def isLineEnd (c : Char) : Bool := c == '\n' || c == '\r'

/-- The characters that part flow collections. -/
def isFlowMark (c : Char) : Bool := [',', '[', ']', '{', '}'].contains c

/-- The characters of names: of directives, and between the exclamation marks of a tag. -/
def isWordChar (c : Char) : Bool := c.isAlphanum || c == '-' || c == '_'

/-- A text that goes on with a character of a class. -/
def isAhead (p : Char → Bool) (s : List Char) : Bool := (s.head?.map p).getD false

/-- A text that goes on with a blank or the end of a line, or is at its end. -/
def isEdge : List Char → Bool
  | [] => true
  | c :: _ => isSpace c || isLineEnd c

/-- A text that has ended or goes on with the end of a line. -/
def isAtLineEnd : List Char → Bool
  | [] => true
  | c :: _ => isLineEnd c

/-- Three marks with a gap behind them, which begin or end a document at the start of a line. -/
def isTriple (mark : Char) (s : List Char) : Bool :=
  s.take 3 == List.replicate 3 mark && isEdge (s.drop 3)

/-- A place in a text. -/
structure Cursor where
  /-- The characters from here on. -/
  rest : List Char
  /-- How many characters have been passed. -/
  index : Nat := 0
  /-- How many lines have been passed. -/
  line : Nat := 0
  /-- How many characters have been passed on this line. -/
  column : Nat := 0
  /-- Nothing but blanks has been passed on this line. -/
  fresh : Bool := true
deriving Repr

namespace Cursor

/-- The place behind `n` more blanks. -/
def pass (c : Cursor) (n : Nat) : Cursor :=
  { c with rest := c.rest.drop n, index := c.index + n, column := c.column + n }

/-- The place behind `n` more characters on the same line. -/
def take (c : Cursor) (n : Nat) : Cursor := { c.pass n with fresh := false }

/-- The place behind a line break, if there is one here. -/
def newLine (c : Cursor) : Cursor :=
  match c.rest with
  | '\r' :: '\n' :: rest => ⟨rest, c.index + 2, c.line + 1, 0, true⟩
  | a :: rest => if isLineEnd a then ⟨rest, c.index + 1, c.line + 1, 0, true⟩ else c
  | [] => c

/-- The place behind the blanks here. -/
def skipSpaces (c : Cursor) : Cursor := c.pass (c.rest.takeWhile isSpace).length

/-- The end of the line. -/
def skipLine (c : Cursor) : Cursor := c.take (c.rest.takeWhile (!isLineEnd ·)).length

/-- The place behind blanks and a comment, which blanks have to set apart. -/
def skipTail? (c : Cursor) : Option Cursor :=
  let d := c.skipSpaces
  if d.rest.head? == some '#' then (if d.index = c.index then none else some d.skipLine) else some d

/-- A line that begins or ends a document. -/
def isAtMarker (c : Cursor) : Bool :=
  c.column == 0 && (isTriple '-' c.rest || isTriple '.' c.rest)

/-- The characters up to the first one outside a class, and the place behind them. -/
def span (c : Cursor) (p : Char → Bool) : List Char × Cursor :=
  let taken := c.rest.takeWhile p
  (taken, if taken.isEmpty then c else c.take taken.length)

end Cursor

/-! ## Tokens -/

/-- The two shapes of collections. -/
inductive Shape where
  | sequence
  | mapping
deriving Repr, DecidableEq

/-- A piece of a text. -/
inductive Token where
  /-- A directive that names a version of the language. -/
  | version
  /-- A directive that declares what a handle stands for, with which tags may begin. -/
  | handle (name uri : String)
  | documentStart
  | documentEnd
  | blockStart (shape : Shape)
  | blockEnd
  | flowStart (shape : Shape)
  | flowEnd (shape : Shape)
  /-- A dash before an item of a block sequence. -/
  | item
  /-- A comma between the parts of a flow collection. -/
  | comma
  | key
  | value
  | alias (name : String)
  | anchor (name : String)
  | tag (handle name : String)
  | scalar (quoted : Bool) (text : String)
deriving Repr, DecidableEq

/-! ## Tags, anchors and directives

The tokens that say something about the nodes behind them. A tag is written out between angle
brackets, or as a handle and a name; a directive at the head of a document declares what a handle
stands for. -/

/-! ### Addresses -/

/-- The characters of addresses. -/
def isUriChar (c : Char) : Bool := c.isAlphanum || "-#;/?:@&=+$,_.!~*'()[]%".toList.contains c

/-- The characters of the names of tags. -/
def isTagChar (c : Char) : Bool := isUriChar c && !isFlowMark c && c != '!'

/-- The number of bytes of a character by its first byte. -/
def byteCount? (byte : Nat) : Option Nat :=
  if byte < 0x80 then some 1
  else if 0xC0 ≤ byte ∧ byte < 0xE0 then some 2
  else if 0xE0 ≤ byte ∧ byte < 0xF0 then some 3
  else if 0xF0 ≤ byte ∧ byte < 0xF8 then some 4
  else none

/-- A percent sign and the two hexadecimal digits of a byte. -/
def readByte? (c : Cursor) : Option (Nat × Cursor) :=
  match c.rest with
  | '%' :: a :: b :: _ => (readBase? 16 [a, b]).map fun n => (n, c.take 3)
  | _ => none

/-- The bytes of a character that follow `code`, each between `0x80` and `0xBF`. -/
def readBytes? (code : Nat) : Nat → Cursor → Option (Nat × Cursor)
  | 0, c => some (code, c)
  | count + 1, c => do
    let (byte, c) ← readByte? c
    if 0x80 ≤ byte ∧ byte < 0xC0 then readBytes? (256 * code + byte) count c else none

/-- A character of an address. An escape gives the bytes of a character, which are taken together as
the number of that character. -/
def readUriChar? (c : Cursor) : Option (Char × Cursor) :=
  match c.rest with
  | '%' :: _ => do
    let (byte, c) ← readByte? c
    let (code, c) ← readBytes? byte ((← byteCount? byte) - 1) c
    if code.isValidChar then return (Char.ofNat code, c) else none
  | a :: _ => some (a, c.take 1)
  | [] => none

/-- The characters of a class, unescaped, behind those read, which are given backwards. -/
def readUri? (isAllowed : Char → Bool) (read : List Char) :
    Nat → Cursor → Option (List Char × Cursor)
  | 0, _ => none
  | fuel + 1, c =>
    if isAhead isAllowed c.rest then do
      let (a, c) ← readUriChar? c
      readUri? isAllowed (a :: read) fuel c
    else some (read.reverse, c)

/-! ### Tags -/

/-- An exclamation mark, a word, and perhaps another exclamation mark. -/
def readHandle? (c : Cursor) : Option (List Char × Cursor) :=
  if c.rest.head? == some '!' then
    let (word, c) := (c.take 1).span isWordChar
    if c.rest.head? == some '!' then some ('!' :: word ++ ['!'], c.take 1)
    else some ('!' :: word, c)
  else none

/-- A tag: its handle, which is empty for an address in brackets, and its name. -/
def readTag? (flow : Bool) (fuel : Nat) (c : Cursor) : Option (Token × Cursor) := do
  let (handle, name, c) ←
    if c.rest.take 2 == ['!', '<'] then do
      let (uri, c) ← readUri? isUriChar [] fuel (c.take 2)
      if c.rest.head? == some '>' then some ([], uri, c.take 1) else none
    else do
      let (handle, c) ← readHandle? c
      let (name, c) ← readUri? isTagChar [] fuel c
      if 2 ≤ handle.length ∧ handle.getLast? = some '!' then
        if name.isEmpty then none else some (handle, name, c)
      else
        let name := handle.drop 1 ++ name
        some (if name.isEmpty then ([], ['!'], c) else (['!'], name, c))
  let ends := isEdge c.rest || (flow && isAhead isFlowMark c.rest)
  if ends then return (.tag (String.ofList handle) (String.ofList name), c) else none

/-! ### Anchors -/

/-- The characters of anchors. -/
def isAnchorChar (c : Char) : Bool :=
  !(isSpace c || isLineEnd c || isFlowMark c || c == '\ufeff')

/-- The name behind the mark of an anchor or an alias. -/
def readAnchor? (c : Cursor) : Option (String × Cursor) :=
  let (name, c) := (c.take 1).span isAnchorChar
  if name.isEmpty then none else some (String.ofList name, c)

/-! ### Directives -/

/-- A part of a version: up to nine digits. -/
def readVersionPart? (c : Cursor) : Option Cursor :=
  let (digits, c) := c.span Char.isDigit
  if digits.isEmpty ∨ 9 < digits.length then none else some c

/-- The version behind the name of its directive. -/
def readVersion? (c : Cursor) : Option (Token × Cursor) := do
  let c ← readVersionPart? c.skipSpaces
  if c.rest.head? == some '.' then
    let c ← readVersionPart? (c.take 1)
    return (.version, c)
  else none

/-- A handle and what it stands for, behind the name of their directive. What a handle stands for
begins with an exclamation mark or a character of a tag. -/
def readDeclaration? (fuel : Nat) (c : Cursor) : Option (Token × Cursor) := do
  let (handle, c) ← readHandle? c.skipSpaces
  let c := c.skipSpaces
  let start := isAhead (fun a => a == '!' || isTagChar a) c.rest
  if handle.getLast? = some '!' ∧ start then
    let (uri, c) ← readUri? isUriChar [] fuel c
    if isEdge c.rest then return (.handle (String.ofList handle) (String.ofList uri), c) else none
  else none

/-- A directive on a line of its own. One of an unknown name declares nothing. -/
def readDirective? (fuel : Nat) (c : Cursor) : Option (Token × Cursor) := do
  let (name, c) := (c.take 1).span isWordChar
  if name.isEmpty ∨ !isEdge c.rest then none
  let (token, c) ←
    if name = "YAML".toList then readVersion? c
    else if name = "TAG".toList then readDeclaration? fuel c
    else some (.handle "" "", c.skipLine)
  let c ← c.skipTail?
  if isAtLineEnd c.rest then return (token, c.newLine) else none

end Criteria.Yaml
