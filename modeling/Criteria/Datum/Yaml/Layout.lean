import Criteria.Datum.Yaml.Scalar

/-!
# The layout of a YAML text

Turns a text into tokens. Indentation becomes the starts and ends of block collections, and a colon
makes a key of what stands before it: each place where a key may begin is kept as a candidate until
the colon comes, or until it can come no more. Reading fails where the layout forbids what follows.
-/

namespace Criteria.Yaml

/-- A place where a key may have begun. -/
structure Candidate where
  /-- How many tokens there were before it. -/
  count : Nat
  index : Nat
  line : Nat
  column : Nat
  /-- Nothing but a key may stand there. -/
  required : Bool

/-- An indentation inside another one: that of a block collection, or one column more than that of a
collection, which the values of its keys have to keep. -/
structure Margin where
  /-- The column of the indentation around it. -/
  outer : Int
  block : Bool

/-- A text while it is turned into tokens. -/
structure Layout where
  cursor : Cursor
  /-- More than the number of steps that any part of the text can take. -/
  bound : Nat
  tokens : Array Token := #[]
  /-- A key may begin here. -/
  keyAllowed : Bool := true
  candidate : Option Candidate := none
  /-- The candidates outside each flow collection that is open, innermost first. -/
  enclosing : List (Option Candidate) := []
  /-- The column of the block collection here, and the indentations around it, innermost first. -/
  indent : Int := -1
  margins : List Margin := []
  /-- The place at which the colon of a flow mapping needs no gap behind it. -/
  adjacent : Nat := 0
  /-- A brace or a question mark has begun a flow mapping, so that a colon begins none. -/
  explicit : Bool := false
  /-- For each open flow sequence the depth at which a colon has begun a mapping, innermost
  first. -/
  pairs : List (Option Nat) := []

namespace Layout

/-! ## Parts -/

/-- The innermost indentation is that of a block collection. -/
def isInBlock (l : Layout) : Bool := (l.margins.head?.map Margin.block).getD false

/-- How many flow collections are open. -/
def depth (l : Layout) : Nat := l.enclosing.length

def isFlow (l : Layout) : Bool := !l.enclosing.isEmpty

def moveTo (l : Layout) (c : Cursor) : Layout := { l with cursor := c }

def emit (l : Layout) (t : Token) : Layout := { l with tokens := l.tokens.push t }

/-- Puts a token before those that came behind a candidate. -/
def emitAt (l : Layout) (count : Nat) (t : Token) : Layout :=
  { l with tokens := l.tokens.insertIdxIfInBounds count t }

/-- Notes that a key may begin here. In a block collection a token at its own column has to be a
key. -/
def markCandidate (l : Layout) : Layout :=
  if l.keyAllowed then
    let c := l.cursor
    let required := !l.isFlow && l.isInBlock && l.indent == c.column
    { l with candidate := some ⟨l.tokens.size, c.index, c.line, c.column, required⟩ }
  else l

/-- Gives up the candidate, unless it has to be a key. -/
def dropCandidate? (l : Layout) : Option Layout :=
  if l.candidate.any Candidate.required then none else some { l with candidate := none }

/-- Gives up a candidate that is too far away: the colon of a key in a block stands on the same line
and at most 1024 characters behind the start of the key. -/
def dropStale? (l : Layout) : Option Layout :=
  match l.candidate with
  | some k =>
    let stale := k.line < l.cursor.line || k.index + 1024 < l.cursor.index
    if !l.isFlow && stale then l.dropCandidate? else some l
  | none => some l

/-! ## Indentation -/

/-- Asks for one more column than the block collection here has. -/
def indentValue (l : Layout) : Layout :=
  if !l.isFlow && l.isInBlock then
    { l with margins := ⟨l.indent, false⟩ :: l.margins, indent := l.indent + 1 }
  else l

/-- Takes back what `indentValue` has asked for. -/
def dedentValue (l : Layout) : Layout :=
  match l.margins with
  | m :: margins => if m.block then l else { l with indent := m.outer, margins := margins }
  | [] => l

/-- Begins a block collection at a column, unless it has begun already. Its start is put before the
tokens behind a candidate, if there is one. -/
def openBlock (l : Layout) (column : Nat) (shape : Shape) (count : Option Nat) : Layout :=
  if l.isFlow then l
  else
    let l := if l.indent ≤ column then l.dedentValue else l
    if l.indent < column then
      let l := { l with margins := ⟨l.indent, true⟩ :: l.margins, indent := column }
      match count with
      | some n => l.emitAt n (.blockStart shape)
      | none => l.emit (.blockStart shape)
    else l

/-- Leaves the indentations behind a column, the innermost of which are given. -/
def closeMargins (l : Layout) (column : Int) : List Margin → Layout
  | [] => l
  | m :: margins =>
    if column < l.indent then
      let l := { l with indent := m.outer, margins := margins }
      (if m.block then l.emit .blockEnd else l).closeMargins column margins
    else l

/-- Ends the block collections that are indented further than a column. -/
def closeBlocks (l : Layout) (column : Int) : Layout :=
  if l.isFlow then l else l.closeMargins column l.margins

/-! ## Gaps -/

/-- Moves to the next line, on which in a block a key may begin. -/
def newLine (l : Layout) : Layout :=
  { l with cursor := l.cursor.newLine, keyAllowed := l.keyAllowed || !l.isFlow }

/-- Blanks, line breaks and comments before the next token. A tab may not stand for the indentation
of a block. -/
def skipGap? (l : Layout) : Nat → Option Layout
  | 0 => none
  | fuel + 1 =>
    match l.cursor.rest with
    | [] => some l
    | a :: _ =>
      if a = '\t' ∧ !l.margins.isEmpty ∧ l.cursor.fresh ∧ l.cursor.column < l.indent then do
        let c ← l.cursor.skipTail?
        if isAtLineEnd c.rest then (l.moveTo c).skipGap? fuel else none
      else if isSpace a then (l.moveTo (l.cursor.pass 1)).skipGap? fuel
      else if isLineEnd a then l.newLine.skipGap? fuel
      else if a = '#' then (l.moveTo l.cursor.skipLine).skipGap? fuel
      else some l

/-- The gap behind a question mark, in which a tab may not stand. -/
def skipKeyGap (l : Layout) : Nat → Layout
  | 0 => l
  | fuel + 1 =>
    match l.cursor.rest with
    | [] => l
    | a :: _ =>
      if a = ' ' then (l.moveTo (l.cursor.pass 1)).skipKeyGap fuel
      else if isLineEnd a then l.newLine.skipKeyGap fuel
      else if a = '#' then (l.moveTo l.cursor.skipLine).skipKeyGap fuel
      else l

/-! ## Tokens -/

/-- Moves behind `n` characters and the blanks and comment that follow on the line. -/
def skipMark? (l : Layout) (n : Nat) : Option Layout :=
  ((l.cursor.take n).skipTail?).map l.moveTo

/-- Ends all blocks, as directives and markers do. -/
def endBlocks? (l : Layout) : Option Layout :=
  ((l.closeBlocks (-1)).dropCandidate?).map fun l => { l with keyAllowed := false }

def takeDirective? (l : Layout) : Option Layout := do
  let l ← l.endBlocks?
  let (token, c) ← readDirective? l.bound l.cursor
  return (l.moveTo c).emit token

def takeStart? (l : Layout) : Option Layout :=
  l.endBlocks?.map fun l => (l.moveTo (l.cursor.take 3)).emit .documentStart

/-- The end of a document, with nothing else on its line. -/
def takeEnd? (l : Layout) : Option Layout := do
  let l ← (← l.endBlocks?).skipMark? 3
  if isAtLineEnd l.cursor.rest then return l.emit .documentEnd else none

/-- The start of a flow collection. At most 255 of them may be open. -/
def openFlow? (l : Layout) (shape : Shape) : Option Layout := do
  let l := l.markCandidate.indentValue
  if 255 ≤ l.depth then none
  let l : Layout := { l with
    enclosing := l.candidate :: l.enclosing, candidate := none, keyAllowed := true
    explicit := l.explicit || shape = .mapping
    pairs := if shape = .sequence then none :: l.pairs else l.pairs }
  (l.skipMark? 1).map fun l => l.emit (.flowStart shape)

/-- Ends the mapping that a colon has begun inside a flow sequence. -/
def closePair (l : Layout) : Layout :=
  match l.pairs with
  | some depth :: pairs =>
    if depth = l.depth then
      { l with explicit := false, pairs := none :: pairs }.emit (.flowEnd .mapping)
    else l
  | _ => l

/-- The end of a flow collection. -/
def closeFlow? (l : Layout) (shape : Shape) : Option Layout := do
  let l ← l.dropCandidate?
  let l : Layout :=
    if shape = .sequence then { l.closePair with pairs := l.closePair.pairs.drop 1 } else l
  let l : Layout := { l with
    candidate := l.enclosing.headD none, enclosing := l.enclosing.drop 1, keyAllowed := false }
  let l ← l.skipMark? 1
  let l := if l.isFlow then { l with adjacent := l.cursor.index } else l
  return l.emit (.flowEnd shape)

/-- A comma, behind which a key may begin. -/
def takeComma? (l : Layout) : Option Layout := do
  let l ← l.dropCandidate?
  let l ← { l with keyAllowed := true }.closePair.skipMark? 1
  return l.emit .comma

/-- A dash before an item. Behind a tab no further dash may follow on the line. -/
def takeItem? (l : Layout) : Option Layout := do
  if l.isFlow ∨ !l.keyAllowed then none
  let l := (l.moveTo (l.cursor.take 1)).openBlock l.cursor.column .sequence none
  let tabbed := (l.cursor.rest.takeWhile isSpace).contains '\t'
  let l ← l.skipMark? 0
  let rest := l.cursor.rest
  if tabbed ∧ rest.head? = some '-' ∧ isEdge (rest.drop 1) then none
  let apart := isAhead (fun a => isLineEnd a || isFlowMark a) rest
  let l := if apart then l.indentValue else l
  let l ← l.dropCandidate?
  return { l with keyAllowed := true }.emit .item

/-- A question mark before a key. -/
def takeKey? (l : Layout) : Option Layout := do
  if !l.isFlow ∧ !l.keyAllowed then none
  let l :=
    if l.isFlow then { l with explicit := true } else l.openBlock l.cursor.column .mapping none
  let l ← l.dropCandidate?
  let l := { l with cursor := l.cursor.take 1, keyAllowed := !l.isFlow }
  let spaced := isAhead (fun a => a == ' ' || isLineEnd a) l.cursor.rest
  let l := l.skipKeyGap l.bound
  if !spaced ∨ l.cursor.rest.head? = some '\t' then none else return l.emit .key

/-- A colon before a value. It makes a key of its candidate, before which a mapping may begin;
without a candidate it follows a key behind a question mark, or none. Tabs alone do not set off a
value that begins with a dash or a character of a word. -/
def takeValue? (l : Layout) : Option Layout := do
  let start := l.cursor
  let pair := !l.pairs.isEmpty && !l.explicit
  let l := if pair then { l with pairs := some l.depth :: l.pairs.drop 1 } else l
  let l := l.moveTo (start.take 1)
  let blanks := l.cursor.rest.takeWhile isSpace
  let l ← if blanks.head? = some '\t' then l.skipMark? 0 else some l
  let bare := isAhead isWordChar l.cursor.rest
  if blanks.head? = some '\t' ∧ !blanks.contains ' ' ∧ bare then none
  let l ← match l.candidate with
    | some k => do
      if pair ∧ k.line < start.line then none
      let l := l.emitAt k.count .key
      let l := if pair then l.emitAt k.count (.flowStart .mapping) else l
      let l := (l.openBlock k.column .mapping (some k.count)).indentValue
      some { l with candidate := none, keyAllowed := false }
    | none => do
      let l := if pair then l.emit (.flowStart .mapping) else l
      if !l.isFlow ∧ !l.keyAllowed then none
      let l := (l.openBlock start.column .mapping none).indentValue
      some { l with keyAllowed := !l.isFlow }
  return l.emit .value

/-- A colon without a gap behind it inside a flow collection. A bracket may follow only if a quoted
key or a collection stands before the colon. -/
def takeFlowValue? (l : Layout) : Option Layout :=
  let opens := isAhead (fun a => a == '[' || a == '{') (l.cursor.rest.drop 1)
  if l.cursor.index ≠ l.adjacent ∧ opens then none else l.takeValue?

def takeAnchor? (l : Layout) (token : String → Token) : Option Layout :=
  (readAnchor? l.cursor).map fun (name, c) =>
    { l.markCandidate with cursor := c, keyAllowed := false }.emit (token name)

def takeTag? (l : Layout) : Option Layout :=
  (readTag? l.isFlow l.bound l.cursor).map fun (token, c) =>
    { l.markCandidate with cursor := c, keyAllowed := false }.emit token

def takeBlock? (l : Layout) (folded : Bool) : Option Layout := do
  let l := { l.markCandidate with keyAllowed := true }.dedentValue
  let (text, c) ← readBlock? folded l.indent l.bound l.cursor
  return (l.moveTo c).emit (.scalar true (String.ofList text))

/-- A quoted scalar and the gap behind it, at the end of which a colon needs no gap. -/
def takeQuoted? (l : Layout) (quote : Char) : Option Layout := do
  let l := { l.markCandidate with keyAllowed := false }
  let (text, c) ← readQuoted? l.isFlow l.indent quote l.bound l.cursor
  let l ← (l.moveTo c).skipGap? l.bound
  return { l with adjacent := l.cursor.index }.emit (.scalar true (String.ofList text))

/-- A plain scalar. If it ends with a line, a key may begin behind it. -/
def takePlain? (l : Layout) : Option Layout := do
  let l := l.markCandidate.dedentValue
  let (text, c) ← readPlain? l.isFlow l.indent l.bound l.cursor
  return { l with cursor := c, keyAllowed := c.fresh }.emit (.scalar false (String.ofList text))

/-- The token that begins with a character at the start of a line or behind a gap. -/
def take? (l : Layout) (a : Char) (rest : List Char) : Option Layout :=
  let margin := l.cursor.column == 0
  let gap := isEdge rest
  let flowNext := isAhead isFlowMark rest
  if margin && a == '%' then l.takeDirective?
  else if margin && isTriple '-' l.cursor.rest then l.takeStart?
  else if margin && isTriple '.' l.cursor.rest then l.takeEnd?
  else if l.cursor.column < l.indent then none
  else if a = '[' then l.openFlow? .sequence
  else if a = '{' then l.openFlow? .mapping
  else if a = ']' then l.closeFlow? .sequence
  else if a = '}' then l.closeFlow? .mapping
  else if a = ',' then l.takeComma?
  else if a = '-' ∧ gap then l.takeItem?
  else if a = '?' ∧ gap then l.takeKey?
  else if a = ':' ∧ gap then l.takeValue?
  else if a = ':' ∧ l.isFlow ∧ (flowNext ∨ l.cursor.index = l.adjacent) then l.takeFlowValue?
  else if a = '*' then l.takeAnchor? .alias
  else if a = '&' then l.takeAnchor? .anchor
  else if a = '!' then l.takeTag?
  else if (a = '|' ∨ a = '>') ∧ !l.isFlow then l.takeBlock? (a = '>')
  else if a = '\'' ∨ a = '"' then l.takeQuoted? a
  else if a = '%' ∨ a = '@' ∨ a = '`' then none
  else l.takePlain?

/-- All tokens of a text. -/
def takeAll? (l : Layout) : Nat → Option (List Token)
  | 0 => none
  | fuel + 1 => do
    let l ← (← l.skipGap? l.bound).dropStale?
    let l := l.closeBlocks l.cursor.column
    match l.cursor.rest with
    | [] =>
      let l ← l.dropCandidate?
      return (l.closeBlocks (-1)).tokens.toList
    | a :: rest => (← l.take? a rest).takeAll? fuel

end Layout

/-- The tokens of a text. -/
def tokens? (s : List Char) : Option (List Token) :=
  let bound := 2 * s.length + 4
  Layout.takeAll? { cursor := { rest := s }, bound := bound } bound

end Criteria.Yaml
