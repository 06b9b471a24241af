import Criteria.Datum.Yaml.Token

/-!
# Scalars of YAML

The text of a scalar that may go on over several lines: plain, between quotes, or as a block.
-/

namespace Criteria.Yaml

/-! ## Plain scalars over lines

Where a plain scalar ends: at a colon before a gap, at a comment behind one, at a mark of the flow
collection around it, and at a line that is not indented further than its block. Its lines are
joined by blanks; of several line breaks in a row the first is left out. -/

/-- A text whose first character goes on with a plain scalar. -/
def isPlainAhead (flow : Bool) : List Char → Bool
  | [] => false
  | c :: rest =>
    if isSpace c || isLineEnd c then false
    else if c == ':' then !(isEdge rest || (flow && isAhead isFlowMark rest))
    else !(flow && isFlowMark c)

/-- The characters that go on with a plain scalar, backwards and before those read. -/
def takePlain (flow : Bool) (read : List Char) : List Char → List Char
  | [] => read
  | c :: rest => if isPlainAhead flow (c :: rest) then takePlain flow (c :: read) rest else read

/-- What stands between two runs of a plain scalar: the blanks, given backwards, or whether a line
has ended and how many empty lines follow it. -/
structure PlainGap where
  blanks : List Char := []
  broken : Bool := false
  breaks : Nat := 0

/-- What a gap leaves in the text, backwards. -/
def PlainGap.fold (g : PlainGap) (fresh : Bool) : List Char :=
  if fresh then (if g.broken ∧ g.breaks = 0 then [' '] else List.replicate g.breaks '\n')
  else g.blanks

/-- The gap here and the place behind it. Where a tab stands for indentation, the line may hold
nothing but a comment. -/
def skipPlainGap? (indent : Int) (g : PlainGap) : Nat → Cursor → Option (PlainGap × Cursor)
  | 0, _ => none
  | fuel + 1, c =>
    match c.rest with
    | [] => some (g, c)
    | a :: _ =>
      if isLineEnd a then
        if c.fresh then skipPlainGap? indent { g with breaks := g.breaks + 1 } fuel c.newLine
        else skipPlainGap? indent { g with blanks := [], broken := true } fuel c.newLine
      else if isSpace a then
        if !c.fresh then skipPlainGap? indent { g with blanks := a :: g.blanks } fuel (c.pass 1)
        else if a = '\t' ∧ c.column < indent then do
          let c ← c.skipTail?
          if isAtLineEnd c.rest then skipPlainGap? indent g fuel c else none
        else skipPlainGap? indent g fuel (c.pass 1)
      else some (g, c)

/-- The text of a plain scalar behind what has been read, which is given backwards, and a gap. Its
further lines begin at column `indent` or behind it. -/
def readPlainText? (flow : Bool) (indent : Int) (read : List Char) (g : PlainGap) :
    Nat → Cursor → Option (List Char × Cursor)
  | 0, _ => none
  | fuel + 1, c => do
    if c.isAtMarker ∨ c.rest.head? = some '#' then return (read.reverse, c)
    if flow ∧ c.rest.head? = some '-' ∧ isAhead isFlowMark (c.rest.drop 1) then none
    let (read, g, c) :=
      if isPlainAhead flow c.rest then
        let run := takePlain flow [] c.rest
        (run ++ (g.fold c.fresh ++ read), {}, c.take run.length)
      else (read, g, c)
    if !c.rest.isEmpty ∧ isEdge c.rest then
      let (g, c) ← skipPlainGap? indent g fuel c
      if !flow ∧ c.column < indent then return (read.reverse, c)
      else readPlainText? flow indent read g fuel c
    else return (read.reverse, c)

/-- A plain scalar at its first character, inside a block at column `parent`. -/
def readPlain? (flow : Bool) (parent : Int) (fuel : Nat) (c : Cursor) :
    Option (List Char × Cursor) :=
  if flow ∧ c.column < parent + 1 then none else readPlainText? flow (parent + 1) [] {} fuel c

/-! ## Quoted scalars

The text between quotes of either kind. A line break inside counts as a blank and several as one
less, without the blanks around them. Only double quotes have escapes, by which a line break can be
left out too. No line may be indented less than the block around the scalar. -/

/-- The escapes of one character. -/
def simpleEscape? (c : Char) : Option Char :=
  match c with
  | '0' => some '\x00' | 'a' => some '\x07' | 'b' => some '\x08' | 't' => some '\t'
  | '\t' => some '\t' | 'n' => some '\n' | 'v' => some '\x0b' | 'f' => some '\x0c'
  | 'r' => some '\r' | 'e' => some '\x1b' | ' ' => some ' ' | '"' => some '"'
  | '/' => some '/' | '\\' => some '\\' | 'N' => some '\u0085' | '_' => some '\u00a0'
  | 'L' => some '\u2028' | 'P' => some '\u2029'
  | _ => none

/-- The count of hexadecimal digits behind the letter of an escape. -/
def escapeWidth? (c : Char) : Option Nat :=
  match c with
  | 'x' => some 2
  | 'u' => some 4
  | 'U' => some 8
  | _ => none

/-- An escape behind its backslash: the character and the length of the escape. -/
def readEscape? : List Char → Option (Char × Nat)
  | [] => none
  | c :: rest =>
    match escapeWidth? c with
    | none => (simpleEscape? c).map (·, 1)
    | some width => do
      let digits := rest.take width
      let n ← readBase? 16 digits
      if digits.length = width ∧ n.isValidChar then return (Char.ofNat n, width + 1) else none

/-- The characters up to the next gap or the closing quote, behind those read, which are given
backwards. The truth value says whether a backslash has taken away a line break. -/
def readRun? (quote : Char) (read : List Char) :
    Nat → Cursor → Option (List Char × Bool × Cursor)
  | 0, _ => none
  | fuel + 1, c =>
    match c.rest with
    | [] => some (read, false, c)
    | a :: rest =>
      if isEdge (a :: rest) then some (read, false, c)
      else if a = quote then
        if quote = '\'' ∧ rest.head? = some quote then
          readRun? quote (quote :: read) fuel (c.take 2)
        else some (read, false, c)
      else if a = '\\' ∧ quote = '"' then
        if isAhead isLineEnd rest then some (read, true, (c.take 1).newLine)
        else do
          let (b, length) ← readEscape? rest
          readRun? quote (b :: read) fuel (c.take (length + 1))
      else readRun? quote (a :: read) fuel (c.take 1)

/-- Counts the line breaks of a gap, and gives the place behind it. A tab may not stand for
indentation on a further line. -/
def skipBreaks? (indent : Int) (further : Bool) (breaks : Nat) :
    Nat → Cursor → Option (Nat × Cursor)
  | 0, _ => none
  | fuel + 1, c =>
    match c.rest with
    | [] => some (breaks, c)
    | a :: _ =>
      if isLineEnd a then skipBreaks? indent true (breaks + 1) fuel c.newLine
      else if isSpace a then
        if further ∧ a = '\t' ∧ c.column < indent then none
        else skipBreaks? indent further breaks fuel (c.pass 1)
      else some (breaks, c)

/-- The text of a scalar up to its closing quote, behind what has been read, which is given
backwards. -/
def readQuotedText? (quote : Char) (indent : Int) (read : List Char) :
    Nat → Cursor → Option (List Char × Cursor)
  | 0, _ => none
  | fuel + 1, c => do
    if c.isAtMarker ∨ c.rest.isEmpty ∨ c.column < indent then none
    let (read, joined, gap) ← readRun? quote read fuel c
    if gap.rest.head? = some quote then return (read.reverse, gap)
    let (breaks, next) ← skipBreaks? indent joined 0 fuel gap
    let between :=
      if joined then List.replicate breaks '\n'
      else if breaks = 0 then (gap.rest.takeWhile isSpace).reverse
      else if breaks = 1 then [' ']
      else List.replicate (breaks - 1) '\n'
    readQuotedText? quote indent (between ++ read) fuel next

/-- What may follow a quoted scalar that began on line `line`. -/
def endsQuoted (flow : Bool) (line : Nat) (c : Cursor) : Bool :=
  isAtLineEnd c.rest ||
    match c.rest with
    | ':' :: _ => flow || c.line == line
    | a :: _ => flow && [',', ']', '}'].contains a
    | [] => true

/-- A scalar at its opening quote. -/
def readQuoted? (flow : Bool) (indent : Int) (quote : Char) (fuel : Nat) (start : Cursor) :
    Option (List Char × Cursor) := do
  let (text, c) ← readQuotedText? quote indent [] fuel (start.take 1)
  let c ← (c.take 1).skipTail?
  if endsQuoted flow start.line c then return (text, c) else none

/-! ## Block scalars

The text of the indented lines below a bar or an angle bracket, literal or folded. The marks behind
it say how the text ends and how far its lines are indented; without a mark the first line that is
not empty tells, and no line of blanks before it may be indented further. -/

/-- What becomes of the breaks at the end of a block scalar. -/
inductive Chomp where
  | strip
  | clip
  | keep
deriving Repr, DecidableEq

def readChomp? : List Char → Option Chomp
  | '-' :: _ => some .strip
  | '+' :: _ => some .keep
  | _ => none

/-- A digit other than zero, which says how far the lines are indented. -/
def readStep? : List Char → Option Nat
  | c :: _ => if '1' ≤ c && c ≤ '9' then some (c.toNat - 48) else none
  | [] => none

/-- The marks behind the indicator of a block scalar in either order. -/
def readHeader (c : Cursor) : Chomp × Option Nat × Cursor :=
  match readChomp? c.rest with
  | some chomp =>
    let c := c.take 1
    match readStep? c.rest with
    | some step => (chomp, some step, c.take 1)
    | none => (chomp, none, c)
  | none =>
    match readStep? c.rest with
    | some step =>
      let c := c.take 1
      match readChomp? c.rest with
      | some chomp => (chomp, some step, c.take 1)
      | none => (.clip, some step, c)
    | none => (.clip, none, c)

/-- The line breaks before the first line that is not empty, the widest indentation up to there, and
that line. -/
def skipEmptyLines (widest breaks : Nat) : Nat → Cursor → Nat × Nat × Cursor
  | 0, c => (widest, breaks, c)
  | fuel + 1, c =>
    let c := c.pass (c.rest.takeWhile (· == ' ')).length
    let widest := max widest c.column
    if isAhead isLineEnd c.rest then skipEmptyLines widest (breaks + 1) fuel c.newLine
    else (widest, breaks, c)

/-- The line breaks before the next line that has more than its indentation, and that line. -/
def skipIndent (indent breaks : Nat) : Nat → Cursor → Nat × Cursor
  | 0, c => (breaks, c)
  | fuel + 1, c =>
    let c := c.pass ((c.rest.take (indent - c.column)).takeWhile (· == ' ')).length
    if isAhead isLineEnd c.rest then skipIndent indent (breaks + 1) fuel c.newLine
    else (breaks, c)

/-- The text of a block scalar while it is read, backwards: the breaks behind its last line, which
began with a blank or not, are not in it yet. -/
structure BlockText where
  read : List Char := []
  /-- The break of the last line, and those of empty lines behind it. -/
  broken : Bool := false
  breaks : Nat := 0
  indented : Bool := false

/-- Adds a line. Folded lines are joined by a blank, unless one of them begins with a blank or empty
lines stand between them. -/
def BlockText.add (t : BlockText) (folded : Bool) (line : List Char) : BlockText :=
  let indented := isAhead isSpace line
  let gap :=
    if folded && t.broken && !t.indented && !indented then
      if t.breaks = 0 then [' '] else List.replicate t.breaks '\n'
    else List.replicate ((if t.broken then 1 else 0) + t.breaks) '\n'
  { read := line.reverse ++ (gap ++ t.read), broken := false, breaks := 0, indented := indented }

/-- The lines of a block scalar that are left. -/
def readBlockLines (folded : Bool) (indent : Nat) (t : BlockText) :
    Nat → Cursor → BlockText × Cursor
  | 0, c => (t, c)
  | fuel + 1, c =>
    if c.column = indent ∧ !c.rest.isEmpty ∧ !(indent = 0 ∧ c.isAtMarker) then
      let line := c.rest.takeWhile (!isLineEnd ·)
      let t := t.add folded line
      let c := c.pass line.length
      if c.rest.isEmpty then (t, c)
      else
        let (breaks, c) := skipIndent indent 0 fuel c.newLine
        readBlockLines folded indent { t with broken := true, breaks := breaks } fuel c
    else (t, c)

/-- The end of a text: a last line that the end of all text cuts off gets a break too. -/
def BlockText.finish (t : BlockText) (chomp : Chomp) (indent : Nat) (c : Cursor) : List Char :=
  let cutOff := c.rest.isEmpty && max indent 1 ≤ c.column
  let breaks := (if t.broken then 1 else 0) + (if cutOff then 1 else 0)
  match chomp with
  | .strip => t.read.reverse
  | .clip => (List.replicate breaks '\n' ++ t.read).reverse
  | .keep => (List.replicate (breaks + t.breaks) '\n' ++ t.read).reverse

/-- A block scalar at its indicator, inside a block at column `parent`. -/
def readBlock? (folded : Bool) (parent : Int) (fuel : Nat) (start : Cursor) :
    Option (List Char × Cursor) := do
  let (chomp, step, c) := readHeader (start.take 1)
  let c ← c.skipTail?
  if !isAtLineEnd c.rest then none
  let c := c.newLine
  if c.rest.head? == some '\t' then none
  let (indent, breaks, c) :=
    match step with
    | some n =>
      let indent := parent.toNat + n
      let (breaks, c) := skipIndent indent 0 fuel c
      (indent, breaks, c)
    | none =>
      let (widest, breaks, c) := skipEmptyLines 0 0 fuel c
      (max widest (parent + 1).toNat, breaks, c)
  if c.rest.isEmpty then
    let count := if c.line = start.line then 0 else
      match chomp with
      | .strip => 0
      | .clip => 1
      | .keep => max breaks 1
    return (List.replicate count '\n', c)
  else if c.column < indent ∧ parent < c.column then none
  else
    let (t, c) := readBlockLines folded indent { breaks := breaks } fuel c
    return (t.finish chomp indent c, c)

end Criteria.Yaml
