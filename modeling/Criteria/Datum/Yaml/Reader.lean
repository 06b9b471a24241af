import Criteria.Datum.Yaml.Layout

/-!
# Reading YAML

The tokens of a text are read as at most one document. A node may bear an anchor, by which aliases
name it further on, and a tag; what a collection leaves out is null, such as the value of a key
without a colon. All readers are bounded by the number of tokens.
-/

namespace Criteria.Yaml

/-! ## What nodes denote

What a scalar or a collection of a YAML text denotes. A plain scalar is resolved by its form, or by
its tag if it has one. Numbers with a fraction keep their text, by which keys are compared. -/

/-- A scalar that has been resolved, or a collection. -/
inductive Node where
  | null
  | boolean (value : Bool)
  | integer (value : Int)
  | real (source : String)
  | text (value : String)
  /-- A scalar that does not suit its tag, or a collection that is named inside itself. -/
  | unreadable
  /-- A collection, which may hold what is no data. -/
  | collection (datum : Option Datum)
deriving Inhabited

/-- The kinds of scalars. -/
inductive KeyKind where
  | null
  | boolean
  | integer
  | real
  | text
deriving Repr, DecidableEq

/-- A scalar that is a key: keys of different kinds differ even if they are written alike. -/
structure Key where
  kind : KeyKind
  name : String
deriving Repr, DecidableEq

namespace Node

/-- The key that a scalar is. -/
def key? : Node → Option Key
  | .null => some ⟨.null, ""⟩
  | .boolean b => some ⟨.boolean, if b then "true" else "false"⟩
  | .integer n => some ⟨.integer, toString n⟩
  | .real source => some ⟨.real, source⟩
  | .text s => some ⟨.text, s⟩
  | .unreadable | .collection _ => none

/-- The data that a node denotes; infinity and what is no number denote none. -/
def datum? : Node → Option Datum
  | .null | .unreadable => some .null
  | .boolean b => some (.boolean b)
  | .integer n => some (.integer n)
  | .real source => (Scientific.readBinary64? source.toList).map .number
  | .text s => some (.text s)
  | .collection d => d

end Node

/-! ### Scalars -/

/-- An integer of 64 bits in a base with an optional sign. -/
def readSigned? (base : Nat) (s : List Char) : Option Int :=
  let n := match s with
    | '-' :: rest => (readBase? base rest).map fun n => -(n : Int)
    | '+' :: rest => (readBase? base rest).map fun n => (n : Int)
    | s => (readBase? base s).map fun n => (n : Int)
  n.filter fitsWord

/-- The integer that a plain scalar denotes: decimal, or with the mark of a base. -/
def readInteger? (s : List Char) : Option Int :=
  match s with
  | '0' :: 'x' :: rest => readSigned? 16 rest
  | '0' :: 'o' :: rest => readSigned? 8 rest
  | '+' :: rest => readSigned? 10 rest
  | s => readSigned? 10 s

/-- The truth value that a plain scalar denotes, in lower case, in capitals, or with one. -/
def readBoolean? (s : String) : Option Bool :=
  if ["true", "True", "TRUE"].contains s then some true
  else if ["false", "False", "FALSE"].contains s then some false
  else none

/-- The names of infinity and of what is no number, or a number that holds a digit. -/
def isReal (s : String) : Bool :=
  [".inf", ".Inf", ".INF", "+.inf", "+.Inf", "+.INF", "-.inf", "-.Inf", "-.INF",
    ".nan", ".NaN", ".NAN"].contains s || (Scientific.readBinary64? s.toList).isSome

/-- What a plain scalar denotes by its form. -/
def resolve (s : String) : Node :=
  if ["", "~", "null"].contains s then .null
  else match readBoolean? s, readInteger? s.toList with
    | some b, _ => .boolean b
    | none, some n => .integer n
    | none, none => if isReal s then .real s else .text s

/-- What a plain scalar denotes under a tag of the core schema with a name. -/
def resolveAs (name : String) (s : String) : Node :=
  if name = "bool" then ((readBoolean? s).map .boolean).getD .unreadable
  else if name = "int" then ((readSigned? 10 s.toList).map .integer).getD .unreadable
  else if name = "float" then (if isReal s then .real s else .unreadable)
  else if name = "null" then (if s = "~" ∨ s = "null" then .null else .unreadable)
  else .text s

/-! ### Collections -/

/-- The sequence of some nodes. -/
def sequenceOf (items : List Node) : Node := .collection ((items.mapM Node.datum?).map .array)

/-- Keys and values out of nodes that come in turn. Where a key is due, a node that cannot be read
is passed over; a key without a value is left out. -/
def pairsOf : List Node → List (Node × Node)
  | .unreadable :: rest => pairsOf rest
  | key :: value :: rest => (key, value) :: pairsOf rest
  | [_] => []
  | [] => []

/-- The data of an entry. Only scalars that are not null are keys of data. -/
def entryOf? (entry : Node × Node) : Option (String × Datum) := do
  let key ← entry.1.key?
  if key.kind = .null then none else return (key.name, ← entry.2.datum?)

/-- The mapping of nodes that are keys and values in turn. It may have no key twice; of keys of
different kinds that are written alike the last one holds. -/
def mappingOf? (nodes : List Node) : Option Node :=
  let entries := pairsOf nodes
  if (entries.filterMap fun entry => entry.1.key?).Nodup then
    some (.collection ((entries.mapM entryOf?).map fun named => .object (Entries.putAll [] named)))
  else none

/-! ## Anchors and handles -/

/-- What anchors stand for. Every anchor has a number, since one may be set twice; a name stands for
the anchor that has been set last, even while its node is not complete. -/
structure Anchors where
  names : List (String × Nat) := []
  nodes : List (Nat × Node) := []

namespace Anchors

/-- Sets an anchor, of which the number is returned. -/
def set (a : Anchors) (name : String) : Nat × Anchors :=
  (a.names.length, { a with names := (name, a.names.length) :: a.names })

/-- Notes the node of the anchor with a number. -/
def record (a : Anchors) (number : Option Nat) (node : Node) : Anchors :=
  match number with
  | some n => { a with nodes := (n, node) :: a.nodes }
  | none => a

/-- The node that an alias names. -/
def get? (a : Anchors) (name : String) : Option Node :=
  (a.names.lookup name).map fun n => (a.nodes.lookup n).getD .unreadable

end Anchors

/-- The handle that tags of the core schema have. -/
def coreHandle : String := "tag:yaml.org,2002:"

/-- What a tag says about a plain scalar: the name of a tag of the core schema, or that it is a
text. A handle between two exclamation marks has to be declared, but for `!!`. -/
def schemaName? (handles : List (String × String)) (handle name : String) : Option String :=
  let known (uri : String) : String := if uri = coreHandle then name else "str"
  match handles.lookup handle with
  | some uri => some (known uri)
  | none =>
    if handle = "!!" then some (known coreHandle)
    else if 2 ≤ handle.length ∧ handle.startsWith "!" ∧ handle.endsWith "!" then none
    else some (known handle)

/-! ## Nodes -/

/-- The tokens that are left, and what names in them stand for. -/
structure Input where
  tokens : List Token
  handles : List (String × String) := []
  anchors : Anchors := {}

/-- The anchor and the tag before a node. -/
structure Properties where
  anchor : Option Nat := none
  tag : Option String := none

/-- A tag before a node. -/
def readNodeTag? (p : Properties) (input : Input) : Option (Properties × Input) :=
  match input.tokens with
  | .tag handle name :: rest =>
    (schemaName? input.handles handle name).map fun tag =>
      ({ p with tag := some tag }, { input with tokens := rest })
  | _ => some (p, input)

/-- An anchor before a node. -/
def readNodeAnchor (p : Properties) (input : Input) : Properties × Input :=
  match input.tokens with
  | .anchor name :: rest =>
    let (number, anchors) := input.anchors.set name
    ({ p with anchor := some number }, { input with tokens := rest, anchors := anchors })
  | _ => (p, input)

/-- An anchor and a tag before a node, in either order. -/
def readProperties? (input : Input) : Option (Properties × Input) :=
  match input.tokens with
  | .anchor _ :: _ =>
    let (p, input) := readNodeAnchor {} input
    readNodeTag? p input
  | .tag _ _ :: _ => (readNodeTag? {} input).map fun (p, input) => readNodeAnchor p input
  | _ => some ({}, input)

/-- What a scalar with properties denotes. -/
def scalarOf (p : Properties) (quoted : Bool) (text : String) : Node :=
  if quoted then .text text
  else match p.tag with
    | some name => resolveAs name text
    | none => resolve text

/-- A token that ends a part of a block collection, so that the part is null. -/
def endsBlockPart (tokens : List Token) : Bool :=
  match tokens with
  | .key :: _ | .value :: _ | .blockEnd :: _ => true
  | _ => false

/-- A token that ends the value in a flow collection, so that the value is null. -/
def endsFlowValue (shape : Shape) (tokens : List Token) : Bool :=
  match tokens with
  | .comma :: _ => true
  | .flowEnd s :: _ => s == shape
  | _ => false

mutual

/-- A node. Inside a flow collection it is no block collection; behind the mark of a key or a colon
it may be a sequence whose dashes stand at the column of the key. -/
def readNode? (block unindented : Bool) : Nat → Input → Option (Node × Input)
  | 0, _ => none
  | fuel + 1, input =>
    match input.tokens with
    | .alias name :: rest => (input.anchors.get? name).map (·, { input with tokens := rest })
    | _ => do
      let (p, input) ← readProperties? input
      let (node, input) ←
        match input.tokens with
        | .scalar quoted text :: rest =>
          some (scalarOf p quoted text, { input with tokens := rest })
        | .flowStart .sequence :: rest => readFlowItems? true [] fuel { input with tokens := rest }
        | .flowStart .mapping :: rest => readFlowParts? true [] fuel { input with tokens := rest }
        | .item :: _ => if unindented then readItems? false [] fuel input else emptyNode? p input
        | .blockStart .sequence :: rest =>
          if block then readItems? true [] fuel { input with tokens := rest }
          else emptyNode? p input
        | .blockStart .mapping :: rest =>
          if block then readParts? [] fuel { input with tokens := rest }
          else emptyNode? p input
        | _ => emptyNode? p input
      return (node, { input with anchors := input.anchors.record p.anchor node })

/-- A node of which there is nothing but properties. -/
def emptyNode? (p : Properties) (input : Input) : Option (Node × Input) :=
  if p.anchor.isSome ∨ p.tag.isSome then some (scalarOf p false "", input) else none

/-- The items of a block sequence behind those read, latest first. One that is not indented ends
where no dash follows. -/
def readItems? (indented : Bool) (read : List Node) : Nat → Input → Option (Node × Input)
  | 0, _ => none
  | fuel + 1, input =>
    match input.tokens with
    | .item :: rest =>
      let input := { input with tokens := rest }
      let isEmpty := match rest with
        | .item :: _ | .blockEnd :: _ => true
        | .key :: _ | .value :: _ => !indented
        | _ => false
      if isEmpty then readItems? indented (.null :: read) fuel input
      else do
        let (node, input) ← readNode? true false fuel input
        readItems? indented (node :: read) fuel input
    | .blockEnd :: rest =>
      some (sequenceOf read.reverse, if indented then { input with tokens := rest } else input)
    | _ => if indented then none else some (sequenceOf read.reverse, input)

/-- The keys and values of a block mapping behind those read, latest first. -/
def readParts? (read : List Node) : Nat → Input → Option (Node × Input)
  | 0, _ => none
  | fuel + 1, input =>
    match input.tokens with
    | .blockEnd :: rest => (mappingOf? read.reverse).map (·, { input with tokens := rest })
    | .key :: rest => do
      let (key, input) ← readPart? fuel { input with tokens := rest }
      let (value, input) ← readValue? fuel input
      readParts? (value :: key :: read) fuel input
    | .value :: _ => do
      let (value, input) ← readValue? fuel input
      readParts? (value :: .null :: read) fuel input
    | _ => none

/-- The value of a block mapping behind its colon, which is null without one. -/
def readValue? : Nat → Input → Option (Node × Input)
  | 0, _ => none
  | fuel + 1, input =>
    match input.tokens with
    | .value :: rest => readPart? fuel { input with tokens := rest }
    | _ => some (.null, input)

/-- A key or a value of a block mapping, which is null if there is nothing. -/
def readPart? : Nat → Input → Option (Node × Input)
  | 0, _ => none
  | fuel + 1, input =>
    if endsBlockPart input.tokens then some (.null, input) else readNode? true true fuel input

/-- The items of a flow sequence behind those read, latest first. -/
def readFlowItems? (first : Bool) (read : List Node) : Nat → Input → Option (Node × Input)
  | 0, _ => none
  | fuel + 1, input => do
    let tokens ← match input.tokens with
      | .flowEnd .sequence :: _ => some input.tokens
      | .comma :: rest => some (if first then input.tokens else rest)
      | tokens => if first then some tokens else none
    match tokens with
    | .flowEnd .sequence :: rest => return (sequenceOf read.reverse, { input with tokens := rest })
    | .key :: rest =>
      let (pair, input) ← readPair? fuel { input with tokens := rest }
      readFlowItems? false (pair :: read) fuel input
    | _ =>
      let (node, input) ← readNode? false false fuel { input with tokens := tokens }
      readFlowItems? false (node :: read) fuel input

/-- The mapping of one key behind its mark in a flow sequence. -/
def readPair? : Nat → Input → Option (Node × Input)
  | 0, _ => none
  | fuel + 1, input => do
    let (key, input) ←
      match input.tokens with
      | .value :: rest | .comma :: rest | .flowEnd .sequence :: rest =>
        some (.null, { input with tokens := rest })
      | _ => readNode? false false fuel input
    let (value, input) ← readFlowValue? .sequence fuel input
    return (← mappingOf? [key, value], input)

/-- The value inside a flow collection behind its colon, which is null without one. -/
def readFlowValue? (shape : Shape) : Nat → Input → Option (Node × Input)
  | 0, _ => none
  | fuel + 1, input =>
    match input.tokens with
    | .value :: rest =>
      let input := { input with tokens := rest }
      if endsFlowValue shape rest then some (.null, input) else readNode? false false fuel input
    | _ => some (.null, input)

/-- The keys and values of a flow mapping behind those read, latest first. -/
def readFlowParts? (first : Bool) (read : List Node) : Nat → Input → Option (Node × Input)
  | 0, _ => none
  | fuel + 1, input => do
    let tokens ← match input.tokens with
      | .flowEnd .mapping :: _ => some input.tokens
      | .comma :: rest => some (if first then input.tokens else rest)
      | tokens => if first then some tokens else none
    let input := { input with tokens := tokens }
    match tokens with
    | .flowEnd .mapping :: rest =>
      return (← mappingOf? read.reverse, { input with tokens := rest })
    | .key :: rest =>
      let input := { input with tokens := rest }
      let isEmpty := match rest with
        | .value :: _ => true
        | _ => endsFlowValue .mapping rest
      let (key, input) ←
        if isEmpty then some (.null, input) else readNode? false false fuel input
      let (value, input) ← readFlowValue? .mapping fuel input
      readFlowParts? false (value :: key :: read) fuel input
    | .value :: _ =>
      let (value, input) ← readFlowValue? .mapping fuel input
      readFlowParts? false (value :: .null :: read) fuel input
    | _ =>
      let (key, input) ← readNode? false false fuel input
      readFlowParts? false (.null :: key :: read) fuel input

end

/-! ## Documents -/

/-- The directives before a document: a version once at most, and the handle that has been declared
by the last one. -/
def readDirectives? (versioned : Bool) (handles : List (String × String)) :
    List Token → Option (List (String × String) × List Token)
  | .version :: rest => if versioned then none else readDirectives? true [] rest
  | .handle name uri :: rest => readDirectives? versioned [(name, uri)] rest
  | rest => some (handles, rest)

def isDocumentEnd : Token → Bool
  | .documentEnd => true
  | _ => false

/-- The node of a document behind its start, which may be empty. -/
def readContent? (input : Input) : Option (Node × Input) :=
  match input.tokens with
  | [] | .version :: _ | .handle _ _ :: _ | .documentStart :: _ | .documentEnd :: _ =>
    some (.null, input)
  | tokens => readNode? true false (2 * tokens.length + 2) input

/-- A document with its marks and directives, which need a marker behind them. -/
def readDocument? (tokens : List Token) : Option (Node × Input) := do
  let (handles, rest) ← readDirectives? false [] tokens
  match rest with
  | .documentStart :: rest => readContent? { tokens := rest, handles := handles }
  | _ =>
    if rest.length = tokens.length then readContent? { tokens := rest } else none

/-- The data that a text denotes, which the character zero ends. A text without a document is an
empty object, and a text may not have two documents. -/
def read? (s : List Char) : Option Datum := do
  let tokens ← tokens? (s.takeWhile (· ≠ '\x00'))
  match tokens.dropWhile isDocumentEnd with
  | [] => return .object []
  | tokens =>
    let (node, input) ← readDocument? tokens
    if (input.tokens.dropWhile isDocumentEnd).isEmpty then node.datum? else none

end Criteria.Yaml
