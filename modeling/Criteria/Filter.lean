import Criteria.Literal.Inference

/-!
# Filters

A filter is a tree: comparisons and search words at the leaves, connectors that join any number of
operands at the nodes. `Filter.join` builds nodes so that no operand repeats its parent's
connector, provided that the operands keep to this themselves.
-/

namespace Criteria

/-! ## Comparators

The seven ways a filter compares a field with a value. Each has a symbol, and `read?` takes the
longest symbol off the head of a text, so that `:>=` is never read as `:>`. -/

/-- How a field is compared with a value; `like` asks for a match and is written as a lone colon. -/
inductive Comparator where
  | like
  | equal
  | notEqual
  | greater
  | greaterEqual
  | less
  | lessEqual
deriving Repr, DecidableEq

namespace Comparator

/-- All comparators. -/
def all : List Comparator :=
  [.like, .equal, .notEqual, .greater, .greaterEqual, .less, .lessEqual]

/-- The symbol that stands between a key and a value. -/
def symbol : Comparator → String
  | .like => ":"
  | .equal => ":=="
  | .notEqual => ":!="
  | .greater => ":>"
  | .greaterEqual => ":>="
  | .less => ":<"
  | .lessEqual => ":<="

/-- The word for a comparator in messages that name tokens. -/
def label : Comparator → String
  | .like => "Match"
  | .equal => "Eq"
  | .notEqual => "Neq"
  | .greater => "Gt"
  | .greaterEqual => "Gte"
  | .less => "Lt"
  | .lessEqual => "Lte"

/-- The comparator with a given symbol. -/
def ofSymbol? (s : String) : Option Comparator := all.find? (·.symbol == s)

/-- The longest symbol at the head of a text, and what follows it. -/
def read? : List Char → Option (Comparator × List Char)
  | ':' :: '=' :: '=' :: rest => some (.equal, rest)
  | ':' :: '!' :: '=' :: rest => some (.notEqual, rest)
  | ':' :: '>' :: '=' :: rest => some (.greaterEqual, rest)
  | ':' :: '<' :: '=' :: rest => some (.lessEqual, rest)
  | ':' :: '>' :: rest => some (.greater, rest)
  | ':' :: '<' :: rest => some (.less, rest)
  | ':' :: rest => some (.like, rest)
  | _ => none

/-- A symbol and its rest make up the text. -/
theorem append_of_read? {s rest : List Char} {c : Comparator} (h : read? s = some (c, rest)) :
    s = c.symbol.toList ++ rest := by
  unfold read? at h
  split at h <;> simp only [Option.some.injEq, Prod.mk.injEq, reduceCtorEq] at h <;>
    obtain ⟨rfl, rfl⟩ := h <;> rfl

theorem length_of_read? {s rest : List Char} {c : Comparator} (h : read? s = some (c, rest)) :
    rest.length < s.length := by
  have hpos : 0 < c.symbol.toList.length := by cases c <;> decide
  rw [append_of_read? h, List.length_append]
  omega

end Comparator

/-! ## Connectors

The two words that join the operands of a filter. -/

/-- How the operands of a filter are joined. -/
inductive Connector where
  | and
  | or
deriving Repr, DecidableEq, Inhabited

namespace Connector

/-- The word that stands between operands. -/
def word : Connector → String
  | .and => "AND"
  | .or => "OR"

/-- The connector that a word names as it stands. -/
def ofWord? (s : String) : Option Connector :=
  if s = "AND" then some .and else if s = "OR" then some .or else none

/-- The connector that a word names in any mixture of ASCII cases. -/
def ofWordAnyCase? (s : String) : Option Connector :=
  ofWord? (s.map Char.toUpper)

def invalidMessage (word : String) : String := "invalid connector: " ++ word

/-- A word names a connector exactly when it is that connector's word. -/
theorem ofWord?_eq_some_iff {s : String} {c : Connector} : ofWord? s = some c ↔ s = c.word := by
  by_cases ha : s = "AND"
  · subst ha
    cases c <;> decide
  · by_cases ho : s = "OR"
    · subst ho
      cases c <;> decide
    · rw [ofWord?, if_neg ha, if_neg ho]
      cases c
      · exact ⟨nofun, fun h => absurd h ha⟩
      · exact ⟨nofun, fun h => absurd h ho⟩

theorem ofWord?_eq_none_iff {s : String} : ofWord? s = none ↔ s ≠ "AND" ∧ s ≠ "OR" := by
  unfold ofWord?
  split
  · next h => exact ⟨nofun, fun hne => absurd h hne.1⟩
  · next hand =>
    split
    · next h => exact ⟨nofun, fun hne => absurd h hne.2⟩
    · next hor => exact ⟨fun _ => ⟨hand, hor⟩, fun _ => rfl⟩

end Connector

/-! ## Trees -/

/-- A condition on records. -/
inductive Filter where
  /-- The field stands in a relation to the value. -/
  | comparison (field : String) (comparator : Comparator) (value : Literal)
  /-- The record is found by a free-text search for the word. -/
  | text (word : String)
  /-- The operands joined by one connector. -/
  | node (connector : Connector) (operands : List Filter)
deriving Inhabited

namespace Filter

/-- Induction on filters, with the hypothesis for every operand of a node. -/
@[elab_as_elim]
theorem operandInduction {motive : Filter → Prop}
    (comparison : ∀ field c value, motive (.comparison field c value))
    (text : ∀ word, motive (.text word))
    (node : ∀ c operands, (∀ f ∈ operands, motive f) → motive (.node c operands)) :
    ∀ f, motive f
  | .comparison field c value => comparison field c value
  | .text word => text word
  | .node c operands =>
    node c operands fun f _ => operandInduction comparison text node f

/-- The operands of a node with the given connector; any other filter is its own only operand. -/
def operandsFor (c : Connector) : Filter → List Filter
  | .node d operands => if d = c then operands else [.node d operands]
  | f => [f]

/-- A node, or its operand where it has only one. -/
def collapse (c : Connector) : List Filter → Filter
  | [only] => only
  | operands => .node c operands

/-- Joins operands, lifting the operands of those that have the same connector at their root. -/
def join (c : Connector) (operands : List Filter) : Filter :=
  collapse c (operands.flatMap (operandsFor c))

mutual

/-- The number of nodes on the longest path from the root to a leaf. -/
def depth : Filter → Nat
  | .comparison _ _ _ => 0
  | .text _ => 0
  | .node _ operands => 1 + depthFrom 0 operands

/-- The largest of a number and the depths of some filters. -/
def depthFrom (most : Nat) : List Filter → Nat
  | [] => most
  | f :: rest => depthFrom (max most f.depth) rest

end

theorem depthFrom_eq (most : Nat) (fs : List Filter) :
    depthFrom most fs = (fs.map depth).foldl max most := by
  induction fs generalizing most with
  | nil => simp [depthFrom]
  | cons f fs ih => simp [depthFrom, ih]

end Filter

end Criteria
