import Criteria.Document.Query
import Criteria.Proofs.Text.Runs

/-!
# The grammar of filters

The surface form of a filter is a chain of terms:

* `chain = term (WS+ ("AND" | "OR") WS+ term)*`, read as a shorter chain and one more term;
* `term = KEY | KEY COMPARATOR VALUE | "(" WS* chain WS* ")"`.

`Chain.Spells` says that a text has a derivation with a given surface form, `Chain.nesting` counts
the parentheses around the innermost term, and `Chain.toFilter` is the filter that a chain
denotes: connectors have one precedence and group to the left. The filter means what the chain does
(`Chain.eval_toFilter`).
-/

namespace Criteria.Filter

open Criteria.Text

/-! ## Values and gaps -/

/-- A bare value, or a nonempty text in matching quotes that does not hold that quote. -/
inductive IsValue : List Char → Prop where
  | bare {s : List Char} : IsBareValue s → IsValue s
  | quoted {q : Char} {inner : List Char} :
      q = '\'' ∨ q = '"' → inner ≠ [] → q ∉ inner → IsValue (q :: (inner ++ [q]))

/-- A nonempty run of blank characters. -/
def IsGap (s : List Char) : Prop := s ≠ [] ∧ blank s = true

/-! ## Surface forms -/

mutual

/-- The surface form of one operand. -/
inductive Term where
  /-- A search word. -/
  | word (name : String)
  /-- A comparison with the text of a value, quotes included. -/
  | comparison (field : String) (comparator : Comparator) (raw : String)
  /-- A chain in parentheses. -/
  | group (inner : Chain)

/-- The surface form of terms joined by connectors. -/
inductive Chain where
  | single (term : Term)
  /-- A chain, and one more term behind it. -/
  | more (init : Chain) (connector : Connector) (last : Term)

end

mutual

/-- A text has a derivation as a term. -/
inductive Term.Spells : Term → List Char → Prop where
  | word {name : String} : IsKey name.toList → Term.Spells (.word name) name.toList
  | comparison {field raw : String} {c : Comparator} :
      IsKey field.toList → IsValue raw.toList →
      Term.Spells (.comparison field c raw) (field.toList ++ c.symbol.toList ++ raw.toList)
  | group {inner : Chain} {before s after : List Char} :
      blank before = true → Chain.Spells inner s → blank after = true →
      Term.Spells (.group inner) ('(' :: (before ++ s ++ after ++ [')']))

/-- A text has a derivation as a chain. -/
inductive Chain.Spells : Chain → List Char → Prop where
  | single {term : Term} {s : List Char} : Term.Spells term s → Chain.Spells (.single term) s
  | more {init : Chain} {c : Connector} {last : Term} {s before after t : List Char} :
      Chain.Spells init s → IsGap before → IsGap after → Term.Spells last t →
      Chain.Spells (.more init c last) (s ++ before ++ c.word.toList ++ after ++ t)

end

mutual

/-- The number of parentheses around the innermost part of a term. -/
def Term.nesting : Term → Nat
  | .word _ => 0
  | .comparison _ _ _ => 0
  | .group inner => inner.nesting + 1

/-- The number of parentheses around the innermost term of a chain. -/
def Chain.nesting : Chain → Nat
  | .single term => term.nesting
  | .more init _ last => max init.nesting last.nesting

end

mutual

/-- The filter that a term denotes; a group denotes what it holds. -/
def Term.toFilter : Term → Filter
  | .word name => .text name
  | .comparison field c raw => .comparison field c (Literal.infer raw)
  | .group inner => inner.toFilter

/-- The filter that a chain denotes, joined from the left. -/
def Chain.toFilter : Chain → Filter
  | .single term => term.toFilter
  | .more init c last => join c [init.toFilter, last.toFilter]

end

end Criteria.Filter

/-! ## Meaning

A `Valuation` says which comparisons and which search words hold of a record. Under a valuation a
surface form is evaluated strictly from the left, parentheses first, and a filter by its nodes.
Joining operands keeps their meaning (`eval_join`). -/

namespace Criteria

/-- Which comparisons of a field with a value hold, and which search words are found. -/
structure Valuation where
  compares : String → Comparator → Native → Bool
  finds : String → Bool

/-- The truth value of two operands with a connector between them. -/
def Connector.apply : Connector → Bool → Bool → Bool
  | .and, a, b => a && b
  | .or, a, b => a || b

/-- The truth value of any number of joined operands. -/
def Connector.combine : Connector → List Bool → Bool
  | .and, bs => bs.all id
  | .or, bs => bs.any id

namespace Connector

theorem combine_singleton (c : Connector) (b : Bool) : c.combine [b] = b := by
  cases c <;> simp [combine]

theorem combine_pair (c : Connector) (a b : Bool) : c.combine [a, b] = c.apply a b := by
  cases c <;> simp [combine, apply]

theorem combine_append (c : Connector) (as bs : List Bool) :
    c.combine (as ++ bs) = c.apply (c.combine as) (c.combine bs) := by
  cases c <;> simp [combine, apply]

theorem combine_cons (c : Connector) (a : Bool) (bs : List Bool) :
    c.combine (a :: bs) = c.apply a (c.combine bs) := by
  cases c <;> simp [combine, apply]

end Connector

namespace Filter

mutual

/-- The truth value of a term. -/
def Term.eval (v : Valuation) : Term → Bool
  | .word name => v.finds name
  | .comparison field c raw => v.compares field c (Native.ofLiteral (Literal.infer raw))
  | .group inner => inner.eval v

/-- The truth value of a chain, strictly from the left. -/
def Chain.eval (v : Valuation) : Chain → Bool
  | .single term => term.eval v
  | .more init c last => c.apply (init.eval v) (last.eval v)

end

mutual

/-- The truth value of a filter. -/
def eval (v : Valuation) : Filter → Bool
  | .comparison field c value => v.compares field c (Native.ofLiteral value)
  | .text word => v.finds word
  | .node c operands => c.combine (evals v operands)

/-- The truth values of some filters. -/
def evals (v : Valuation) : List Filter → List Bool
  | [] => []
  | f :: fs => f.eval v :: evals v fs

end

theorem evals_eq_map (v : Valuation) (fs : List Filter) : evals v fs = fs.map (eval v) := by
  induction fs with
  | nil => rfl
  | cons f fs ih => rw [evals, ih, List.map_cons]

theorem eval_node (v : Valuation) (c : Connector) (operands : List Filter) :
    (node c operands).eval v = c.combine (operands.map (eval v)) := by
  rw [eval, evals_eq_map]

/-- What a filter brings into a node has, combined, the value of the filter. -/
theorem combine_operandsFor (v : Valuation) (c : Connector) (f : Filter) :
    c.combine ((operandsFor c f).map (eval v)) = f.eval v := by
  cases f with
  | comparison field comparator value => exact Connector.combine_singleton c _
  | text word => exact Connector.combine_singleton c _
  | node d operands =>
    rw [operandsFor]
    by_cases h : d = c
    · rw [if_pos h, eval_node, h]
    · rw [if_neg h]
      exact Connector.combine_singleton c _

theorem combine_flatMap_operandsFor (v : Valuation) (c : Connector) (fs : List Filter) :
    c.combine ((fs.flatMap (operandsFor c)).map (eval v)) = c.combine (fs.map (eval v)) := by
  induction fs with
  | nil => rfl
  | cons f fs ih =>
    rw [List.flatMap_cons, List.map_append, Connector.combine_append, combine_operandsFor, ih,
      List.map_cons, Connector.combine_cons]

theorem eval_collapse (v : Valuation) (c : Connector) (fs : List Filter) :
    (collapse c fs).eval v = c.combine (fs.map (eval v)) := by
  unfold collapse
  split
  · exact (Connector.combine_singleton c _).symm
  · exact eval_node v c fs

/-- Joined operands have the combined value of the operands, whatever is lifted among them. -/
theorem eval_join (v : Valuation) (c : Connector) (fs : List Filter) :
    (join c fs).eval v = c.combine (fs.map (eval v)) := by
  rw [join, eval_collapse, combine_flatMap_operandsFor]

mutual

theorem Term.eval_toFilter (v : Valuation) : ∀ term : Term, term.toFilter.eval v = term.eval v
  | .word _ => rfl
  | .comparison _ _ _ => rfl
  | .group inner => Chain.eval_toFilter v inner

/-- The filter of a chain has the value that the chain has from the left. -/
theorem Chain.eval_toFilter (v : Valuation) :
    ∀ chain : Chain, chain.toFilter.eval v = chain.eval v
  | .single term => Term.eval_toFilter v term
  | .more init c last => by
    have hinit := Chain.eval_toFilter v init
    have hlast := Term.eval_toFilter v last
    rw [Chain.toFilter, Chain.eval, eval_join, List.map_cons, List.map_singleton,
      Connector.combine_pair, hinit, hlast]

end

end Filter

end Criteria
