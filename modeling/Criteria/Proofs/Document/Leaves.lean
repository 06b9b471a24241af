import Criteria.Proofs.Document.Clauses
import Mathlib.Data.List.Perm.Basic

/-!
# The leaves of query documents

`Document.leaves` reads the comparisons and the searches off a query document, from left to right,
by the shape of its values: a text inside is a search, an array under a connector's operator holds
further documents, and any other value is compared. Main statement (`leaves_documentOf`): the
document of a filter has the comparisons of the filter in their order, and one search for every
node with search words.
-/

namespace Criteria

/-- A leaf of a query document. -/
inductive Document.Leaf where
  | comparison (field : String) (c : Comparator) (value : Native)
  | search (words : String)

namespace Document.Leaf

def comparison? : Leaf → Option (String × Comparator × Native)
  | .comparison field c value => some (field, c, value)
  | .search _ => none

def words? : Leaf → Option String
  | .comparison _ _ _ => none
  | .search words => some words

end Document.Leaf

/-- The leaf whose document is `{key: {inner: value}}`; only search has a text there. -/
def Native.innerLeaf? (key inner : String) : Native → Option Document.Leaf
  | .text words => if key = "$text" ∧ inner = "$search" then some (.search words) else none
  | value => (Comparator.ofQueryOperator? inner).map fun c => .comparison key c value

mutual

/-- The leaves of the entry of a query document under a key. -/
def Native.leaves (key : String) : Native → List Document.Leaf
  | .array items => if (Connector.ofQueryOperator? key).isSome then Native.itemLeaves items else []
  | .document [(inner, value)] => (Native.innerLeaf? key inner value).toList
  | .document _ => []
  | value => [.comparison key .like value]

/-- The leaves of the query documents in an array. -/
def Native.itemLeaves : List Native → List Document.Leaf
  | [] => []
  | .document [(key, value)] :: items => value.leaves key ++ Native.itemLeaves items
  | _ :: items => Native.itemLeaves items

end

namespace Document

/-- The leaves of a query document from left to right. -/
def leaves : Document → List Leaf
  | [(key, value)] => value.leaves key
  | _ => []

/-- The comparisons of a query document from left to right. -/
def comparisons (d : Document) : List (String × Comparator × Native) :=
  d.leaves.filterMap Leaf.comparison?

/-- The words of the searches in a query document from left to right. -/
def searches (d : Document) : List String := d.leaves.filterMap Leaf.words?

end Document

theorem Native.itemLeaves_cons (d : Document) (items : List Native) :
    Native.itemLeaves (.document d :: items) = d.leaves ++ Native.itemLeaves items := by
  rcases d with _ | ⟨⟨key, value⟩, _ | ⟨e, d⟩⟩ <;> rfl

theorem Native.itemLeaves_map_document (ds : List Document) :
    Native.itemLeaves (ds.map .document) = ds.flatMap Document.leaves := by
  induction ds with
  | nil => rfl
  | cons d ds ih => rw [List.map_cons, Native.itemLeaves_cons, ih, List.flatMap_cons]

namespace Filter

mutual

/-- The comparisons of a filter from left to right, with the values as a database has them. -/
def comparisons : Filter → List (String × Comparator × Native)
  | .comparison field c value => [(field, c, Native.ofLiteral value)]
  | .text _ => []
  | .node _ operands => comparisonsIn operands

/-- The comparisons of some filters, one filter after the other. -/
def comparisonsIn : List Filter → List (String × Comparator × Native)
  | [] => []
  | f :: rest => f.comparisons ++ comparisonsIn rest

end

mutual

/-- The operands of every node that has a search word among them. -/
def wordNodes : Filter → List (List Filter)
  | .comparison _ _ _ => []
  | .text _ => []
  | .node _ operands =>
    (if operands.filterMap word? = [] then [] else [operands]) ++ wordNodesIn operands

/-- The operands of such nodes in some filters, one filter after the other. -/
def wordNodesIn : List Filter → List (List Filter)
  | [] => []
  | f :: rest => f.wordNodes ++ wordNodesIn rest

end

theorem comparisonsIn_eq_flatMap (fs : List Filter) :
    comparisonsIn fs = fs.flatMap comparisons := by
  induction fs with
  | nil => rfl
  | cons f fs ih => rw [comparisonsIn, ih, List.flatMap_cons]

theorem wordNodesIn_eq_flatMap (fs : List Filter) : wordNodesIn fs = fs.flatMap wordNodes := by
  induction fs with
  | nil => rfl
  | cons f fs ih => rw [wordNodesIn, ih, List.flatMap_cons]

/-! ## Leaves of clauses -/

theorem leaves_ofLiteral (key : String) (value : Literal) :
    (Native.ofLiteral value).leaves key = [.comparison key .like (Native.ofLiteral value)] := by
  cases value <;> rfl

/-- A literal is never a text, so its clause is not taken for a search. -/
theorem innerLeaf?_ofLiteral (key : String) {inner : String} {c : Comparator}
    (h : c.queryOperator? = some inner) (value : Literal) :
    Native.innerLeaf? key inner (Native.ofLiteral value) =
      some (.comparison key c (Native.ofLiteral value)) := by
  have hc := Comparator.ofQueryOperator?_of_queryOperator? h
  cases value <;> simp [Native.ofLiteral, Native.anyCase, Native.innerLeaf?, hc]

theorem leaves_comparisonClause (field : String) (c : Comparator) (value : Literal) :
    Document.leaves (comparisonClause field c value) =
      [.comparison field c (Native.ofLiteral value)] := by
  unfold comparisonClause
  cases h : c.queryOperator? with
  | none =>
    cases c with
    | like => exact leaves_ofLiteral field value
    | _ => exact nomatch h
  | some operator =>
    dsimp only
    rw [Document.leaves, Native.single, Native.leaves, innerLeaf?_ofLiteral field h]
    rfl

/-- The leaves of a node are those of its clauses, also where one clause stands for itself. -/
theorem leaves_chainDocument (c : Connector) (ds : List Document) :
    Document.leaves (chainDocument c ds) = ds.flatMap Document.leaves := by
  unfold chainDocument
  split
  · next only => rw [List.flatMap_singleton]
  · rw [Document.leaves, Native.leaves, Connector.ofQueryOperator?_queryOperator,
      Option.isSome_some, if_pos rfl, Native.itemLeaves_map_document]

/-! ## Leaves of nodes -/

/-- What search words have nothing of is found among the other operands. -/
theorem flatMap_withoutWords {β : Type} {g : Filter → List β} (hg : ∀ word, g (.text word) = [])
    (operands : List Filter) : (withoutWords operands).flatMap g = operands.flatMap g := by
  induction operands with
  | nil => rfl
  | cons f rest ih =>
    cases hword : f.word? with
    | some word =>
      obtain rfl := eq_text_of_word? hword
      rw [withoutWords_cons_text, ih, List.flatMap_cons, hg, List.nil_append]
    | none => rw [withoutWords_cons hword, List.flatMap_cons, List.flatMap_cons, ih]

variable {operands : List Filter} {ds : List Document}

theorem HasClauses.flatMap_comparisons (h : HasClauses operands ds) :
    ds.flatMap Document.comparisons = operands.flatMap fun f => f.toDocument.comparisons := by
  have hclause : ∀ words, Document.comparisons (textClause words) = [] := fun _ => rfl
  have htext : ∀ word, (text word).toDocument.comparisons = [] := by
    intro word
    rw [toDocument, hclause]
  cases h with
  | separate hnone => rw [List.flatMap_map]
  | @merged before after word hbefore =>
    have hafter := @flatMap_withoutWords _ (fun f => f.toDocument.comparisons) htext after
    simp only [List.flatMap_append, List.flatMap_cons, List.flatMap_map, hclause, htext, hafter,
      List.nil_append]

/-- The searches of a node's clauses: that of its own words, and those of its other operands. -/
theorem HasClauses.flatMap_searches (h : HasClauses operands ds) :
    (ds.flatMap Document.searches).Perm
      ((if operands.filterMap word? = [] then [] else [searchWords operands]) ++
        (withoutWords operands).flatMap fun f => f.toDocument.searches) := by
  have hclause : ∀ words, Document.searches (textClause words) = [words] := fun _ => rfl
  cases h with
  | separate hnone =>
    rw [if_pos hnone, List.nil_append, withoutWords_of_no_word hnone, List.flatMap_map]
  | @merged before after word hbefore =>
    have hne : (before ++ .text word :: after).filterMap word? ≠ [] := by
      rw [filterMap_word?_split hbefore]
      exact List.cons_ne_nil _ _
    rw [if_neg hne, withoutWords_append, withoutWords_of_no_word hbefore, withoutWords_cons_text,
      List.flatMap_append, List.flatMap_append, List.flatMap_cons, List.flatMap_map,
      List.flatMap_map, hclause]
    exact List.perm_middle

/-! ## Leaves of filters -/

theorem comparisons_chainDocument (c : Connector) (ds : List Document) :
    (chainDocument c ds).comparisons = ds.flatMap Document.comparisons := by
  rw [Document.comparisons, leaves_chainDocument, List.filterMap_flatMap]
  rfl

theorem searches_chainDocument (c : Connector) (ds : List Document) :
    (chainDocument c ds).searches = ds.flatMap Document.searches := by
  rw [Document.searches, leaves_chainDocument, List.filterMap_flatMap]
  rfl

/-- The document of a filter has its comparisons in their order. -/
theorem comparisons_toDocument (f : Filter) : f.toDocument.comparisons = f.comparisons := by
  induction f using operandInduction with
  | comparison field c value =>
    rw [toDocument, Document.comparisons, leaves_comparisonClause]
    rfl
  | text word =>
    rw [toDocument]
    rfl
  | node c operands ih =>
    rw [toDocument, comparisons_chainDocument, (hasClauses operands).flatMap_comparisons,
      comparisons, comparisonsIn_eq_flatMap]
    exact List.flatMap_congr ih

/-- The document of a filter has one search for each node with search words, and one for the filter
if it is a word itself. -/
theorem searches_toDocument (f : Filter) :
    f.toDocument.searches.Perm (f.wordNodes.map searchWords ++ f.word?.toList) := by
  induction f using operandInduction with
  | comparison field c value =>
    rw [toDocument, Document.searches, leaves_comparisonClause]
    rfl
  | text word =>
    rw [toDocument]
    rfl
  | node c operands ih =>
    have hoperands : ((withoutWords operands).flatMap fun f => f.toDocument.searches).Perm
        ((withoutWords operands).flatMap fun f => f.wordNodes.map searchWords) := by
      refine List.Perm.flatMap_left _ fun f hf => ?_
      obtain ⟨hmem, hword⟩ := List.mem_filter.1 hf
      have hperm := ih f hmem
      rwa [Option.isNone_iff_eq_none.1 hword, Option.toList_none, List.append_nil] at hperm
    -- a search word has no nodes, so the nodes of all operands are those of the others
    have hnodes := @flatMap_withoutWords _ (fun f => f.wordNodes.map searchWords)
      (fun _ => rfl) operands
    rw [hnodes, ← List.map_flatMap, ← wordNodesIn_eq_flatMap] at hoperands
    have hself : (node c operands).word?.toList = [] := rfl
    rw [toDocument, searches_chainDocument, wordNodes, hself, List.append_nil, List.map_append]
    refine (hasClauses operands).flatMap_searches.trans ?_
    by_cases hnone : operands.filterMap word? = []
    · rw [if_pos hnone, if_pos hnone]
      exact hoperands
    · rw [if_neg hnone, if_neg hnone]
      exact hoperands.cons _

/-- **A query document loses, doubles and reorders no comparison and keeps every search word.** The
document of a filter of any shape has the comparisons of the filter in their order. Its searches are
those of the nodes with search words, one for each, and one for a filter that is a word itself. The
search of a node stands where its first word stands among the documents of its other operands, and a
node with one clause has the document of that clause. -/
theorem leaves_documentOf (f : Filter) :
    (documentOf (some f)).comparisons = f.comparisons ∧
    (documentOf (some f)).searches.Perm (f.wordNodes.map searchWords ++ f.word?.toList) ∧
    (documentOf (some f)).searches.length =
      f.wordNodes.length + (if f.word?.isSome then 1 else 0) ∧
    ∀ c operands,
      (∃ only, HasClauses operands [only] ∧ documentOf (some (node c operands)) = only) ∨
      ∃ ds, HasClauses operands ds ∧ ds.length ≠ 1 ∧
        documentOf (some (node c operands)) = [(c.queryOperator, .array (ds.map .document))] := by
  have hsearches := searches_toDocument f
  refine ⟨comparisons_toDocument f, hsearches, ?_, toDocument_node_cases⟩
  rw [documentOf, hsearches.length_eq, List.length_append, List.length_map]
  cases f.word? <;> rfl

end Filter

end Criteria
