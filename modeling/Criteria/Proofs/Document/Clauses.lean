import Criteria.Document.Query

/-!
# The clauses of query documents

The query operators name connectors and comparators. `Filter.HasClauses` says which clauses a node
has for its operands, and `hasClauses` that its document is made of these. Where the operands hold
at most one search word each of them has a clause of its own (`toDocument_node`).
-/

namespace Criteria

/-- The connector that a query operator names. -/
def Connector.ofQueryOperator? : String → Option Connector
  | "$and" => some .and
  | "$or" => some .or
  | _ => none

/-- The comparator that a query operator names. -/
def Comparator.ofQueryOperator? : String → Option Comparator
  | "$eq" => some .equal
  | "$ne" => some .notEqual
  | "$gt" => some .greater
  | "$gte" => some .greaterEqual
  | "$lt" => some .less
  | "$lte" => some .lessEqual
  | _ => none

theorem Connector.ofQueryOperator?_queryOperator (c : Connector) :
    Connector.ofQueryOperator? c.queryOperator = some c := by
  cases c <;> rfl

theorem Comparator.ofQueryOperator?_of_queryOperator? {c : Comparator} {operator : String}
    (h : c.queryOperator? = some operator) : Comparator.ofQueryOperator? operator = some c := by
  cases c with
  | like => exact nomatch h
  | _ =>
    obtain rfl := Option.some.inj h
    rfl

namespace Filter

/-- At most one operand is a search word. -/
def AtMostOneWord (_ : Connector) (operands : List Filter) : Prop :=
  (operands.filterMap word?).length ≤ 1

/-- The operands that are no search words. -/
def withoutWords (operands : List Filter) : List Filter :=
  operands.filter fun f => f.word?.isNone

/-- The clauses of a node: the documents of its operands in order, except that all its search words
share one clause, which stands where the first of them stands. -/
inductive HasClauses : List Filter → List Document → Prop where
  | separate {operands : List Filter} :
      operands.filterMap word? = [] → HasClauses operands (operands.map toDocument)
  | merged {before after : List Filter} {word : String} :
      before.filterMap word? = [] →
      HasClauses (before ++ .text word :: after)
        (before.map toDocument ++
          textClause (" ".intercalate ((before ++ .text word :: after).filterMap word?)) ::
            (withoutWords after).map toDocument)

/-! ## Operands and words -/

theorem eq_text_of_word? {f : Filter} {word : String} (h : f.word? = some word) :
    f = .text word := by
  cases f with
  | text word' => rw [Option.some.inj h]
  | comparison field c value => exact nomatch h
  | node c operands => exact nomatch h

theorem withoutWords_cons_text (word : String) (operands : List Filter) :
    withoutWords (.text word :: operands) = withoutWords operands := rfl

theorem withoutWords_cons {f : Filter} (h : f.word? = none) (operands : List Filter) :
    withoutWords (f :: operands) = f :: withoutWords operands := by
  rw [withoutWords, List.filter_cons_of_pos (by rw [h]; rfl), ← withoutWords]

theorem withoutWords_append (operands operands' : List Filter) :
    withoutWords (operands ++ operands') = withoutWords operands ++ withoutWords operands' :=
  List.filter_append operands operands'

theorem withoutWords_of_no_word {operands : List Filter} (h : operands.filterMap word? = []) :
    withoutWords operands = operands := by
  rw [withoutWords, List.filter_eq_self]
  intro f hf
  rw [List.filterMap_eq_nil_iff.1 h f hf]
  rfl

theorem filterMap_word?_split {before : List Filter} (h : before.filterMap word? = [])
    (word : String) (after : List Filter) :
    (before ++ .text word :: after).filterMap word? = word :: after.filterMap word? := by
  rw [List.filterMap_append, h]
  rfl

/-- Some operand is a search word, or none is. -/
theorem exists_first_word (operands : List Filter) :
    operands.filterMap word? = [] ∨
      ∃ before word after, operands = before ++ .text word :: after ∧
        before.filterMap word? = [] := by
  induction operands with
  | nil => exact .inl rfl
  | cons f rest ih =>
    cases hword : f.word? with
    | some word =>
      obtain rfl := eq_text_of_word? hword
      exact .inr ⟨[], word, rest, rfl, rfl⟩
    | none =>
      rcases ih with hrest | ⟨before, word, after, rfl, hbefore⟩
      · exact .inl (by rw [List.filterMap_cons_none hword, hrest])
      · exact .inr ⟨f :: before, word, after, rfl, by rw [List.filterMap_cons_none hword, hbefore]⟩

/-! ## Clauses -/

/-- Only a single clause stands for itself. -/
theorem chainDocument_of_length_ne_one {c : Connector} {ds : List Document} (h : ds.length ≠ 1) :
    chainDocument c ds = [(c.queryOperator, .array (ds.map .document))] := by
  unfold chainDocument
  split
  · exact absurd rfl h
  · rfl

theorem clauses_cons {f : Filter} (h : f.word? = none) (words : String) (placed : Bool)
    (done : List Document) (rest : List Filter) :
    clauses words placed done (f :: rest) = clauses words placed (f.toDocument :: done) rest := by
  cases f with
  | text word => exact nomatch h
  | comparison field c value => rw [clauses, toDocument]
  | node c operands => rw [clauses]

/-- Operands without a search word have clauses of their own. -/
theorem clauses_append {before : List Filter} (h : before.filterMap word? = []) (words : String)
    (placed : Bool) (done : List Document) (rest : List Filter) :
    clauses words placed done (before ++ rest) =
      clauses words placed ((before.map toDocument).reverse ++ done) rest := by
  induction before generalizing done with
  | nil => rfl
  | cons f before ih =>
    have hall := List.filterMap_eq_nil_iff.1 h
    have hbefore : before.filterMap word? = [] :=
      List.filterMap_eq_nil_iff.2 fun g hg => hall g (List.mem_cons_of_mem f hg)
    rw [List.cons_append, clauses_cons (hall f List.mem_cons_self), ih hbefore]
    simp

/-- Behind the clause of the words no word has a clause. -/
theorem clauses_of_placed (words : String) (done : List Document) (operands : List Filter) :
    clauses words true done operands =
      done.reverse ++ (withoutWords operands).map toDocument := by
  induction operands generalizing done with
  | nil => simp [clauses, withoutWords]
  | cons f rest ih =>
    cases hword : f.word? with
    | some word =>
      obtain rfl := eq_text_of_word? hword
      rw [clauses, if_pos rfl, ih, withoutWords_cons_text]
    | none =>
      rw [clauses_cons hword, ih, withoutWords_cons hword]
      simp

/-- The clauses that a node's document is made of. -/
theorem hasClauses (operands : List Filter) :
    HasClauses operands (clauses (searchWords operands) false [] operands) := by
  rcases exists_first_word operands with hnone | ⟨before, word, after, rfl, hbefore⟩
  · have hclauses := clauses_append hnone (searchWords operands) false [] []
    rw [List.append_nil, List.append_nil, clauses, List.reverse_reverse] at hclauses
    rw [hclauses]
    exact .separate hnone
  · rw [clauses_append hbefore, clauses, if_neg Bool.false_ne_true, clauses_of_placed,
      List.append_nil, List.reverse_cons, List.reverse_reverse, List.append_assoc]
    exact .merged hbefore

/-- The document of a node is its only clause, or else an array of its clauses. -/
theorem toDocument_node_cases (c : Connector) (operands : List Filter) :
    (∃ only, HasClauses operands [only] ∧ (node c operands).toDocument = only) ∨
      ∃ ds, HasClauses operands ds ∧ ds.length ≠ 1 ∧
        (node c operands).toDocument = [(c.queryOperator, .array (ds.map .document))] := by
  have hds := hasClauses operands
  rw [toDocument]
  generalize clauses (searchWords operands) false [] operands = ds at hds
  by_cases hlength : ds.length = 1
  · obtain ⟨only, rfl⟩ := List.length_eq_one_iff.1 hlength
    exact .inl ⟨only, hds, rfl⟩
  · exact .inr ⟨ds, hds, hlength, chainDocument_of_length_ne_one hlength⟩

/-- With at most one search word among the operands each of them has a clause of its own. -/
theorem HasClauses.eq_map {c : Connector} {operands : List Filter} {ds : List Document}
    (hds : HasClauses operands ds) (h : AtMostOneWord c operands) :
    ds = operands.map toDocument := by
  cases hds with
  | separate => rfl
  | @merged before after word hbefore =>
    rw [AtMostOneWord, filterMap_word?_split hbefore, List.length_cons] at h
    have hafter : after.filterMap word? = [] := List.eq_nil_of_length_eq_zero (by omega)
    -- the clause of all words is that of the only one
    rw [filterMap_word?_split hbefore, hafter, withoutWords_of_no_word hafter, List.map_append,
      List.map_cons, toDocument]
    rfl

theorem toDocument_node {c : Connector} {operands : List Filter} (h : AtMostOneWord c operands) :
    (node c operands).toDocument = chainDocument c (operands.map toDocument) := by
  rw [toDocument, (hasClauses operands).eq_map h]

end Filter

end Criteria
