import Criteria.Proofs.Document.Clauses
import Criteria.Proofs.Filter.Canonical

/-!
# Filters from their documents

`Document.filter?` reads the filter back from its document, where every node has at least two
operands and at most one search word among them. Field names may be those of query operators: the
shape of a value tells what its key is. Main statement (`documentOf_injective`): two such filters
with the same document are the same.
-/

namespace Criteria

/-- The literal that a value of a database comes from. -/
def Native.literal? : Native → Option Literal
  | .date t => some (.date t)
  | .double x => some (.number x)
  | .boolean b => some (.boolean b)
  | .regex source "i" => some (.pattern source)
  | _ => none

/-- The leaf whose document is `{key: {inner: value}}`; only search has a text there. -/
def Native.innerFilter? (key inner : String) : Native → Option Filter
  | .text word => if key = "$text" ∧ inner = "$search" then some (.text word) else none
  | value =>
    (Comparator.ofQueryOperator? inner).bind fun c =>
      value.literal?.map (Filter.comparison key c)

mutual

/-- The filter whose document has one entry, with a given key. -/
def Native.filter? (key : String) : Native → Option Filter
  | .array items =>
    (Connector.ofQueryOperator? key).bind fun c =>
      (Native.itemFilters? items).map (Filter.node c)
  | .document [(inner, value)] => Native.innerFilter? key inner value
  | value => value.literal?.map (Filter.comparison key .like)

/-- The filters whose documents are in an array. -/
def Native.itemFilters? : List Native → Option (List Filter)
  | [] => some []
  | .document [(key, value)] :: items =>
    (value.filter? key).bind fun f => (Native.itemFilters? items).map (f :: ·)
  | _ => none

end

/-- The filter that a document comes from. -/
def Document.filter? : Document → Option Filter
  | [(key, value)] => value.filter? key
  | _ => none

theorem Native.itemFilters?_cons (d : Document) (items : List Native) :
    Native.itemFilters? (.document d :: items) =
      (Document.filter? d).bind fun f => (Native.itemFilters? items).map (f :: ·) := by
  rcases d with _ | ⟨⟨key, value⟩, _ | ⟨e, d⟩⟩ <;> rfl

namespace Filter

/-- At least two operands, of which at most one is a search word. -/
def Separable (c : Connector) (operands : List Filter) : Prop :=
  2 ≤ operands.length ∧ AtMostOneWord c operands

/-! ## Leaves -/

theorem filter?_textClause (word : String) :
    Document.filter? (textClause word) = some (.text word) := rfl

theorem filter?_ofLiteral (key : String) (value : Literal) :
    (Native.ofLiteral value).filter? key = some (.comparison key .like value) := by
  cases value <;> rfl

/-- A literal is never a text, so its clause is not taken for a search. -/
theorem innerFilter?_ofLiteral (key : String) {inner : String} {c : Comparator}
    (h : c.queryOperator? = some inner) (value : Literal) :
    Native.innerFilter? key inner (Native.ofLiteral value) = some (.comparison key c value) := by
  have hc := Comparator.ofQueryOperator?_of_queryOperator? h
  cases value with
  | _ =>
    simp only [Native.ofLiteral, Native.anyCase, Native.innerFilter?, hc]
    rfl

theorem filter?_comparisonClause (field : String) (c : Comparator) (value : Literal) :
    Document.filter? (comparisonClause field c value) = some (.comparison field c value) := by
  unfold comparisonClause
  cases h : c.queryOperator? with
  | none =>
    cases c with
    | like => exact filter?_ofLiteral field value
    | _ => exact nomatch h
  | some operator => exact innerFilter?_ofLiteral field h value

/-! ## Nodes -/

theorem itemFilters?_map_toDocument {operands : List Filter}
    (h : ∀ f ∈ operands, Document.filter? f.toDocument = some f) :
    Native.itemFilters? ((operands.map toDocument).map .document) = some operands := by
  induction operands with
  | nil => rfl
  | cons f rest ih =>
    have hrest := ih fun g hg => h g (List.mem_cons_of_mem f hg)
    rw [List.map_cons, List.map_cons, Native.itemFilters?_cons, h f List.mem_cons_self, hrest]
    rfl

/-- The document of a filter gives the filter back. -/
theorem filter?_toDocument {f : Filter} (h : EveryNode Separable f) :
    Document.filter? f.toDocument = some f := by
  induction h with
  | comparison =>
    rw [toDocument]
    exact filter?_comparisonClause _ _ _
  | text =>
    rw [toDocument]
    exact filter?_textClause _
  | @node c operands hnode _ ih =>
    -- two operands or more have an array, in which each has the clause it is read from
    obtain ⟨htwo, hwords⟩ := hnode
    have hlength : (operands.map toDocument).length ≠ 1 := by
      rw [List.length_map]
      omega
    rw [toDocument_node hwords, chainDocument_of_length_ne_one hlength, Document.filter?,
      Native.filter?, Connector.ofQueryOperator?_queryOperator, itemFilters?_map_toDocument ih]
    rfl

/-- **A document determines its filter.** Filters whose nodes have at least two operands, and at
most one search word among them, are the same when their documents are. -/
theorem documentOf_injective (f g : Filter) (hf : EveryNode Separable f)
    (hg : EveryNode Separable g) (h : documentOf (some f) = documentOf (some g)) : f = g := by
  have hread : Document.filter? f.toDocument = Document.filter? g.toDocument :=
    congrArg Document.filter? h
  rw [filter?_toDocument hf, filter?_toDocument hg] at hread
  exact Option.some.inj hread

/-- The theorem at a filter over the names of operators, as a node and as a join that is flattened
to it. -/
theorem documentOf_injective_operator_names :
    ∃ f g : Filter,
      f = .node .and [.text "$or", .comparison "$and" .equal (.pattern "$eq"),
        .node .or [.comparison "$text" .like (.boolean true), .text "$search"]] ∧
      g = join .and [.text "$or",
        join .and [.comparison "$and" .equal (.pattern "$eq"),
          join .or [.comparison "$text" .like (.boolean true), .text "$search"]]] ∧
      documentOf (some f) = documentOf (some g) ∧ f = g := by
  have hor : EveryNode Separable
      (.node .or [.comparison "$text" .like (.boolean true), .text "$search"]) :=
    .node ⟨Nat.le_refl 2, Nat.le_refl 1⟩ (List.forall_mem_cons.2
      ⟨.comparison, List.forall_mem_cons.2 ⟨.text, nofun⟩⟩)
  have hand : EveryNode Separable
      (.node .and [.text "$or", .comparison "$and" .equal (.pattern "$eq"),
        .node .or [.comparison "$text" .like (.boolean true), .text "$search"]]) :=
    .node ⟨Nat.le_succ 2, Nat.le_refl 1⟩ (List.forall_mem_cons.2
      ⟨.text, List.forall_mem_cons.2 ⟨.comparison, List.forall_mem_cons.2 ⟨hor, nofun⟩⟩⟩)
  exact ⟨_, _, rfl, rfl, rfl, documentOf_injective _ _ hand hand rfl⟩

end Filter

end Criteria
