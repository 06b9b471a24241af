import Criteria.Proofs.Document.Clauses
import Criteria.Proofs.Filter.Acceptance

/-!
# The meaning of query documents

`Document.holds` reads a query document back as a condition, by the shape of its values and not by
its keys: an array is a connector, a document inside is a free-text search or a comparison, any
other value is likeness. Main statement (`holds_documentOf`): the document of a filter text means
what the text means when it is evaluated from the left.
-/

namespace Criteria

/-- The truth value of an entry `key: {inner: value}`; a search needs both of its keys. -/
def Native.innerHolds (v : Valuation) (key inner : String) (value : Native) : Option Bool :=
  match inner, key, value with
  | "$search", "$text", .text words => some (v.finds words)
  | inner, key, value => (Comparator.ofQueryOperator? inner).map fun c => v.compares key c value

mutual

/-- The truth value of the entry of a query document under a key, if the entry has a meaning. -/
def Native.holds (v : Valuation) (key : String) : Native → Option Bool
  | .array items =>
    (Connector.ofQueryOperator? key).bind fun c => (Native.itemsHold v items).map c.combine
  | .document [(inner, value)] => Native.innerHolds v key inner value
  | .document _ => none
  | value => some (v.compares key .like value)

/-- The truth values of the query documents in an array. -/
def Native.itemsHold (v : Valuation) : List Native → Option (List Bool)
  | [] => some []
  | .document [(key, value)] :: items =>
    (value.holds v key).bind fun b => (Native.itemsHold v items).map (b :: ·)
  | _ => none

end

/-- The truth value of a query document, which has one entry. -/
def Document.holds (v : Valuation) : Document → Option Bool
  | [(key, value)] => value.holds v key
  | _ => none

theorem Native.itemsHold_cons (v : Valuation) (d : Document) (items : List Native) :
    Native.itemsHold v (.document d :: items) =
      (Document.holds v d).bind fun b => (Native.itemsHold v items).map (b :: ·) := by
  rcases d with _ | ⟨⟨key, value⟩, _ | ⟨e, d⟩⟩ <;> rfl

namespace Filter

theorem holds_textClause (v : Valuation) (words : String) :
    Document.holds v (textClause words) = some (v.finds words) := rfl

theorem holds_ofLiteral (v : Valuation) (key : String) (value : Literal) :
    (Native.ofLiteral value).holds v key =
      some (v.compares key .like (Native.ofLiteral value)) := by
  cases value <;> rfl

theorem holds_comparisonClause (v : Valuation) (field : String) (c : Comparator)
    (value : Literal) :
    Document.holds v (comparisonClause field c value) =
      some (v.compares field c (Native.ofLiteral value)) := by
  cases c with
  | like => exact holds_ofLiteral v field value
  | _ =>
    -- a document inside, under the operator
    rfl

theorem itemsHold_map_toDocument {v : Valuation} {operands : List Filter}
    (h : ∀ f ∈ operands, Document.holds v f.toDocument = some (f.eval v)) :
    Native.itemsHold v ((operands.map toDocument).map .document) =
      some (operands.map (eval v)) := by
  induction operands with
  | nil => rfl
  | cons f rest ih =>
    have hrest := ih fun g hg => h g (List.mem_cons_of_mem f hg)
    rw [List.map_cons, List.map_cons, Native.itemsHold_cons, h f List.mem_cons_self, hrest]
    rfl

theorem holds_connector (v : Valuation) (c : Connector) (items : List Native) :
    Document.holds v [(c.queryOperator, .array items)] =
      (Native.itemsHold v items).map c.combine := by
  rw [Document.holds, Native.holds, Connector.ofQueryOperator?_queryOperator]
  rfl

theorem holds_chainDocument {v : Valuation} (c : Connector) {operands : List Filter}
    (h : ∀ f ∈ operands, Document.holds v f.toDocument = some (f.eval v)) :
    Document.holds v (chainDocument c (operands.map toDocument)) =
      some (c.combine (operands.map (eval v))) := by
  unfold chainDocument
  split
  · -- a single clause stands for itself
    next only hone =>
    obtain ⟨f, rfl, rfl⟩ := List.map_eq_singleton_iff.1 hone
    rw [List.map_singleton, Connector.combine_singleton]
    exact h f List.mem_cons_self
  · rw [holds_connector, itemsHold_map_toDocument h]
    rfl

/-- The document of a filter with at most one search word at each node has the value of the
filter. -/
theorem holds_toDocument (v : Valuation) {f : Filter} (h : EveryNode AtMostOneWord f) :
    Document.holds v f.toDocument = some (f.eval v) := by
  induction h with
  | comparison =>
    rw [toDocument]
    exact holds_comparisonClause v _ _ _
  | text =>
    rw [toDocument]
    exact holds_textClause v _
  | node hwords _ ih => rw [toDocument_node hwords, holds_chainDocument _ ih, eval_node]

/-- **The document of a filter text means what the text means.** Where no node of the filter has
two search words, the document is a well-formed query, and under every valuation it has the value
of the text, evaluated from the left with parentheses first. -/
theorem holds_documentOf (text : String) (f : Filter) (hparse : parse text = .ok (some f))
    (hwords : EveryNode AtMostOneWord f) :
    (∃ chain : Chain, chain.Spells (Text.trim text.toList)) ∧
      ∀ chain : Chain, chain.Spells (Text.trim text.toList) →
        ∀ v : Valuation, Document.holds v (documentOf (some f)) = some (chain.eval v) := by
  obtain ⟨-, hread⟩ := parse_eq_some_iff.1 hparse
  refine ⟨exists_spells_of_ofChars hread, ?_⟩
  intro chain hspells v
  -- whichever derivation is taken, its filter is the one that was read
  obtain ⟨-, -, rfl⟩ := hspells.of_ofChars hread
  rw [documentOf, holds_toDocument v hwords, Chain.eval_toFilter]

/-- The theorem at a group, with a search word in it, and a comparison behind it. -/
theorem holds_documentOf_group_and_comparison :
    ∃ (text : String) (f : Filter),
      text = " (state:open OR peace) AND year:>1869" ∧
      parse text = .ok (some f) ∧
      EveryNode AtMostOneWord f ∧
      (∃ chain : Chain, chain.Spells (Text.trim text.toList)) ∧
      ∀ chain : Chain, chain.Spells (Text.trim text.toList) →
        ∀ v : Valuation, Document.holds v (documentOf (some f)) = some (chain.eval v) := by
  have hgap : IsGap " ".toList := ⟨nofun, by decide⟩
  have hnone : Text.blank [] = true := rfl
  have hkey : ∀ key ∈ ["state", "peace", "year"], Text.IsKey key.toList := by
    simp only [Text.isKey_iff]
    decide
  have hvalue : ∀ value ∈ ["open", "1869"], IsValue value.toList := by
    intro value hmem
    refine .bare ((Text.isBareValue_iff _).2 ?_)
    revert value
    decide
  have hstate : Term.Spells (.comparison "state" .like "open") "state:open".toList :=
    .comparison (hkey _ (by decide)) (hvalue _ (by decide))
  have hpeace : Term.Spells (.word "peace") "peace".toList := .word (hkey _ (by decide))
  have hyear : Term.Spells (.comparison "year" .greater "1869") "year:>1869".toList :=
    .comparison (hkey _ (by decide)) (hvalue _ (by decide))
  have hor := Chain.Spells.more (c := .or) (.single hstate) hgap hgap hpeace
  have hand := Chain.Spells.more (c := .and) (.single (.group hnone hor hnone)) hgap hgap hyear
  have hparse : parse " (state:open OR peace) AND year:>1869" = .ok (some _) :=
    parse_eq_some_iff_denotes.2 ⟨_, hand, by decide, by decide, rfl⟩
  have hgroup : EveryNode AtMostOneWord
      (.node .or [.comparison "state" .like (Literal.infer "open"), .text "peace"]) :=
    .node (Nat.le_refl 1) (List.forall_mem_cons.2
      ⟨.comparison, List.forall_mem_cons.2 ⟨.text, nofun⟩⟩)
  have hwords : EveryNode AtMostOneWord (.node .and
      [.node .or [.comparison "state" .like (Literal.infer "open"), .text "peace"],
        .comparison "year" .greater (Literal.infer "1869")]) :=
    .node (Nat.zero_le 1) (List.forall_mem_cons.2
      ⟨hgroup, List.forall_mem_cons.2 ⟨.comparison, nofun⟩⟩)
  exact ⟨_, _, rfl, hparse, hwords, holds_documentOf _ _ hparse hwords⟩

end Filter

end Criteria
