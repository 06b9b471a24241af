import Criteria.Proofs.Document.Clauses
import Criteria.Proofs.Filter.Acceptance

/-!
# The shape of query documents

`Document.WellFormed` says what a database asks of a filter document: one entry at every level, and
under a connector's operator an array of two documents or more, none of which repeats the operator.
The translation does not check its input, so this rests on canonical filters: a node of those loses
its array only if all its operands are search words (`HasClauses.eq_textClause`). Main statement
(`wellFormed_documentOf`): what is read from a text has a well-formed document.
-/

namespace Criteria

/-- A value occurs inside a value, at any depth. -/
inductive Native.Inside (v : Native) : Native → Prop where
  | self : Inside v v
  | item {items : List Native} {x : Native} : x ∈ items → Inside v x → Inside v (.array items)
  | entry {entries : List (String × Native)} {key : String} {x : Native} :
      (key, x) ∈ entries → Inside v x → Inside v (.document entries)

mutual

/-- The largest number of arrays that are nested in one another. -/
def Native.arrayDepth : Native → Nat
  | .array items => 1 + Native.itemsDepth items
  | .document entries => Native.entriesDepth entries
  | _ => 0

/-- The largest depth of some items. -/
def Native.itemsDepth : List Native → Nat
  | [] => 0
  | item :: items => max item.arrayDepth (Native.itemsDepth items)

/-- The largest depth of the values of some entries. -/
def Native.entriesDepth : List (String × Native) → Nat
  | [] => 0
  | (_, value) :: entries => max value.arrayDepth (Native.entriesDepth entries)

end

/-- An array joins the conditions of a query: it stands under the operator of a connector, and its
items are documents with entries, two or more, none of which is an array under the same operator. -/
structure Native.JoinsClauses (key : String) (items : List Native) : Prop where
  operator : ∃ c : Connector, key = c.queryOperator
  two_le : 2 ≤ items.length
  documents : ∀ item ∈ items, ∃ d : Document, item = .document d ∧ d ≠ []
  alternates : ∀ item ∈ items, ∀ items', item ≠ .document [(key, .array items')]

/-- A document has one entry, and an array there joins the conditions of a query. -/
structure Document.Proper (d : Document) : Prop where
  one_entry : ∃ key value, d = [(key, value)]
  joins : ∀ key items, d = [(key, .array items)] → Native.JoinsClauses key items

/-- Every document in a value is proper. -/
def Native.Sound (v : Native) : Prop :=
  ∀ d : Document, Native.Inside (.document d) v → d.Proper

/-- A document that is a query, with arrays at most 64 deep. -/
structure Document.WellFormed (d : Document) : Prop where
  sound : (Native.document d).Sound
  depth_le : (Native.document d).arrayDepth ≤ 64

/-! ## Sound values -/

namespace Native

theorem sound_text (s : String) : (Native.text s).Sound := fun _ h => (nomatch h)

theorem sound_ofLiteral (value : Literal) : (ofLiteral value).Sound := by
  intro d hd
  cases value <;> exact nomatch hd

theorem sound_array {items : List Native} (h : ∀ item ∈ items, item.Sound) :
    (Native.array items).Sound := by
  intro d hd
  cases hd with
  | item hmem hinside => exact h _ hmem d hinside

theorem sound_single {key : String} {value : Native} (hvalue : value.Sound)
    (harray : ∀ items, value = .array items → JoinsClauses key items) :
    (single key value).Sound := by
  intro d hd
  cases hd with
  | self =>
    refine ⟨⟨key, value, rfl⟩, ?_⟩
    rintro key' items ⟨⟩
    exact harray items rfl
  | entry hmem hinside =>
    obtain ⟨-, rfl⟩ := Prod.mk.inj (List.mem_singleton.1 hmem)
    exact hvalue d hinside

theorem ofLiteral_ne_array (value : Literal) (items : List Native) :
    ofLiteral value ≠ .array items := by
  cases value <;> exact nofun

theorem arrayDepth_ofLiteral (value : Literal) : (ofLiteral value).arrayDepth = 0 := by
  cases value <;> rfl

theorem itemsDepth_le {items : List Native} {n : Nat} (h : ∀ item ∈ items, item.arrayDepth ≤ n) :
    itemsDepth items ≤ n := by
  induction items with
  | nil => exact Nat.zero_le n
  | cons item items ih =>
    rw [itemsDepth]
    exact Nat.max_le.2 ⟨h item List.mem_cons_self,
      ih fun x hx => h x (List.mem_cons_of_mem item hx)⟩

theorem arrayDepth_single (key : String) (value : Native) :
    (single key value).arrayDepth = value.arrayDepth := by
  rw [single, arrayDepth, entriesDepth, entriesDepth, Nat.max_zero]

end Native

theorem Connector.queryOperator_injective {c d : Connector}
    (h : c.queryOperator = d.queryOperator) : c = d := by
  have hread := congrArg Connector.ofQueryOperator? h
  rw [ofQueryOperator?_queryOperator, ofQueryOperator?_queryOperator] at hread
  exact Option.some.inj hread

namespace Filter

open Native

/-! ## Leaves -/

theorem sound_textClause (words : String) : (Native.document (textClause words)).Sound :=
  sound_single (sound_single (sound_text words) fun _ h => (nomatch h)) fun _ h => (nomatch h)

theorem sound_comparisonClause (field : String) (c : Comparator) (value : Literal) :
    (Native.document (comparisonClause field c value)).Sound := by
  have hvalue := sound_ofLiteral value
  have hne := ofLiteral_ne_array value
  unfold comparisonClause
  split
  · exact sound_single hvalue fun items h => absurd h (hne items)
  · exact sound_single (sound_single hvalue fun items h => absurd h (hne items))
      fun _ h => (nomatch h)

theorem comparisonClause_ne_array (field : String) (c : Comparator) (value : Literal)
    (key : String) (items : List Native) :
    comparisonClause field c value ≠ [(key, .array items)] := by
  unfold comparisonClause
  split
  · intro h
    exact ofLiteral_ne_array value items (Prod.mk.inj (List.cons.inj h).1).2
  · exact nofun

theorem textClause_ne_array (words key : String) (items : List Native) :
    textClause words ≠ [(key, .array items)] := nofun

/-! ## Nodes -/

section Node

variable {c : Connector} {operands : List Filter} {ds : List Document} {d : Document}

/-- A clause of a node searches for words or is the document of an operand. -/
theorem HasClauses.of_mem (h : HasClauses operands ds) (hd : d ∈ ds) :
    (∃ words, d = textClause words) ∨ ∃ f ∈ operands, d = f.toDocument := by
  cases h with
  | separate =>
    obtain ⟨f, hf, rfl⟩ := List.mem_map.1 hd
    exact .inr ⟨f, hf, rfl⟩
  | merged =>
    rcases List.mem_append.1 hd with hbefore | hrest
    · obtain ⟨f, hf, rfl⟩ := List.mem_map.1 hbefore
      exact .inr ⟨f, List.mem_append_left _ hf, rfl⟩
    · rcases List.mem_cons.1 hrest with rfl | hafter
      · exact .inl ⟨_, rfl⟩
      · obtain ⟨f, hf, rfl⟩ := List.mem_map.1 hafter
        have hmem := List.mem_of_mem_filter hf
        exact .inr ⟨f, List.mem_append_right _ (List.mem_cons_of_mem _ hmem), rfl⟩

theorem HasClauses.ne_nil (h : HasClauses operands ds) (hne : operands ≠ []) : ds ≠ [] := by
  cases h with
  | separate => simpa using hne
  | merged => simp

/-- Two operands or more have a single clause only if that is for their search words. -/
theorem HasClauses.eq_textClause (h : HasClauses operands [d]) (htwo : 2 ≤ operands.length) :
    ∃ words, d = textClause words := by
  generalize hds : [d] = ds at h
  cases h with
  | separate =>
    have hlength := congrArg List.length hds
    rw [List.length_map, List.length_singleton] at hlength
    omega
  | @merged before after word hbefore =>
    cases before with
    | nil => exact ⟨_, (List.cons.inj hds).1⟩
    | cons f before =>
      have hlength := congrArg List.length hds
      simp at hlength

end Node

/-- In the document of a canonical filter an array is under the operator of the filter's root. -/
theorem Canonical.isNode_of_toDocument {f : Filter} (hf : f.Canonical) {c : Connector}
    {items : List Native} (h : f.toDocument = [(c.queryOperator, .array items)]) : f.IsNode c := by
  cases f with
  | comparison field comparator value =>
    rw [toDocument] at h
    exact absurd h (comparisonClause_ne_array field comparator value _ items)
  | text word =>
    rw [toDocument] at h
    exact absurd h (textClause_ne_array word _ items)
  | node d operands =>
    rcases toDocument_node_cases d operands with ⟨only, hds, honly⟩ | ⟨ds, -, -, hmany⟩
    · obtain ⟨words, rfl⟩ := hds.eq_textClause (EveryNode.at_node hf).1
      exact absurd (honly.symm.trans h) (textClause_ne_array words _ items)
    · rw [hmany] at h
      have hkey : d.queryOperator = c.queryOperator := (Prod.mk.inj (List.cons.inj h).1).1
      exact ⟨operands, by rw [Connector.queryOperator_injective hkey]⟩

/-- Several clauses of a canonical node are joined as a query asks for. -/
theorem joinsClauses_of_hasClauses {c : Connector} {operands : List Filter} {ds : List Document}
    (hnode : CanonicalNode c operands) (hoperands : ∀ f ∈ operands, f.Canonical)
    (hds : HasClauses operands ds) (hlength : ds.length ≠ 1)
    (hsound : ∀ d ∈ ds, (Native.document d).Sound) :
    JoinsClauses c.queryOperator (ds.map .document) where
  operator := ⟨c, rfl⟩
  two_le := by
    have hoperand : operands ≠ [] := by
      rintro rfl
      exact absurd hnode.1 (by decide)
    have hpos : 0 < ds.length := List.length_pos_iff.2 (hds.ne_nil hoperand)
    rw [List.length_map]
    omega
  documents item hitem := by
    obtain ⟨d, hd, rfl⟩ := List.mem_map.1 hitem
    obtain ⟨key, value, rfl⟩ := (hsound d hd d .self).one_entry
    exact ⟨_, rfl, List.cons_ne_nil _ _⟩
  alternates item hitem items' heq := by
    obtain ⟨d, hd, rfl⟩ := List.mem_map.1 hitem
    have hd' : d = [(c.queryOperator, .array items')] := Native.document.inj heq
    rcases hds.of_mem hd with ⟨words, rfl⟩ | ⟨f, hf, rfl⟩
    · exact textClause_ne_array words _ items' hd'
    · -- an operand with this array would be a node with the connector of its parent
      exact hnode.2 f hf (Canonical.isNode_of_toDocument (hoperands f hf) hd')

/-- The document of a canonical filter is sound. -/
theorem Canonical.sound_toDocument {f : Filter} (hf : f.Canonical) :
    (Native.document f.toDocument).Sound := by
  induction hf with
  | comparison =>
    rw [toDocument]
    exact sound_comparisonClause _ _ _
  | text =>
    rw [toDocument]
    exact sound_textClause _
  | @node c operands hnode hoperands ih =>
    have hclause : ∀ ds, HasClauses operands ds → ∀ d ∈ ds, (Native.document d).Sound := by
      intro ds hds d hd
      rcases hds.of_mem hd with ⟨words, rfl⟩ | ⟨f, hf, rfl⟩
      · exact sound_textClause words
      · exact ih f hf
    rcases toDocument_node_cases c operands with ⟨d, hds, hone⟩ | ⟨ds, hds, hlength, hmany⟩
    · rw [hone]
      exact hclause [d] hds d (List.mem_singleton_self d)
    · rw [hmany]
      refine sound_single (sound_array ?_) ?_
      · intro item hitem
        obtain ⟨d, hd, rfl⟩ := List.mem_map.1 hitem
        exact hclause ds hds d hd
      · rintro items ⟨⟩
        exact joinsClauses_of_hasClauses hnode hoperands hds hlength (hclause ds hds)

/-! ## Depth -/

theorem arrayDepth_textClause (words : String) :
    (Native.document (textClause words)).arrayDepth = 0 := rfl

theorem arrayDepth_comparisonClause (field : String) (c : Comparator) (value : Literal) :
    (Native.document (comparisonClause field c value)).arrayDepth = 0 := by
  have hvalue := arrayDepth_ofLiteral value
  unfold comparisonClause
  split
  · exact (arrayDepth_single field _).trans hvalue
  · exact (arrayDepth_single field _).trans ((arrayDepth_single _ _).trans hvalue)

/-- Arrays nest no deeper than nodes. -/
theorem arrayDepth_toDocument_le (f : Filter) :
    (Native.document f.toDocument).arrayDepth ≤ f.depth := by
  induction f using operandInduction with
  | comparison field c value =>
    rw [toDocument, arrayDepth_comparisonClause]
    exact Nat.zero_le _
  | text word =>
    rw [toDocument, arrayDepth_textClause]
    exact Nat.zero_le _
  | node c operands ih =>
    have hclause : ∀ ds, HasClauses operands ds → ∀ d ∈ ds,
        (Native.document d).arrayDepth ≤ depthFrom 0 operands := by
      intro ds hds d hd
      rcases hds.of_mem hd with ⟨words, rfl⟩ | ⟨f, hf, rfl⟩
      · exact Nat.zero_le _
      · exact Nat.le_trans (ih f hf) (depth_le_depthFrom hf 0)
    rw [depth]
    rcases toDocument_node_cases c operands with ⟨d, hds, hone⟩ | ⟨ds, hds, -, hmany⟩
    · have hd := hclause [d] hds d (List.mem_singleton_self d)
      rw [hone]
      omega
    · have hitems : itemsDepth (ds.map .document) ≤ depthFrom 0 operands := by
        refine itemsDepth_le fun item hitem => ?_
        obtain ⟨d, hd, rfl⟩ := List.mem_map.1 hitem
        exact hclause ds hds d hd
      have harray := arrayDepth_single c.queryOperator (.array (ds.map .document))
      rw [single, Native.arrayDepth] at harray
      rw [hmany]
      omega

/-! ## What is read from a text -/

theorem wellFormed_toDocument {f : Filter} (hf : f.Canonical) (hdepth : f.depth ≤ 64) :
    Document.WellFormed f.toDocument where
  sound := hf.sound_toDocument
  depth_le := Nat.le_trans (arrayDepth_toDocument_le f) hdepth

/-- **The document of a filter text is a well-formed query.** It is empty exactly where the text is
blank. Otherwise every document in it has one entry, every array joins two conditions or more under
the operator of a connector and none of them repeats it, and arrays are at most 64 deep. -/
theorem wellFormed_documentOf {text : String} {r : Option Filter} (h : parse text = .ok r) :
    (documentOf r = [] ↔ Text.blank text.toList = true) ∧
      (documentOf r ≠ [] → (documentOf r).WellFormed) := by
  cases r with
  | none =>
    have hblank := parse_eq_none_iff.1 h
    exact ⟨⟨fun _ => hblank, fun _ => rfl⟩, fun hne => absurd rfl hne⟩
  | some f =>
    obtain ⟨chain, -, -, hdepth, rfl⟩ := parse_eq_some_iff_denotes.1 h
    have hwell := wellFormed_toDocument chain.canonical_toFilter hdepth
    obtain ⟨key, value, hentry⟩ := (hwell.sound _ .self).one_entry
    refine ⟨⟨fun hempty => ?_, fun hblank => ?_⟩, fun _ => hwell⟩
    · rw [documentOf, hentry] at hempty
      exact nomatch hempty
    · rw [parse_eq_none_iff.2 hblank] at h
      exact nomatch h

/-- The theorem at a group of search words, which loses its array, and a comparison. -/
theorem wellFormed_documentOf_words_and_comparison :
    ∃ (text : String) (r : Option Filter),
      text = "(peace OR war) AND year:>1869" ∧
      parse text = .ok r ∧
      documentOf r = [("$and", .array [single "$text" (single "$search" (.text "peace war")),
        single "year" (single "$gt" (ofLiteral (Literal.infer "1869")))])] ∧
      (documentOf r = [] ↔ Text.blank text.toList = true) ∧
      (documentOf r ≠ [] → (documentOf r).WellFormed) := by
  have hgap : IsGap [' '] := ⟨List.cons_ne_nil _ _, rfl⟩
  have hkey : ∀ name ∈ ["peace", "war", "year"], Text.IsKey name.toList := by
    simp only [Text.isKey_iff]
    decide
  have hvalue : IsValue "1869".toList := .bare ((Text.isBareValue_iff _).2 (by decide))
  have hor := Chain.Spells.more (c := .or) (.single (.word (hkey "peace" (by decide)))) hgap hgap
    (.word (hkey "war" (by decide)))
  have hspells : Chain.Spells _ "(peace OR war) AND year:>1869".toList :=
    Chain.Spells.more (c := .and) (.single (@Term.Spells.group _ [] _ [] rfl hor rfl)) hgap hgap
      (.comparison (c := .greater) (hkey "year" (by decide)) hvalue)
  have hparse := hspells.parse_eq (by decide) (by decide)
  exact ⟨_, _, rfl, hparse, rfl, wellFormed_documentOf hparse⟩

end Filter

end Criteria
