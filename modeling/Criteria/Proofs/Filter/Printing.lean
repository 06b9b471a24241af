import Criteria.Proofs.Filter.Acceptance
import Criteria.Proofs.Text.Words

/-!
# Printed filters

A `Draft` is a filter whose values are still texts. `Draft.text` prints it with a word between
operands and parentheses around every node among them, and `Draft.toFilter` types its values. Main
statement (`parse_text`): a canonical draft of at most 64 levels is read from its text.
-/

namespace Criteria.Filter

open Criteria.Text

/-- A filter with the texts of its values, quotes included. -/
inductive Draft where
  | word (name : String)
  | comparison (field : String) (comparator : Comparator) (raw : String)
  | node (connector : Connector) (operands : List Draft)

namespace Draft

def isNode : Draft → Bool
  | .node _ _ => true
  | _ => false

/-- What stands between operands. -/
def separator (c : Connector) : String := " " ++ c.word ++ " "

mutual

/-- The text of a draft. -/
def text : Draft → String
  | .word name => name
  | .comparison field c raw => field ++ c.symbol ++ raw
  | .node c operands => (separator c).intercalate (operandTexts operands)

/-- The texts of operands, in parentheses where they are nodes. -/
def operandTexts : List Draft → List String
  | [] => []
  | d :: rest => (if d.isNode then "(" ++ d.text ++ ")" else d.text) :: operandTexts rest

end

mutual

/-- The filter with the literals that the texts of the values denote. -/
def toFilter : Draft → Filter
  | .word name => .text name
  | .comparison field c raw => .comparison field c (Literal.infer raw)
  | .node c operands => .node c (toFilters operands)

def toFilters : List Draft → List Filter
  | [] => []
  | d :: rest => d.toFilter :: toFilters rest

end

/-- Keys and values that can be read at the leaves, and nodes with two operands or more, none of
which is a node with the same connector. -/
inductive Canonical : Draft → Prop where
  | word {name : String} : IsKey name.toList → Canonical (.word name)
  | comparison {field raw : String} {c : Comparator} :
      IsKey field.toList → IsValue raw.toList → Canonical (.comparison field c raw)
  | node {c : Connector} {operands : List Draft} :
      2 ≤ operands.length → (∀ d ∈ operands, ∀ inner, d ≠ .node c inner) →
      (∀ d ∈ operands, Canonical d) → Canonical (.node c operands)

/-- The text of a draft as an operand. -/
def operandText (d : Draft) : String := if d.isNode then "(" ++ d.text ++ ")" else d.text

theorem text_node (c : Connector) (operands : List Draft) :
    (node c operands).text = (separator c).intercalate (operands.map operandText) := by
  have hmap : ∀ ds : List Draft, operandTexts ds = ds.map operandText := by
    intro ds
    induction ds with
    | nil => rfl
    | cons d rest ih => rw [operandTexts, ih, List.map_cons, operandText]
  rw [text, hmap]

theorem toFilter_node (c : Connector) (operands : List Draft) :
    (node c operands).toFilter = .node c (operands.map toFilter) := by
  have hmap : ∀ ds : List Draft, toFilters ds = ds.map toFilter := by
    intro ds
    induction ds with
    | nil => rfl
    | cons d rest ih => rw [toFilters, ih, List.map_cons]
  rw [toFilter, hmap]

/-- The filter of a draft is a node with a connector only where the draft is one. -/
theorem not_isNode_toFilter {d : Draft} {c : Connector} (h : ∀ inner, d ≠ .node c inner) :
    ¬ d.toFilter.IsNode c := by
  rintro ⟨operands, heq⟩
  cases d with
  | word => exact nomatch heq
  | comparison => exact nomatch heq
  | node c' inner =>
    rw [toFilter_node] at heq
    cases heq
    exact h inner rfl

end Draft

/-! ## The derivation of a printed filter -/

/-- The term spells a draft as an operand, denotes its filter and has no more parentheses than the
filter has levels. -/
structure Term.Writes (term : Term) (d : Draft) : Prop where
  spells : term.Spells d.operandText.toList
  nesting_le : term.nesting ≤ d.toFilter.depth
  toFilter_eq : term.toFilter = d.toFilter

theorem Term.Writes.canonical_toFilter {term : Term} {d : Draft} (h : term.Writes d) :
    d.toFilter.Canonical := by
  rw [← h.toFilter_eq]
  exact term.canonical_toFilter

/-- A chain goes on with further operands behind one connector. -/
theorem Chain.Spells.exists_more {c : Connector} {rest : List Draft}
    (hrest : ∀ d ∈ rest, ∃ term : Term, term.Writes d) {n : Nat}
    (hdepth : ∀ d ∈ rest, d.toFilter.depth ≤ n) {init : Chain} {s : List Char}
    (hs : init.Spells s) (hnest : init.nesting ≤ n) {fs : List Filter}
    (hfs : ∀ f ∈ fs, f.Canonical) (hinit : init.toFilter = join c fs) :
    ∃ chain : Chain,
      chain.Spells (s ++ rest.flatMap fun d =>
        (Draft.separator c).toList ++ d.operandText.toList) ∧
      chain.nesting ≤ n ∧ chain.toFilter = join c (fs ++ rest.map Draft.toFilter) := by
  -- on the operands, with the chain before them growing
  induction rest generalizing init s fs with
  | nil => exact ⟨init, by simpa using hs, hnest, by simpa using hinit⟩
  | cons d rest ih =>
    obtain ⟨term, hterm⟩ := hrest d List.mem_cons_self
    have hgap : IsGap [' '] := ⟨List.cons_ne_nil _ _, rfl⟩
    have hmore := Chain.Spells.more (c := c) hs hgap hgap hterm.spells
    have hnest' : (Chain.more init c term).nesting ≤ n := by
      have hle := hterm.nesting_le
      have hd := hdepth d List.mem_cons_self
      rw [Chain.nesting]
      omega
    have hfilter : (Chain.more init c term).toFilter = join c (fs ++ [d.toFilter]) := by
      rw [Chain.toFilter, hinit, hterm.toFilter_eq, join_join_append hfs]
    have hcanonical : ∀ f ∈ fs ++ [d.toFilter], f.Canonical := by
      intro f hf
      rcases List.mem_append.1 hf with hf | hf
      · exact hfs f hf
      · rw [List.mem_singleton.1 hf]
        exact hterm.canonical_toFilter
    obtain ⟨chain, hspells, hle, heq⟩ := ih (fun e he => hrest e (List.mem_cons_of_mem d he))
      (fun e he => hdepth e (List.mem_cons_of_mem d he)) hmore hnest' hcanonical hfilter
    refine ⟨chain, ?_, hle, ?_⟩
    · simpa [Draft.separator] using hspells
    · simpa using heq

/-- The text of a node has a derivation, given those of its operands. -/
theorem Draft.exists_chain_node {c : Connector} {operands : List Draft}
    (hlen : 2 ≤ operands.length) (hfree : ∀ d ∈ operands, ∀ inner, d ≠ .node c inner)
    (hterms : ∀ d ∈ operands, ∃ term : Term, term.Writes d) :
    ∃ chain : Chain, chain.Spells (Draft.node c operands).text.toList ∧
      chain.nesting < (Draft.node c operands).toFilter.depth ∧
      chain.toFilter = (Draft.node c operands).toFilter := by
  have hnode : ∀ f ∈ operands.map toFilter, ¬ f.IsNode c := by
    intro f hf
    obtain ⟨d, hd, rfl⟩ := List.mem_map.1 hf
    exact not_isNode_toFilter (hfree d hd)
  have hdepth : ∀ d ∈ operands, d.toFilter.depth ≤ depthFrom 0 (operands.map toFilter) :=
    fun d hd => depth_le_depthFrom (List.mem_map_of_mem hd) 0
  -- the first operand is the chain to start from
  obtain ⟨first, rest, rfl⟩ := List.exists_cons_of_length_pos (Nat.lt_of_lt_of_le (by decide) hlen)
  obtain ⟨term, hterm⟩ := hterms first List.mem_cons_self
  have hnest : (Chain.single term).nesting ≤ depthFrom 0 ((first :: rest).map toFilter) :=
    Nat.le_trans hterm.nesting_le (hdepth first List.mem_cons_self)
  have hcanonical : ∀ f ∈ [first.toFilter], f.Canonical :=
    List.forall_mem_singleton.2 hterm.canonical_toFilter
  have hinit : (Chain.single term).toFilter = join c [first.toFilter] := by
    rw [join_eq_collapse (List.forall_mem_singleton.2 (hnode _ List.mem_cons_self))]
    exact hterm.toFilter_eq
  obtain ⟨chain, hspells, hle, heq⟩ := Chain.Spells.exists_more
    (fun d hd => hterms d (List.mem_cons_of_mem first hd))
    (fun d hd => hdepth d (List.mem_cons_of_mem first hd))
    (.single hterm.spells) hnest hcanonical hinit
  refine ⟨chain, ?_, ?_, ?_⟩
  · rw [text_node, List.map_cons, toList_intercalate_cons, List.flatMap_map]
    exact hspells
  · rw [toFilter_node, depth]
    omega
  · have hlen' : ((first :: rest).map toFilter).length ≠ 1 := by
      rw [List.length_map]
      omega
    rw [heq, toFilter_node, List.singleton_append, ← List.map_cons, join_eq_collapse hnode,
      collapse_eq_node hlen']

/-- The text of a canonical draft as an operand has a derivation as a term. -/
theorem Draft.Canonical.exists_term {d : Draft} (h : d.Canonical) :
    ∃ term : Term, term.Writes d := by
  induction h with
  | @word name hkey => exact ⟨.word name, .word hkey, Nat.le_refl 0, rfl⟩
  | @comparison field raw c hkey hvalue =>
    refine ⟨.comparison field c raw, ?_, Nat.le_refl 0, rfl⟩
    have hspells := Term.Spells.comparison (c := c) hkey hvalue
    rwa [← String.toList_append, ← String.toList_append] at hspells
  | @node c operands hlen hfree _ ih =>
    obtain ⟨chain, hspells, hnest, heq⟩ := exists_chain_node hlen hfree ih
    refine ⟨.group chain, ?_, hnest, heq⟩
    have hgroup := @Term.Spells.group chain [] _ [] rfl hspells rfl
    simpa [operandText, isNode] using hgroup

/-- The text of a canonical draft has a derivation as a chain. -/
theorem Draft.Canonical.exists_chain {d : Draft} (h : d.Canonical) :
    ∃ chain : Chain, chain.Spells d.text.toList ∧ chain.nesting ≤ d.toFilter.depth ∧
      chain.toFilter = d.toFilter := by
  cases h with
  | node hlen hfree hoperands =>
    obtain ⟨chain, hspells, hnest, heq⟩ :=
      exists_chain_node hlen hfree fun e he => (hoperands e he).exists_term
    exact ⟨chain, hspells, Nat.le_of_lt hnest, heq⟩
  | word hkey =>
    obtain ⟨term, hterm⟩ := (Draft.Canonical.word hkey).exists_term
    exact ⟨.single term, .single hterm.spells, hterm.nesting_le, hterm.toFilter_eq⟩
  | comparison hkey hvalue =>
    obtain ⟨term, hterm⟩ := (Draft.Canonical.comparison hkey hvalue).exists_term
    exact ⟨.single term, .single hterm.spells, hterm.nesting_le, hterm.toFilter_eq⟩

/-- **Every canonical filter can be written.** A canonical draft of at most 64 levels is read from
its text, with its values typed. -/
theorem parse_text (d : Draft) (h : d.Canonical) (hdepth : d.toFilter.depth ≤ 64) :
    parse d.text = .ok (some d.toFilter) := by
  obtain ⟨chain, hspells, hnest, heq⟩ := h.exists_chain
  rw [← heq] at hdepth hnest ⊢
  exact hspells.parse_eq (Nat.le_trans hnest hdepth) hdepth

/-- The theorem at a draft over connectors' words, with a quoted value that looks like a group. -/
theorem parse_text_connector_words :
    ∃ d : Draft,
      d = .node .and [.word "OR", .node .or [.word "AND",
        .comparison "title" .greaterEqual "'a) AND (b'", .comparison "at" .like ":10:30"]] ∧
      d.Canonical ∧ d.toFilter.depth ≤ 64 ∧
      parse "OR AND (AND OR title:>='a) AND (b' OR at::10:30)" = .ok (some d.toFilter) := by
  have htitle : Draft.Canonical (.comparison "title" .greaterEqual "'a) AND (b'") := by
    have hquoted : IsValue ('\'' :: ("a) AND (b".toList ++ ['\''])) :=
      .quoted (.inl rfl) (by decide) (by decide)
    exact .comparison ((isKey_iff _).2 (by decide)) hquoted
  have htime : Draft.Canonical (.comparison "at" .like ":10:30") :=
    .comparison ((isKey_iff _).2 (by decide)) (.bare ((isBareValue_iff _).2 (by decide)))
  have hand : Draft.Canonical (.word "AND") := .word (isKey_word .and)
  have hor : Draft.Canonical (.word "OR") := .word (isKey_word .or)
  have hinner : Draft.Canonical (.node .or [.word "AND",
      .comparison "title" .greaterEqual "'a) AND (b'", .comparison "at" .like ":10:30"]) :=
    .node (by decide) (by simp) (by simp [hand, htitle, htime])
  have hd : Draft.Canonical (.node .and [.word "OR", .node .or [.word "AND",
      .comparison "title" .greaterEqual "'a) AND (b'", .comparison "at" .like ":10:30"]]) :=
    .node (by decide) (by simp) (by simp [hor, hinner])
  have hparse := parse_text _ hd (by decide)
  exact ⟨_, rfl, hd, by decide, (congrArg parse (by decide +kernel)).trans hparse⟩

end Criteria.Filter
