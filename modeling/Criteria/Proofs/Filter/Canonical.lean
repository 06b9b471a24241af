import Criteria.Proofs.Filter.Grammar

/-!
# Canonical filters

A filter is canonical when each of its nodes has two operands or more and none of them is a node
with the same connector. On canonical operands `Filter.join` is associative
(`join_join_append`), gives a canonical filter again (`canonical_join`), and is at least as deep
as each of its operands (`depth_le_depth_join`). Main statement (`join_normalizes`): joining is
associative on canonical filters, gives canonical filters and keeps the value of any operands.
-/

namespace Criteria.Filter

/-- Every node of a filter, at any depth, has a connector and operands with property `P`. -/
inductive EveryNode (P : Connector → List Filter → Prop) : Filter → Prop where
  | comparison {field : String} {comparator : Comparator} {value : Literal} :
      EveryNode P (.comparison field comparator value)
  | text {word : String} : EveryNode P (.text word)
  | node {c : Connector} {operands : List Filter} :
      P c operands → (∀ f ∈ operands, EveryNode P f) → EveryNode P (.node c operands)

/-- The filter is a node with this connector. -/
def IsNode (c : Connector) (f : Filter) : Prop := ∃ operands, f = .node c operands

/-- Two operands or more, none of which is a node with the connector that joins them. -/
def CanonicalNode (c : Connector) (operands : List Filter) : Prop :=
  2 ≤ operands.length ∧ ∀ f ∈ operands, ¬ f.IsNode c

/-- No node has fewer than two operands or an operand with its own connector. -/
def Canonical : Filter → Prop := EveryNode CanonicalNode

theorem EveryNode.at_node {P : Connector → List Filter → Prop} {c : Connector}
    {operands : List Filter} (h : EveryNode P (.node c operands)) : P c operands := by
  cases h with
  | node hp _ => exact hp

theorem EveryNode.of_mem {P : Connector → List Filter → Prop} {c : Connector}
    {operands : List Filter} {f : Filter} (h : EveryNode P (.node c operands))
    (hf : f ∈ operands) : EveryNode P f := by
  cases h with
  | node _ hops => exact hops f hf

/-! ## The operands that a filter brings into a node -/

theorem operandsFor_node (c : Connector) (operands : List Filter) :
    operandsFor c (.node c operands) = operands := by
  rw [operandsFor, if_pos rfl]

theorem operandsFor_of_not_isNode {c : Connector} {f : Filter} (h : ¬ f.IsNode c) :
    operandsFor c f = [f] := by
  cases f with
  | comparison => rfl
  | text => rfl
  | node d operands =>
    have hd : d ≠ c := fun hd => h ⟨operands, by rw [hd]⟩
    rw [operandsFor, if_neg hd]

/-- What a canonical filter brings into a node is canonical and repeats no connector. -/
theorem Canonical.of_mem_operandsFor {c : Connector} {f g : Filter} (hf : f.Canonical)
    (hg : g ∈ operandsFor c f) : g.Canonical ∧ ¬ g.IsNode c := by
  by_cases h : f.IsNode c
  · obtain ⟨operands, rfl⟩ := h
    rw [operandsFor_node] at hg
    exact ⟨EveryNode.of_mem hf hg, (EveryNode.at_node hf).2 g hg⟩
  · rw [operandsFor_of_not_isNode h, List.mem_singleton] at hg
    subst hg
    exact ⟨hf, h⟩

theorem Canonical.of_mem_flatMap_operandsFor {c : Connector} {fs : List Filter} {g : Filter}
    (h : ∀ f ∈ fs, f.Canonical) (hg : g ∈ fs.flatMap (operandsFor c)) :
    g.Canonical ∧ ¬ g.IsNode c := by
  obtain ⟨f, hf, hgf⟩ := List.mem_flatMap.1 hg
  exact (h f hf).of_mem_operandsFor hgf

theorem collapse_eq_node {c : Connector} {fs : List Filter} (h : fs.length ≠ 1) :
    collapse c fs = .node c fs := by
  unfold collapse
  split
  · exact absurd rfl h
  · rfl

/-- Where no operand has the connector, nothing is lifted. -/
theorem join_eq_collapse {c : Connector} {fs : List Filter} (h : ∀ f ∈ fs, ¬ f.IsNode c) :
    join c fs = collapse c fs := by
  have hflat : fs.flatMap (operandsFor c) = fs := by
    induction fs with
    | nil => rfl
    | cons f rest ih =>
      rw [List.flatMap_cons, operandsFor_of_not_isNode (h f List.mem_cons_self),
        ih fun g hg => h g (List.mem_cons_of_mem f hg), List.singleton_append]
  rw [join, hflat]

/-- Joined canonical operands bring the same operands into a further node as they would one by
one. -/
theorem operandsFor_join {c : Connector} {fs : List Filter} (h : ∀ f ∈ fs, f.Canonical) :
    operandsFor c (join c fs) = fs.flatMap (operandsFor c) := by
  by_cases hlen : (fs.flatMap (operandsFor c)).length = 1
  · obtain ⟨g, hg⟩ := List.length_eq_one_iff.1 hlen
    have hmem : g ∈ fs.flatMap (operandsFor c) := by
      rw [hg]
      exact List.mem_singleton_self g
    rw [join, hg, collapse]
    exact operandsFor_of_not_isNode (Canonical.of_mem_flatMap_operandsFor h hmem).2
  · rw [join, collapse_eq_node hlen, operandsFor_node]

/-- Joining what is already joined is joining all of it at once. -/
theorem join_join_append {c : Connector} {fs : List Filter} (h : ∀ f ∈ fs, f.Canonical)
    (gs : List Filter) : join c (join c fs :: gs) = join c (fs ++ gs) := by
  rw [join, List.flatMap_cons, operandsFor_join h, ← List.flatMap_append, ← join]

/-- A canonical filter brings at least one operand into a node. -/
theorem Canonical.operandsFor_ne_nil {c : Connector} {f : Filter} (hf : f.Canonical) :
    operandsFor c f ≠ [] := by
  by_cases h : f.IsNode c
  · obtain ⟨operands, rfl⟩ := h
    have hlen := (EveryNode.at_node hf).1
    rw [operandsFor_node]
    rintro rfl
    simp at hlen
  · rw [operandsFor_of_not_isNode h]
    exact List.cons_ne_nil f []

/-- Joining canonical operands, at least one, gives a canonical filter. -/
theorem canonical_join {c : Connector} {fs : List Filter} (h : ∀ f ∈ fs, f.Canonical)
    (hne : fs ≠ []) : (join c fs).Canonical := by
  have hops : ∀ g ∈ fs.flatMap (operandsFor c), g.Canonical ∧ ¬ g.IsNode c :=
    fun g hg => Canonical.of_mem_flatMap_operandsFor h hg
  obtain ⟨f, rest, rfl⟩ := List.exists_cons_of_ne_nil hne
  have hpos : 0 < ((f :: rest).flatMap (operandsFor c)).length := by
    rw [List.flatMap_cons, List.length_append]
    have hfirst := List.length_pos_iff.2 ((h f List.mem_cons_self).operandsFor_ne_nil (c := c))
    omega
  rw [join]
  by_cases hlen : ((f :: rest).flatMap (operandsFor c)).length = 1
  · obtain ⟨g, hg⟩ := List.length_eq_one_iff.1 hlen
    rw [hg] at hops ⊢
    exact (hops g (List.mem_singleton_self g)).1
  · rw [collapse_eq_node hlen]
    exact .node ⟨by omega, fun g hg => (hops g hg).2⟩ fun g hg => (hops g hg).1

/-! ## Depth -/

theorem le_depthFrom (most : Nat) (fs : List Filter) : most ≤ depthFrom most fs := by
  induction fs generalizing most with
  | nil => exact Nat.le_refl most
  | cons f rest ih => exact Nat.le_trans (Nat.le_max_left most f.depth) (ih _)

theorem depth_le_depthFrom {f : Filter} {fs : List Filter} (hf : f ∈ fs) (most : Nat) :
    f.depth ≤ depthFrom most fs := by
  induction fs generalizing most with
  | nil => exact absurd hf List.not_mem_nil
  | cons g rest ih =>
    rw [depthFrom]
    rcases List.mem_cons.1 hf with rfl | hf
    · exact Nat.le_trans (Nat.le_max_right most f.depth) (le_depthFrom _ rest)
    · exact ih hf _

/-- An operand is less deep than its node. -/
theorem depth_lt_depth_node {c : Connector} {f : Filter} {operands : List Filter}
    (hf : f ∈ operands) : f.depth < (node c operands).depth := by
  have hle := depth_le_depthFrom hf 0
  rw [depth]
  omega

theorem depthFrom_le {fs : List Filter} {most n : Nat} (hmost : most ≤ n)
    (h : ∀ f ∈ fs, f.depth ≤ n) : depthFrom most fs ≤ n := by
  induction fs generalizing most with
  | nil => exact hmost
  | cons f rest ih =>
    exact ih (Nat.max_le.2 ⟨hmost, h f List.mem_cons_self⟩)
      fun g hg => h g (List.mem_cons_of_mem f hg)

theorem depth_node_mono {c : Connector} {fs gs : List Filter} (h : ∀ f ∈ fs, f ∈ gs) :
    (node c fs).depth ≤ (node c gs).depth := by
  have hle : depthFrom 0 fs ≤ depthFrom 0 gs :=
    depthFrom_le (Nat.zero_le _) fun f hf => depth_le_depthFrom (h f hf) 0
  rw [depth, depth]
  omega

theorem length_operandsFor_le (c : Connector) {f : Filter} {fs : List Filter} (hf : f ∈ fs) :
    (operandsFor c f).length ≤ (fs.flatMap (operandsFor c)).length := by
  obtain ⟨before, after, hsplit⟩ := List.append_of_mem hf
  rw [hsplit, List.flatMap_append, List.flatMap_cons]
  simp only [List.length_append]
  omega

/-- No canonical operand is deeper than what it is joined into. -/
theorem depth_le_depth_join {c : Connector} {fs : List Filter} {f : Filter}
    (hc : f.Canonical) (hf : f ∈ fs) : f.depth ≤ (join c fs).depth := by
  have hsub : ∀ g ∈ operandsFor c f, g ∈ fs.flatMap (operandsFor c) := by
    intro g hg
    exact List.mem_flatMap.2 ⟨f, hf, hg⟩
  by_cases h : f.IsNode c
  · -- the operands of `f` are lifted, so the node made here is as deep as `f` was
    obtain ⟨operands, rfl⟩ := h
    have htwo := (EveryNode.at_node hc).1
    have hlen := length_operandsFor_le c hf
    rw [operandsFor_node] at hsub hlen
    rw [join, collapse_eq_node (by omega)]
    exact depth_node_mono hsub
  · rw [operandsFor_of_not_isNode h] at hsub
    have hmem := hsub f (List.mem_singleton_self f)
    rw [join]
    by_cases hlen : (fs.flatMap (operandsFor c)).length = 1
    · obtain ⟨g, hg⟩ := List.length_eq_one_iff.1 hlen
      rw [hg, List.mem_singleton] at hmem
      refine Nat.le_of_eq ?_
      rw [hg, hmem, collapse]
    · rw [collapse_eq_node hlen]
      exact Nat.le_of_lt (depth_lt_depth_node hmem)

/-! ## Joining part by part

Canonical filters may be joined part by part or all at once (`join_map_join`), and what they are
joined into is at most one level deeper than the deepest of them (`depth_join_le`). -/

/-- Canonical filters that are joined part by part are joined as if all at once. -/
theorem join_map_join {c : Connector} {parts : List (List Filter)}
    (h : ∀ fs ∈ parts, ∀ f ∈ fs, f.Canonical) :
    join c (parts.map (join c)) = join c parts.flatten := by
  have hlift : (parts.map (join c)).flatMap (operandsFor c) =
      parts.flatten.flatMap (operandsFor c) := by
    induction parts with
    | nil => rfl
    | cons fs rest ih =>
      obtain ⟨hfs, hrest⟩ := List.forall_mem_cons.1 h
      rw [List.map_cons, List.flatMap_cons, List.flatten_cons, List.flatMap_append,
        operandsFor_join hfs, ih hrest]
  rw [join, hlift, ← join]

/-- What a filter brings into a node is no deeper than the filter. -/
theorem depth_le_of_mem_operandsFor {c : Connector} {f g : Filter} (h : g ∈ operandsFor c f) :
    g.depth ≤ f.depth := by
  by_cases hf : f.IsNode c
  · obtain ⟨operands, rfl⟩ := hf
    rw [operandsFor_node] at h
    exact Nat.le_of_lt (depth_lt_depth_node h)
  · rw [operandsFor_of_not_isNode hf, List.mem_singleton] at h
    exact Nat.le_of_eq (congrArg depth h)

/-- Joining adds one level at most. -/
theorem depth_join_le (c : Connector) (fs : List Filter) :
    (join c fs).depth ≤ 1 + depthFrom 0 fs := by
  have hlifted : depthFrom 0 (fs.flatMap (operandsFor c)) ≤ depthFrom 0 fs := by
    refine depthFrom_le (Nat.zero_le _) fun g hg => ?_
    obtain ⟨f, hf, hgf⟩ := List.mem_flatMap.1 hg
    exact Nat.le_trans (depth_le_of_mem_operandsFor hgf) (depth_le_depthFrom hf 0)
  rw [join]
  unfold collapse
  split
  · next only heq =>
    -- a single operand stays as it is
    have honly : only.depth ≤ depthFrom 0 (fs.flatMap (operandsFor c)) :=
      depth_le_depthFrom (by rw [heq]; exact List.mem_singleton_self only) 0
    omega
  · rw [depth]
    omega

/-- **Joining normalizes.** Canonical filters are joined in two parts as they are at once; the
result is canonical when there are any, and as deep as each of them. Filters of any kind are joined
into one that is at most one level deeper than the deepest and has their combined value. -/
theorem join_normalizes (c : Connector) :
    (∀ xs ys : List Filter, (∀ f ∈ xs ++ ys, f.Canonical) →
      join c [join c xs, join c ys] = join c (xs ++ ys) ∧
      (xs ++ ys ≠ [] → (join c (xs ++ ys)).Canonical) ∧
      ∀ f ∈ xs ++ ys, f.depth ≤ (join c (xs ++ ys)).depth) ∧
    ∀ fs : List Filter,
      (join c fs).depth ≤ 1 + (fs.map depth).foldl max 0 ∧
      ∀ v : Valuation, (join c fs).eval v = c.combine (fs.map (eval v)) := by
  constructor
  · intro xs ys h
    have hparts : ∀ fs ∈ [xs, ys], ∀ f ∈ fs, f.Canonical := by
      simpa [or_imp, forall_and] using h
    refine ⟨?_, canonical_join h, fun f hf => depth_le_depth_join (h f hf) hf⟩
    simpa using join_map_join (c := c) hparts
  · intro fs
    rw [← depthFrom_eq]
    exact ⟨depth_join_le c fs, fun v => eval_join v c fs⟩

/-- The theorem at a node whose operands are lifted and a node that is the only one in its part. -/
theorem join_normalizes_lifted_and_single :
    ∃ xs ys : List Filter,
      xs = [.node .and [.text "a", .text "b"]] ∧
      ys = [.node .or [.text "c", .text "d"]] ∧
      join .and [join .and xs, join .and ys] =
        .node .and [.text "a", .text "b", .node .or [.text "c", .text "d"]] ∧
      (join .and (xs ++ ys)).Canonical ∧ (join .and (xs ++ ys)).depth = 2 := by
  have hpair : ∀ (c : Connector) (a b : String), (node c [.text a, .text b]).Canonical := by
    intro c a b
    refine .node ⟨Nat.le_refl 2, ?_⟩ ?_
    · simp [IsNode]
    · simp only [List.mem_cons, List.not_mem_nil, or_false]
      rintro f (rfl | rfl) <;> exact .text
  have hall : ∀ f ∈ [node .and [.text "a", .text "b"]] ++ [node .or [.text "c", .text "d"]],
      f.Canonical := by
    simp [hpair]
  obtain ⟨hjoin, hcanonical, -⟩ := (join_normalizes .and).1 _ _ hall
  exact ⟨_, _, rfl, rfl, hjoin, hcanonical (by simp), rfl⟩

end Criteria.Filter
