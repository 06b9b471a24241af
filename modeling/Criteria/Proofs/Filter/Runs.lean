import Criteria.Proofs.Filter.Composition
import Mathlib.Data.List.SplitBy

/-!
# Runs of connectors

A chain goes on with links, each a connector with a term behind it. Links fall into runs, the
longest stretches with one connector. Where the terms are leaves, each run adds one node to the
filter before it (`foldl_addLink_eq_foldl_addRun`) and so one level (`LeafRuns.depth_foldl_addRun`).
Main statement (`parse_runs`): a chain of leaves is read exactly when it has at most 64 runs,
however long they are.
-/

namespace Criteria.Filter

open Criteria.Text

/-! ## Links -/

/-- A connector and the term behind it. -/
abbrev Link := Connector × Term

/-- A chain with further links behind it. -/
def Chain.extend (init : Chain) (links : List Link) : Chain :=
  links.foldl (fun chain link => .more chain link.1 link.2) init

/-- What a link makes of the filter before it. -/
def addLink (f : Filter) (link : Link) : Filter := join link.1 [f, link.2.toFilter]

/-- A search word or a comparison. -/
inductive Term.IsLeaf : Term → Prop where
  | word {name : String} : Term.IsLeaf (.word name)
  | comparison {field raw : String} {c : Comparator} : Term.IsLeaf (.comparison field c raw)

theorem Term.IsLeaf.nesting_eq {term : Term} (h : term.IsLeaf) : term.nesting = 0 := by
  cases h <;> rfl

theorem Term.IsLeaf.depth_toFilter {term : Term} (h : term.IsLeaf) : term.toFilter.depth = 0 := by
  cases h <;> rfl

theorem Term.IsLeaf.not_isNode {term : Term} (h : term.IsLeaf) (c : Connector) :
    ¬ term.toFilter.IsNode c := by
  rintro ⟨operands, heq⟩
  cases h <;> exact nomatch heq

theorem Chain.toFilter_extend (init : Chain) (links : List Link) :
    (init.extend links).toFilter = links.foldl addLink init.toFilter := by
  induction links generalizing init with
  | nil => rfl
  | cons link rest ih => exact ih (.more init link.1 link.2)

/-- Links count for what their terms count. -/
theorem Chain.nesting_extend_le {init : Chain} {links : List Link} {n : Nat}
    (hinit : init.nesting ≤ n) (hlinks : ∀ link ∈ links, link.2.nesting ≤ n) :
    (init.extend links).nesting ≤ n := by
  induction links generalizing init with
  | nil => exact hinit
  | cons link rest ih =>
    obtain ⟨hlink, hrest⟩ := List.forall_mem_cons.1 hlinks
    exact ih (Nat.max_le.2 ⟨hinit, hlink⟩) hrest

theorem Chain.nesting_extend {init : Chain} {links : List Link} (hinit : init.nesting = 0)
    (hlinks : ∀ link ∈ links, link.2.IsLeaf) : (init.extend links).nesting = 0 :=
  Nat.le_zero.1 (Chain.nesting_extend_le (Nat.le_of_eq hinit) fun link hlink =>
    Nat.le_of_eq (hlinks link hlink).nesting_eq)

/-- Links can be written behind a chain. -/
theorem Chain.Spells.exists_extend {init : Chain} {s : List Char} (hs : init.Spells s)
    {links : List Link} (hlinks : ∀ link ∈ links, ∃ t, link.2.Spells t) :
    ∃ t, (init.extend links).Spells t := by
  induction links generalizing init s with
  | nil => exact ⟨s, hs⟩
  | cons link rest ih =>
    obtain ⟨⟨t, hlink⟩, hrest⟩ := List.forall_mem_cons.1 hlinks
    have hgap : IsGap [' '] := ⟨List.cons_ne_nil _ _, rfl⟩
    exact ih (.more hs hgap hgap hlink) hrest

/-! ## One run -/

/-- The node that a run makes of the filter before it: that filter is its first operand, and the
terms of the run are the others. -/
def addRun (f : Filter) : List Link → Filter
  | [] => f
  | (c, term) :: rest => .node c (f :: term.toFilter :: rest.map fun link => link.2.toFilter)

section Run

variable {run : List Link} {f : Filter} {c : Connector}

/-- A node goes on with the terms of further links that have its connector. -/
theorem foldl_addLink_node (hrun : ∀ link ∈ run, link.1 = c)
    (hleaf : ∀ link ∈ run, link.2.IsLeaf) {operands : List Filter} (hne : operands ≠ []) :
    run.foldl addLink (.node c operands) =
      .node c (operands ++ run.map fun link => link.2.toFilter) := by
  induction run generalizing operands with
  | nil => simp
  | cons link rest ih =>
    obtain ⟨rfl, hrest⟩ := List.forall_mem_cons.1 hrun
    obtain ⟨hlink, hleaves⟩ := List.forall_mem_cons.1 hleaf
    have hadd : addLink (.node link.1 operands) link =
        .node link.1 (operands ++ [link.2.toFilter]) := by
      have hpos := List.length_pos_iff.2 hne
      rw [addLink, join, List.flatMap_cons, List.flatMap_singleton, operandsFor_node,
        operandsFor_of_not_isNode (hlink.not_isNode _), collapse_eq_node]
      rw [List.length_append, List.length_singleton]
      omega
    rw [List.foldl_cons, hadd, ih hrest hleaves (by simp)]
    simp

/-- The links of a run behind a filter with another connector make up one node. -/
theorem foldl_addLink_eq_addRun (hrun : ∀ link ∈ run, link.1 = c)
    (hleaf : ∀ link ∈ run, link.2.IsLeaf) (hf : ¬ f.IsNode c) :
    run.foldl addLink f = addRun f run := by
  cases run with
  | nil => rfl
  | cons link rest =>
    obtain ⟨rfl, hrest⟩ := List.forall_mem_cons.1 hrun
    obtain ⟨hlink, hleaves⟩ := List.forall_mem_cons.1 hleaf
    have hadd : addLink f link = .node link.1 [f, link.2.toFilter] := by
      rw [addLink, join_eq_collapse, collapse_eq_node (by simp)]
      simpa using ⟨hf, hlink.not_isNode _⟩
    rw [List.foldl_cons, hadd, foldl_addLink_node hrest hleaves (by simp)]
    rfl

theorem isNode_addRun_iff (hne : run ≠ [])
    (hrun : ∀ link ∈ run, ∀ link' ∈ run, link.1 = link'.1) :
    (addRun f run).IsNode c ↔ ∀ link ∈ run, link.1 = c := by
  obtain ⟨first, rest, rfl⟩ := List.exists_cons_of_ne_nil hne
  constructor
  · rintro ⟨operands, hnode⟩ link hlink
    rw [hrun link hlink first List.mem_cons_self]
    cases hnode
    rfl
  · intro hall
    obtain rfl := hall first List.mem_cons_self
    exact ⟨_, rfl⟩

/-- A run of leaves adds one level to the filter before it. -/
theorem depth_addRun (hne : run ≠ []) (hleaf : ∀ link ∈ run, link.2.IsLeaf) (f : Filter) :
    (addRun f run).depth = f.depth + 1 := by
  obtain ⟨first, rest, rfl⟩ := List.exists_cons_of_ne_nil hne
  have hle : depthFrom 0 (f :: (first :: rest).map fun link => link.2.toFilter) ≤ f.depth := by
    refine depthFrom_le (Nat.zero_le _) ?_
    rw [List.forall_mem_cons]
    refine ⟨Nat.le_refl _, fun g hg => ?_⟩
    obtain ⟨link, hlink, rfl⟩ := List.mem_map.1 hg
    rw [(hleaf link hlink).depth_toFilter]
    exact Nat.zero_le _
  have hge : f.depth ≤ depthFrom 0 (f :: (first :: rest).map fun link => link.2.toFilter) :=
    depth_le_depthFrom List.mem_cons_self 0
  have hdepth : (addRun f (first :: rest)).depth =
      1 + depthFrom 0 (f :: (first :: rest).map fun link => link.2.toFilter) := rfl
  omega

end Run

/-! ## All runs -/

/-- The longest stretches of links with one connector, in order. -/
def runs (links : List Link) : List (List Link) := links.splitBy fun a b => a.1 == b.1

/-- Runs of leaves: none is empty, each has one connector, and it changes from each to the next. -/
structure LeafRuns (groups : List (List Link)) : Prop where
  ne_nil : ∀ run ∈ groups, run ≠ []
  isLeaf : ∀ run ∈ groups, ∀ link ∈ run, link.2.IsLeaf
  connector_eq : ∀ run ∈ groups, ∀ link ∈ run, ∀ link' ∈ run, link.1 = link'.1
  changes : groups.IsChain fun a b => ∀ link ∈ a, ∀ link' ∈ b, link.1 ≠ link'.1

theorem LeafRuns.of_cons {run : List Link} {rest : List (List Link)} (h : LeafRuns (run :: rest)) :
    LeafRuns rest where
  ne_nil := (List.forall_mem_cons.1 h.ne_nil).2
  isLeaf := (List.forall_mem_cons.1 h.isLeaf).2
  connector_eq := (List.forall_mem_cons.1 h.connector_eq).2
  changes := (List.isChain_cons.1 h.changes).2

/-- Runs add a node each to a filter that has not the connector of the first of them. -/
theorem LeafRuns.foldl_foldl_addLink {groups : List (List Link)} (h : LeafRuns groups) {f : Filter}
    (hf : ∀ run ∈ groups.head?, ∀ link ∈ run, ¬ f.IsNode link.1) :
    groups.foldl (List.foldl addLink) f = groups.foldl addRun f := by
  -- on the runs; the node of each has another connector than the run behind it
  induction groups generalizing f with
  | nil => rfl
  | cons run rest ih =>
    have hne := h.ne_nil run List.mem_cons_self
    have hrun := h.connector_eq run List.mem_cons_self
    obtain ⟨first, hfirst⟩ := List.exists_mem_of_ne_nil run hne
    have hnode : run.foldl addLink f = addRun f run :=
      foldl_addLink_eq_addRun (fun link hlink => hrun link hlink first hfirst)
        (h.isLeaf run List.mem_cons_self) (hf run rfl first hfirst)
    rw [List.foldl_cons, List.foldl_cons, hnode]
    refine ih h.of_cons ?_
    intro next hnext link hlink hnode
    exact (List.isChain_cons.1 h.changes).1 next hnext first hfirst link hlink
      ((isNode_addRun_iff hne hrun).1 hnode first hfirst)

theorem LeafRuns.depth_foldl_addRun {groups : List (List Link)} (h : LeafRuns groups)
    (f : Filter) : (groups.foldl addRun f).depth = f.depth + groups.length := by
  induction groups generalizing f with
  | nil => rfl
  | cons run rest ih =>
    rw [List.foldl_cons, ih h.of_cons, List.length_cons,
      depth_addRun (h.ne_nil run List.mem_cons_self) (h.isLeaf run List.mem_cons_self)]
    omega

/-- The root of the filter behind some runs has the connector of the last. -/
theorem LeafRuns.isNode_foldl_addRun {groups : List (List Link)} (h : LeafRuns groups) (f : Filter)
    {last : List Link} (hlast : last ∈ groups.getLast?) :
    ∀ link ∈ last, (groups.foldl addRun f).IsNode link.1 := by
  intro link hlink
  have hmem := List.mem_of_mem_getLast? hlast
  obtain ⟨before, rfl⟩ := List.getLast?_eq_some_iff.1 hlast
  rw [List.foldl_append, List.foldl_cons, List.foldl_nil,
    isNode_addRun_iff (h.ne_nil last hmem) (h.connector_eq last hmem)]
  exact fun link' hlink' => h.connector_eq last hmem link' hlink' link hlink

theorem flatten_runs (links : List Link) : (runs links).flatten = links :=
  List.flatten_splitBy _ links

theorem connector_eq_of_mem_runs {links run : List Link} (h : run ∈ runs links) :
    ∀ link ∈ run, ∀ link' ∈ run, link.1 = link'.1 := by
  have hchain : run.IsChain fun a b => a.1 = b.1 :=
    (List.isChain_of_mem_splitBy h).imp fun a b hab => beq_iff_eq.1 hab
  have htrans : IsTrans Link fun a b => a.1 = b.1 := ⟨fun _ _ _ => Eq.trans⟩
  obtain ⟨first, rest, rfl⟩ := List.exists_cons_of_ne_nil (List.ne_nil_of_mem_splitBy h)
  have hfirst : ∀ link ∈ first :: rest, first.1 = link.1 := by
    rw [List.forall_mem_cons]
    exact ⟨rfl, (List.pairwise_cons.1 hchain.pairwise).1⟩
  intro link hlink link' hlink'
  exact (hfirst link hlink).symm.trans (hfirst link' hlink')

theorem leafRuns_runs {links : List Link} (hlinks : ∀ link ∈ links, link.2.IsLeaf) :
    LeafRuns (runs links) where
  ne_nil := fun _ => List.ne_nil_of_mem_splitBy
  isLeaf := by
    intro run hrun link hlink
    refine hlinks link ?_
    rw [← flatten_runs links]
    exact List.mem_flatten_of_mem hrun hlink
  connector_eq := fun _ => connector_eq_of_mem_runs
  changes := by
    refine (List.isChain_getLast_head_splitBy _ links).imp_of_mem_imp ?_
    rintro a b ha hb ⟨hane, hbne, hchange⟩ link hlink link' hlink' heq
    rw [connector_eq_of_mem_runs ha link hlink _ (List.getLast_mem hane),
      connector_eq_of_mem_runs hb link' hlink' _ (List.head_mem hbne)] at heq
    exact beq_eq_false_iff_ne.1 hchange heq

/-- Links with one connector are one run. -/
theorem runs_eq_singleton {links : List Link} (hne : links ≠ []) {c : Connector}
    (hlinks : ∀ link ∈ links, link.1 = c) : runs links = [links] := by
  refine List.splitBy_of_isChain hne (List.Pairwise.isChain (List.pairwise_of_forall_mem_list ?_))
  intro a ha b hb
  rw [hlinks a ha, hlinks b hb]
  exact beq_self_eq_true c

/-- Links add to a leaf what their runs add to it. -/
theorem foldl_addLink_eq_foldl_addRun {first : Term} (hfirst : first.IsLeaf) {links : List Link}
    (hlinks : ∀ link ∈ links, link.2.IsLeaf) :
    links.foldl addLink first.toFilter = (runs links).foldl addRun first.toFilter :=
  calc links.foldl addLink first.toFilter
    _ = (runs links).flatten.foldl addLink first.toFilter := by rw [flatten_runs]
    _ = (runs links).foldl (List.foldl addLink) first.toFilter := List.foldl_flatten
    _ = (runs links).foldl addRun first.toFilter :=
      (leafRuns_runs hlinks).foldl_foldl_addLink fun _ _ _ _ => hfirst.not_isNode _

/-! ## Chains of leaves -/

/-- **Only runs count against the limit of depth.** A chain of leaves, a first one and links behind
it, is read exactly when its links have at most 64 runs, and is refused otherwise. The filter that
is read has a node for each run over the filter before it and the terms of the run; so it has as
many levels as there are runs, and the connector of the last run at its root. Links with one
connector make up a single node of all terms. -/
theorem parse_runs {first : Term} {links : List Link} (hfirst : first.IsLeaf)
    (hlinks : ∀ link ∈ links, link.2.IsLeaf) {text : String}
    (hs : ((Chain.single first).extend links).Spells (trim text.toList)) :
    ((∃ f, parse text = .ok (some f)) ↔ (runs links).length ≤ 64) ∧
    ((∃ reason, parse text = .error ⟨text, reason⟩) ↔ 64 < (runs links).length) ∧
    ∀ f, parse text = .ok (some f) →
      f = (runs links).foldl addRun first.toFilter ∧
      f.depth = (runs links).length ∧
      (∀ last ∈ (runs links).getLast?, ∀ link ∈ last, f.IsNode link.1) ∧
      ∀ c, links ≠ [] → (∀ link ∈ links, link.1 = c) →
        f = .node c (first.toFilter :: links.map fun link => link.2.toFilter) := by
  have hruns := leafRuns_runs hlinks
  have hnest : ((Chain.single first).extend links).nesting = 0 :=
    Chain.nesting_extend hfirst.nesting_eq hlinks
  have hfilter : ((Chain.single first).extend links).toFilter =
      (runs links).foldl addRun first.toFilter := by
    rw [Chain.toFilter_extend, ← foldl_addLink_eq_foldl_addRun hfirst hlinks]
    rfl
  have hdepth : ((Chain.single first).extend links).toFilter.depth = (runs links).length := by
    rw [hfilter, hruns.depth_foldl_addRun, hfirst.depth_toFilter, Nat.zero_add]
  have hparse : ∀ f, parse text = .ok (some f) ↔
      (runs links).length ≤ 64 ∧ (runs links).foldl addRun first.toFilter = f := by
    intro f
    obtain ⟨before, after, hbefore, hafter, htext⟩ := exists_append_trim text.toList
    rw [hs.parse_padded_iff htext hbefore hafter, hnest, hdepth, hfilter]
    exact and_iff_right (Nat.zero_le 64)
  refine ⟨?_, ?_, ?_⟩
  · simp [hparse]
  · rw [exists_parse_eq_error_iff, ← Bool.not_eq_true, ← trim_eq_nil_iff]
    simp [hparse, hs.ne_nil]
  · intro f hf
    obtain ⟨-, rfl⟩ := (hparse f).1 hf
    refine ⟨rfl, ?_, fun last hlast => hruns.isNode_foldl_addRun _ hlast, ?_⟩
    · rw [← hdepth, hfilter]
    · intro c hne hc
      obtain ⟨⟨d, term⟩, rest, rfl⟩ := List.exists_cons_of_ne_nil hne
      obtain rfl : d = c := hc _ List.mem_cons_self
      rw [runs_eq_singleton hne hc]
      rfl

/-- A word repeated with connectors between makes a chain of leaves with a text. -/
theorem exists_spells_repeated {name : String} (hname : IsKey name.toList) {links : List Link}
    (hlinks : ∀ link ∈ links, link.2 = .word name) :
    (∀ link ∈ links, link.2.IsLeaf) ∧ ∃ text : String,
      ((Chain.single (.word name)).extend links).Spells (trim text.toList) := by
  have hterms : ∀ link ∈ links, ∃ t, link.2.Spells t := by
    intro link hlink
    rw [hlinks link hlink]
    exact ⟨_, .word hname⟩
  obtain ⟨t, ht⟩ := (Chain.Spells.single (.word hname)).exists_extend hterms
  refine ⟨fun link hlink => hlinks link hlink ▸ .word, String.ofList t, ?_⟩
  rwa [String.toList_ofList, ht.trim_eq]

/-- The theorem at a text with two runs, and at 64 runs and one more. -/
theorem parse_runs_two_and_limit :
    parse "a AND b:1 AND AND OR d" = .ok (some (.node .or
      [.node .and [.text "a", .comparison "b" .like (Literal.infer "1"), .text "AND"],
        .text "d"])) ∧
    ∃ links : List Link,
      links = (List.replicate 32 [(.and, .word "a"), (.or, .word "a")]).flatten ∧
      (∃ text : String, ((Chain.single (.word "a")).extend links).Spells (trim text.toList) ∧
        ∃ f, parse text = .ok (some f) ∧ f.depth = 64) ∧
      ∃ text : String, ((Chain.single (.word "a")).extend
          (links ++ [(.and, .word "a")])).Spells (trim text.toList) ∧
        ∃ reason, parse text = .error ⟨text, reason⟩ := by
  have hgap : IsGap [' '] := ⟨List.cons_ne_nil _ _, rfl⟩
  have hkey : ∀ name ∈ ["a", "b", "AND", "d"], IsKey name.toList := by
    simp only [isKey_iff]
    decide
  have hword := hkey "a" (by decide)
  constructor
  · have hone : IsValue "1".toList := .bare ((isBareValue_iff _).2 (by decide))
    have hs : ((Chain.single (.word "a")).extend [(.and, .comparison "b" .like "1"),
        (.and, .word "AND"), (.or, .word "d")]).Spells "a AND b:1 AND AND OR d".toList :=
      .more (c := .or) (.more (c := .and) (.more (c := .and) (.single (.word hword)) hgap hgap
        (.comparison (c := .like) (hkey "b" (by decide)) hone)) hgap hgap
        (.word (hkey "AND" (by decide)))) hgap hgap (.word (hkey "d" (by decide)))
    rw [← hs.trim_eq] at hs
    have hlinks : ∀ link ∈ [(Connector.and, Term.comparison "b" .like "1"),
        (.and, .word "AND"), (.or, .word "d")], link.2.IsLeaf := by
      simp only [List.forall_mem_cons]
      exact ⟨.comparison, .word, .word, nofun⟩
    obtain ⟨hread, -, hfilter⟩ := parse_runs .word hlinks hs
    obtain ⟨f, hf⟩ := hread.2 (by decide)
    rw [hf, (hfilter f hf).1]
    rfl
  · have hall : ∀ link ∈ (List.replicate 32 [(Connector.and, Term.word "a"),
        (.or, .word "a")]).flatten, link.2 = .word "a" := by
      intro link hlink
      obtain ⟨pair, hpair, hmem⟩ := List.mem_flatten.1 hlink
      rw [List.eq_of_mem_replicate hpair, List.mem_pair] at hmem
      rcases hmem with rfl | rfl <;> rfl
    have hmore := List.forall_mem_append.2 ⟨hall,
      List.forall_mem_singleton.2 (show (Connector.and, Term.word "a").2 = .word "a" from rfl)⟩
    obtain ⟨hleaf, text, hs⟩ := exists_spells_repeated hword hall
    obtain ⟨hleaf', text', hs'⟩ := exists_spells_repeated hword hmore
    obtain ⟨hread, -, hfilter⟩ := parse_runs .word hleaf hs
    obtain ⟨-, hrefused, -⟩ := parse_runs .word hleaf' hs'
    obtain ⟨f, hf⟩ := hread.2 (by decide +kernel)
    exact ⟨_, rfl, ⟨text, hs, f, hf, (hfilter f hf).2.1.trans (by decide +kernel)⟩,
      text', hs', hrefused.2 (by decide +kernel)⟩

end Criteria.Filter
