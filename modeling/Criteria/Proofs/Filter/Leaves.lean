import Criteria.Proofs.Filter.Acceptance
import Criteria.Proofs.Literal.Inference

/-!
# The leaves of filters that are read

`Filter.EveryLeaf` says what holds at every leaf of a filter. Joining filters makes no leaf
(`everyLeaf_join`), so the leaves of a filter that is read are those of its derivation. Main
statement (`parse_wellFormed`): what is read is canonical, within the limit of depth, and has keys
and plain literals at its leaves.
-/

namespace Criteria.Filter

open Criteria.Text

/-- Every word of a filter satisfies the first property, the field and the value of every
comparison satisfy the second. -/
inductive EveryLeaf (onText : String → Prop) (onComparison : String → Literal → Prop) :
    Filter → Prop where
  | comparison {field : String} {comparator : Comparator} {value : Literal} :
      onComparison field value →
      EveryLeaf onText onComparison (.comparison field comparator value)
  | text {word : String} : onText word → EveryLeaf onText onComparison (.text word)
  | node {c : Connector} {operands : List Filter} :
      (∀ f ∈ operands, EveryLeaf onText onComparison f) →
      EveryLeaf onText onComparison (.node c operands)

section Join

variable {onText : String → Prop} {onComparison : String → Literal → Prop}

theorem EveryLeaf.of_mem_operandsFor {c : Connector} {f g : Filter}
    (hf : EveryLeaf onText onComparison f) (hg : g ∈ operandsFor c f) :
    EveryLeaf onText onComparison g := by
  by_cases h : f.IsNode c
  · obtain ⟨operands, rfl⟩ := h
    rw [operandsFor_node] at hg
    cases hf with
    | node hoperands => exact hoperands g hg
  · rw [operandsFor_of_not_isNode h, List.mem_singleton] at hg
    exact hg ▸ hf

theorem everyLeaf_collapse {c : Connector} {fs : List Filter}
    (h : ∀ f ∈ fs, EveryLeaf onText onComparison f) :
    EveryLeaf onText onComparison (collapse c fs) := by
  unfold collapse
  split
  · exact h _ (List.mem_singleton_self _)
  · exact .node h

/-- Joining filters makes no leaf. -/
theorem everyLeaf_join {c : Connector} {fs : List Filter}
    (h : ∀ f ∈ fs, EveryLeaf onText onComparison f) :
    EveryLeaf onText onComparison (join c fs) := by
  refine everyLeaf_collapse ?_
  intro g hg
  obtain ⟨f, hf, hgf⟩ := List.mem_flatMap.1 hg
  exact (h f hf).of_mem_operandsFor hgf

end Join

/-! ## The leaves of a derivation -/

theorem IsValue.plain_infer {raw : String} (h : IsValue raw.toList) :
    (Literal.infer raw).Plain := by
  generalize hraw : raw.toList = s at h
  cases h with
  | bare hbare => exact Literal.plain_infer_bare (hraw ▸ hbare)
  | quoted hq hinner _ => exact Literal.plain_infer_quoted hq hraw hinner

/-- Words and fields are keys, and values are plain. -/
def PlainLeaves : Filter → Prop :=
  EveryLeaf (fun word => IsKey word.toList)
    fun field value => IsKey field.toList ∧ value.Plain

mutual

theorem Term.Spells.plainLeaves {term : Term} {s : List Char} (h : term.Spells s) :
    term.toFilter.PlainLeaves := by
  cases h with
  | word hkey => exact .text hkey
  | comparison hkey hvalue => exact .comparison ⟨hkey, hvalue.plain_infer⟩
  | group _ hinner _ => exact Chain.Spells.plainLeaves hinner

theorem Chain.Spells.plainLeaves {chain : Chain} {s : List Char} (h : chain.Spells s) :
    chain.toFilter.PlainLeaves := by
  cases h with
  | single hterm => exact Term.Spells.plainLeaves hterm
  | more hinit _ _ hlast =>
    have hinit := Chain.Spells.plainLeaves hinit
    have hlast := Term.Spells.plainLeaves hlast
    rw [Chain.toFilter]
    refine everyLeaf_join ?_
    intro f hf
    simp only [List.mem_cons, List.not_mem_nil, or_false] at hf
    rcases hf with rfl | rfl
    · exact hinit
    · exact hlast

end

/-- **What is read is well formed.** Nodes have two operands or more and none with their own
connector, the depth is at most 64, words and fields are keys, and every value is plain. -/
theorem parse_wellFormed {text : String} {f : Filter} (h : parse text = .ok (some f)) :
    f.Canonical ∧ f.depth ≤ 64 ∧ f.PlainLeaves := by
  obtain ⟨chain, hspells, -, hdepth, rfl⟩ := parse_eq_some_iff_denotes.1 h
  exact ⟨chain.canonical_toFilter, hdepth, hspells.plainLeaves⟩

/-- The theorem at a filter with a group and a quoted date. -/
theorem parse_wellFormed_group_and_date :
    ∃ f : Filter,
      f = .node .and [.node .or [.text "a", .text "-"],
        .comparison "on" .greaterEqual (.date ⟨1614834367, 800000000, 0⟩)] ∧
      parse "(a OR -) AND on:>='2021-03-04T05:06:07.8Z'" = .ok (some f) ∧
      f.Canonical ∧ f.depth ≤ 64 ∧ f.PlainLeaves := by
  have hgap : IsGap [' '] := ⟨List.cons_ne_nil _ _, rfl⟩
  have hkey : ∀ name ∈ ["a", "-", "on"], IsKey name.toList := by
    simp only [isKey_iff]
    decide
  have hvalue : IsValue "'2021-03-04T05:06:07.8Z'".toList :=
    @IsValue.quoted '\'' "2021-03-04T05:06:07.8Z".toList (.inl rfl) (by decide) (by decide)
  have hor := Chain.Spells.more (c := .or) (.single (.word (hkey "a" (by decide)))) hgap hgap
    (.word (hkey "-" (by decide)))
  have hand := Chain.Spells.more (c := .and)
    (.single (@Term.Spells.group _ [] _ [] rfl hor rfl)) hgap hgap
    (Term.Spells.comparison (c := .greaterEqual) (hkey "on" (by decide)) hvalue)
  have hspells : Chain.Spells _ "(a OR -) AND on:>='2021-03-04T05:06:07.8Z'".toList := hand
  have hdate : Literal.infer "'2021-03-04T05:06:07.8Z'" =
      .date ⟨1614834367, 800000000, 0⟩ := by decide +kernel
  have hparse := hspells.parse_eq (by decide) (by decide)
  exact ⟨_, by rw [← hdate]; rfl, hparse, parse_wellFormed hparse⟩

end Criteria.Filter
