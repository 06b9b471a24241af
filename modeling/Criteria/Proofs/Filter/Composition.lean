import Criteria.Proofs.Filter.Acceptance

/-!
# Filters put together from texts

Derivations are put together like texts: a chain in parentheses is a term, and a chain with a
connector and a term behind it is a chain. Whether the whole is read depends on the limits only
(`Chain.Spells.parse_padded_iff`). Main statement (`parse_compose`): a text that is read may be put
in parentheses, or joined with a term by a connector, and is read as one would expect.
-/

namespace Criteria.Filter

open Criteria.Text

/-! ## Texts with blanks around a derivation -/

section Padded

variable {chain : Chain} {text : String} {before s after : List Char}

theorem Chain.Spells.trim_append (hs : chain.Spells s) (hbefore : blank before = true)
    (hafter : blank after = true) : trim (before ++ s ++ after) = s := by
  have hhead := hs.head []
  rw [List.append_nil] at hhead
  exact Text.trim_append hbefore hafter hs.ne_nil hhead hs.getLast?_not_blank

/-- A text with a derivation, blanks around it aside, is read when the derivation is within the
limits, and then as the filter of the derivation. -/
theorem Chain.Spells.parse_padded_iff (hs : chain.Spells s)
    (htext : text.toList = before ++ s ++ after) (hbefore : blank before = true)
    (hafter : blank after = true) {f : Filter} :
    parse text = .ok (some f) ↔
      chain.nesting ≤ 64 ∧ chain.toFilter.depth ≤ 64 ∧ chain.toFilter = f := by
  have htrim : trim text.toList = s := by
    rw [htext]
    exact hs.trim_append hbefore hafter
  rw [parse_eq_some_iff_denotes, htrim]
  constructor
  · intro hdenotes
    have hparse := parse_eq_some_iff_denotes.2 (htrim ▸ hdenotes)
    have hread := (parse_eq_some_iff.1 hparse).2
    rw [htrim] at hread
    exact hs.of_ofChars hread
  · intro hlimits
    exact ⟨chain, hs, hlimits⟩

theorem Chain.Spells.parse_iff (hs : chain.Spells text.toList) {f : Filter} :
    parse text = .ok (some f) ↔
      chain.nesting ≤ 64 ∧ chain.toFilter.depth ≤ 64 ∧ chain.toFilter = f := by
  have htext : text.toList = [] ++ text.toList ++ [] := (List.append_nil _).symm
  exact hs.parse_padded_iff htext rfl rfl

/-- A text with a derivation that denotes too deep a filter is refused. -/
theorem Chain.Spells.exists_parse_eq_error (hs : chain.Spells s)
    (htext : text.toList = before ++ s ++ after) (hbefore : blank before = true)
    (hafter : blank after = true) (hdepth : 64 < chain.toFilter.depth) :
    ∃ reason, parse text = .error ⟨text, reason⟩ := by
  refine exists_parse_eq_error_iff.2 ⟨?_, ?_⟩
  · rw [← Bool.not_eq_true, ← trim_eq_nil_iff, htext, hs.trim_append hbefore hafter]
    exact hs.ne_nil
  · intro f hf
    have hlimit := ((hs.parse_padded_iff htext hbefore hafter).1 hf).2.1
    omega

end Padded

/-- What is read has a derivation between the blanks at its ends. -/
theorem exists_padded_of_parse {text : String} {f : Filter} (h : parse text = .ok (some f)) :
    ∃ (chain : Chain) (before s after : List Char), chain.Spells s ∧ s = trim text.toList ∧
      text.toList = before ++ s ++ after ∧ blank before = true ∧ blank after = true := by
  obtain ⟨chain, hs, -⟩ := parse_eq_some_iff_denotes.1 h
  obtain ⟨before, after, hbefore, hafter, htext⟩ := exists_append_trim text.toList
  exact ⟨chain, before, _, after, hs, rfl, htext, hbefore, hafter⟩

/-! ## Parentheses and connectors -/

/-- A text has a derivation, blanks at its ends aside, with at most so many parentheses around a
term. -/
def NestsAtMost (n : Nat) (text : String) : Prop :=
  ∃ chain : Chain, chain.Spells (trim text.toList) ∧ chain.nesting ≤ n

/-- A text is a single term, blanks at its ends aside: a word, a comparison or a group. -/
def IsTerm (text : String) : Prop := ∃ term : Term, term.Spells (trim text.toList)

theorem Chain.Spells.group {chain : Chain} {text : String} {before s after : List Char}
    (hs : chain.Spells s) (htext : text.toList = before ++ s ++ after)
    (hbefore : blank before = true) (hafter : blank after = true) :
    Chain.Spells (.single (.group chain)) ("(" ++ text ++ ")").toList := by
  have hgroup := Term.Spells.group hbefore hs hafter
  rw [← htext] at hgroup
  simpa using Chain.Spells.single hgroup

/-- In parentheses a text is read as before, unless it has too many of them already. -/
theorem parse_parentheses_iff {text : String} {f : Filter} (h : parse text = .ok (some f)) :
    parse ("(" ++ text ++ ")") = .ok (some f) ↔ NestsAtMost 63 text := by
  constructor
  · intro hgroup
    obtain ⟨chain, before, s, after, hs, rfl, htext, hbefore, hafter⟩ := exists_padded_of_parse h
    have hspells := hs.group htext hbefore hafter
    obtain ⟨hnest, -⟩ := hspells.parse_iff.1 hgroup
    rw [Chain.nesting, Term.nesting] at hnest
    exact ⟨chain, hs, by omega⟩
  · rintro ⟨chain, hs, hnest⟩
    obtain ⟨before, after, hbefore, hafter, htext⟩ := exists_append_trim text.toList
    obtain ⟨-, hdepth, heq⟩ := (hs.parse_padded_iff htext hbefore hafter).1 h
    have hspells := hs.group htext hbefore hafter
    refine hspells.parse_iff.2 ⟨?_, hdepth, heq⟩
    rw [Chain.nesting, Term.nesting]
    omega

/-- Two texts with a connector between them, one blank on either side of it. -/
def joinTexts (c : Connector) (text text' : String) : String :=
  text ++ " " ++ c.word ++ " " ++ text'

/-- A text that is read and a term that is read have a common derivation within the limit of
parentheses, and it denotes the joined filters. -/
theorem exists_spells_joinTexts {text text' : String} {f g : Filter}
    (h : parse text = .ok (some f)) (hterm : IsTerm text') (h' : parse text' = .ok (some g))
    (c : Connector) :
    ∃ (chain : Chain) (before s after : List Char), chain.Spells s ∧
      (joinTexts c text text').toList = before ++ s ++ after ∧ blank before = true ∧
      blank after = true ∧ chain.nesting ≤ 64 ∧ chain.toFilter = join c [f, g] := by
  obtain ⟨init, before, s, after, hs, -, htext, hbefore, hafter⟩ := exists_padded_of_parse h
  obtain ⟨last, hlast⟩ := hterm
  obtain ⟨before', after', hbefore', hafter', htext'⟩ := exists_append_trim text'.toList
  generalize trim text'.toList = t at hlast htext'
  obtain ⟨hnest, -, rfl⟩ := (hs.parse_padded_iff htext hbefore hafter).1 h
  obtain ⟨hnest', -, rfl⟩ :=
    ((Chain.Spells.single hlast).parse_padded_iff htext' hbefore' hafter').1 h'
  -- the blanks between the texts belong to the gaps around the connector
  have hblank : isBlank ' ' = true := rfl
  have hgap : IsGap (after ++ [' ']) := ⟨by simp, by simpa [blank, hblank] using hafter⟩
  have hgap' : IsGap (' ' :: before') := ⟨by simp, by simpa [blank, hblank] using hbefore'⟩
  refine ⟨.more init c last, before, _, after', .more hs hgap hgap' hlast, ?_, hbefore, hafter',
    Nat.max_le.2 ⟨hnest, hnest'⟩, rfl⟩
  simp [joinTexts, htext, htext']

/-- **Filters are put together as texts.** A text that is read is read in parentheses too, as the
same filter, exactly when it has at most 63 of them around a term. With a connector and the text of
a term behind it, it is read as the two filters joined when these are at most 64 deep, and is
refused otherwise; the joined filter has the value of the whole text before the connector combined
with that of the term. -/
theorem parse_compose {text : String} {f : Filter} (h : parse text = .ok (some f)) :
    (parse ("(" ++ text ++ ")") = .ok (some f) ↔ NestsAtMost 63 text) ∧
    ∀ (text' : String) (g : Filter), IsTerm text' → parse text' = .ok (some g) →
      ∀ c : Connector,
        (parse (joinTexts c text text') = .ok (some (join c [f, g])) ↔
          (join c [f, g]).depth ≤ 64) ∧
        ((∃ reason, parse (joinTexts c text text') = .error ⟨joinTexts c text text', reason⟩) ↔
          64 < (join c [f, g]).depth) ∧
        ∀ v : Valuation, (join c [f, g]).eval v = c.apply (f.eval v) (g.eval v) := by
  refine ⟨parse_parentheses_iff h, ?_⟩
  intro text' g hterm h' c
  obtain ⟨chain, before, s, after, hs, htext, hbefore, hafter, hnest, heq⟩ :=
    exists_spells_joinTexts h hterm h' c
  rw [← heq]
  have hread : parse (joinTexts c text text') = .ok (some chain.toFilter) ↔
      chain.toFilter.depth ≤ 64 := by
    rw [hs.parse_padded_iff htext hbefore hafter]
    exact ⟨fun hlimits => hlimits.2.1, fun hdepth => ⟨hnest, hdepth, rfl⟩⟩
  refine ⟨hread, ⟨?_, hs.exists_parse_eq_error htext hbefore hafter⟩, ?_⟩
  · rintro ⟨reason, herror⟩
    refine Nat.lt_of_not_le ?_
    intro hdepth
    exact nomatch herror.symm.trans (hread.2 hdepth)
  · intro v
    rw [heq, eval_join, List.map_cons, List.map_singleton, Connector.combine_pair]

/-- The theorem at a text that ends with a connector's word and a blank, and a group whose operands
are lifted. -/
theorem parse_compose_lifted_group :
    ∃ text text' f g,
      text = "a OR AND " ∧ text' = "(AND OR y:1)" ∧
      parse text = .ok (some f) ∧ IsTerm text' ∧ parse text' = .ok (some g) ∧
      join .or [f, g] = .node .or [.text "a", .text "AND", .text "AND",
        .comparison "y" .like (Literal.infer "1")] ∧
      parse "(a OR AND )" = .ok (some f) ∧
      parse "a OR AND  OR (AND OR y:1)" = .ok (some (join .or [f, g])) := by
  have hgap : IsGap [' '] := ⟨List.cons_ne_nil _ _, rfl⟩
  have hkey : ∀ name ∈ ["a", "AND", "y"], IsKey name.toList := by
    simp only [isKey_iff]
    decide
  have hone : IsValue "1".toList := .bare ((isBareValue_iff _).2 (by decide))
  have hor : Chain.Spells _ "a OR AND".toList :=
    .more (c := .or) (.single (.word (hkey "a" (by decide)))) hgap hgap
      (.word (hkey "AND" (by decide)))
  have hinner := Chain.Spells.more (c := .or) (.single (.word (hkey "AND" (by decide)))) hgap hgap
    (.comparison (c := .like) (hkey "y" (by decide)) hone)
  have hgroup : Term.Spells _ "(AND OR y:1)".toList := @Term.Spells.group _ [] _ [] rfl hinner rfl
  have hterm : IsTerm "(AND OR y:1)" :=
    ⟨_, by rw [(Chain.Spells.single hgroup).trim_eq]; exact hgroup⟩
  have htext : "a OR AND ".toList = [] ++ "a OR AND".toList ++ [' '] := rfl
  have hparse : parse "a OR AND " = .ok (some _) :=
    (hor.parse_padded_iff htext rfl rfl).2 ⟨by decide, by decide, rfl⟩
  have hparse' : parse "(AND OR y:1)" = .ok (some _) :=
    (Chain.Spells.single hgroup).parse_iff.2 ⟨by decide, by decide, rfl⟩
  have htrim : trim "a OR AND ".toList = "a OR AND".toList := by
    rw [htext]
    exact hor.trim_append rfl rfl
  have hnests : NestsAtMost 63 "a OR AND " := ⟨_, by rw [htrim]; exact hor, by decide⟩
  obtain ⟨hparentheses, hjoin⟩ := parse_compose hparse
  exact ⟨_, _, _, _, rfl, rfl, hparse, hterm, hparse', rfl, hparentheses.2 hnests,
    (hjoin _ _ hterm hparse' .or).1.2 (by decide)⟩

end Criteria.Filter
