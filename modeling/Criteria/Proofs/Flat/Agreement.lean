import Criteria.Proofs.Filter.Acceptance
import Criteria.Proofs.Flat.Grammar

/-!
# Where the two grammars agree

Both grammars have a chance to read a text without blanks, parentheses and quotes. As a filter such
a text can only be a leaf (`Shared.parse_eq_some_iff`). Main statement (`parse_agrees`): both
grammars read the same comparisons and words from it, and each reads a few texts that the other
refuses.
-/

namespace Criteria

open Criteria.Text

namespace Filter

/-- A text that is a filter with a single leaf: a search word, or a comparison with a bare value. -/
inductive Leaf : String → Filter → Prop where
  | word {name : String} : IsKey name.toList → Leaf name (.text name)
  | comparison {field value : String} {c : Comparator} :
      IsKey field.toList → IsBareValue value.toList →
      Leaf (field ++ c.symbol ++ value) (.comparison field c (Literal.infer value))

/-- A leaf begins with a key. -/
theorem Leaf.head {token : String} {f : Filter} (h : Leaf token f) :
    ∀ c ∈ token.toList.head?, isKeyChar c = true := by
  cases h with
  | word hkey =>
    intro c hc
    exact hkey.head [] c (by rwa [List.append_nil])
  | comparison hfield _ =>
    intro c hc
    rw [String.toList_append, String.toList_append, List.append_assoc] at hc
    exact hfield.head _ c hc

/-- The value of a comparison is the text behind the comparator. -/
theorem Leaf.exists_value {token field : String} {c : Comparator} {literal : Literal}
    (h : Leaf token (.comparison field c literal)) :
    ∃ value, token = field ++ c.symbol ++ value ∧ literal = Literal.infer value ∧
      IsKey field.toList ∧ IsBareValue value.toList := by
  cases h with
  | comparison hfield hvalue => exact ⟨_, rfl, rfl, hfield, hvalue⟩

end Filter

namespace Flat

/-- Not empty, and without the characters that only one of the grammars gives a meaning. -/
def Shared (s : List Char) : Prop :=
  s ≠ [] ∧ ∀ c ∈ s, isBlank c = false ∧ c ∉ ['(', ')', '\'', '"']

theorem Shared.trim_eq {s : List Char} (h : Shared s) : trim s = s := by
  refine trim_eq_self ?_ ?_
  · exact fun c hc => (h.2 c (List.mem_of_mem_head? hc)).1
  · exact fun c hc => (h.2 c (List.mem_of_getLast? hc)).1

theorem Shared.parse_ne_none {token : String} (h : Shared token.toList) :
    Filter.parse token ≠ .ok none := by
  intro hnone
  have hblank := Filter.parse_eq_none_iff.1 hnone
  obtain ⟨c, hc⟩ := List.exists_mem_of_ne_nil _ h.1
  have hc' := List.all_eq_true.1 hblank c hc
  rw [(h.2 c hc).1] at hc'
  exact Bool.false_ne_true hc'

/-! ## The fragment as filters -/

/-- A value without quote characters is bare. -/
theorem isBareValue_of_isValue {s : List Char} (h : Filter.IsValue s)
    (hquote : ∀ c ∈ s, c ∉ ['(', ')', '\'', '"']) : IsBareValue s := by
  cases h with
  | bare hbare => exact hbare
  | @quoted q inner hq _ _ =>
    have hfree := hquote q List.mem_cons_self
    rcases hq with rfl | rfl <;> exact absurd hfree (by decide)

/-- A chain that is spelled without parentheses, blanks and quotes has a single leaf. -/
theorem Shared.leaf_of_spells {token : String} (h : Shared token.toList) {chain : Filter.Chain}
    (hspells : chain.Spells token.toList) : Filter.Leaf token chain.toFilter := by
  obtain ⟨-, hfree⟩ := h
  generalize hs : token.toList = s at hspells hfree
  cases hspells with
  | more _ hbefore _ _ =>
    -- a connector stands between blanks
    obtain ⟨c, hc⟩ := List.exists_mem_of_ne_nil _ hbefore.1
    have hblank := List.all_eq_true.1 hbefore.2 c hc
    rw [(hfree c (by simp [hc])).1] at hblank
    exact absurd hblank Bool.false_ne_true
  | single hterm =>
    cases hterm with
    | word hkey =>
      obtain rfl := String.toList_inj.1 hs
      exact .word hkey
    | @comparison field raw c hfield hraw =>
      have hbare : IsBareValue raw.toList :=
        isBareValue_of_isValue hraw fun d hd => (hfree d (List.mem_append_right _ hd)).2
      obtain rfl : token = field ++ c.symbol ++ raw := by
        apply String.toList_inj.1
        rw [hs, String.toList_append, String.toList_append]
      exact .comparison hfield hbare
    | group _ _ _ => exact absurd (hfree '(' List.mem_cons_self).2 (by decide)

/-- A text of the fragment is read as a filter exactly when it is a leaf. -/
theorem Shared.parse_eq_some_iff {token : String} (h : Shared token.toList) {f : Filter} :
    Filter.parse token = .ok (some f) ↔ Filter.Leaf token f := by
  constructor
  · intro hparse
    obtain ⟨chain, hspells, -, -, rfl⟩ := Filter.parse_eq_some_iff_denotes.1 hparse
    rw [h.trim_eq] at hspells
    exact h.leaf_of_spells hspells
  · intro hleaf
    cases hleaf with
    | word hkey =>
      have hspells : Filter.Chain.Spells (.single (.word token)) token.toList :=
        .single (.word hkey)
      exact hspells.parse_eq (Nat.zero_le 64) (Nat.zero_le 64)
    | @comparison field value c hfield hvalue =>
      have hspells : Filter.Chain.Spells (.single (.comparison field c value))
          (field ++ c.symbol ++ value).toList := by
        rw [String.toList_append, String.toList_append]
        exact .single (.comparison hfield (.bare hvalue))
      exact hspells.parse_eq (Nat.zero_le 64) (Nat.zero_le 64)

theorem Shared.exists_parse_eq_ok_iff {token : String} (h : Shared token.toList) :
    (∃ r, Filter.parse token = .ok r) ↔ ∃ f, Filter.Leaf token f := by
  constructor
  · rintro ⟨r, hr⟩
    cases r with
    | none => exact absurd hr h.parse_ne_none
    | some f => exact ⟨f, h.parse_eq_some_iff.1 hr⟩
  · rintro ⟨f, hf⟩
    exact ⟨some f, h.parse_eq_some_iff.2 hf⟩

/-! ## The fragment as terms -/

theorem parse_comparison_iff {token field value : String} {c : Comparator} :
    Term.parse token = .ok (.comparison field c value) ↔
      token = field ++ c.symbol ++ value ∧
        Filter.Leaf token (.comparison field c (Literal.infer value)) := by
  rw [Term.parse_eq_ok_iff]
  constructor
  · rintro ⟨rfl, hvalid⟩
    cases hvalid with
    | comparison hfield hvalue => exact ⟨rfl, .comparison hfield hvalue⟩
  · rintro ⟨htoken, hleaf⟩
    obtain ⟨value', htoken', -, hfield, hvalue⟩ := hleaf.exists_value
    -- literals do not tell values apart, but the text behind the comparator is one text
    obtain rfl : value' = value := by
      have htext := congrArg String.toList (htoken'.symm.trans htoken)
      simp only [String.toList_append] at htext
      exact String.toList_inj.1 (List.append_cancel_left htext)
    exact ⟨htoken, .comparison hfield hvalue⟩

/-- A word without a mark, or with a minus sign for it, is a key as a whole. -/
theorem leaf_of_parse_text {token word : String} {mark : Option Mark}
    (h : Term.parse token = .ok (.text mark word)) (hmark : mark ≠ some .required) :
    token = (mark.map Mark.sign).getD "" ++ word ∧ Filter.Leaf token (.text token) := by
  obtain ⟨htoken, hvalid⟩ := Term.parse_eq_ok_iff.1 h
  refine ⟨htoken, .word ?_⟩
  cases hvalid with
  | text hword _ =>
    rw [htoken, toList_display_text]
    cases mark with
    | none => exact hword
    | some mark =>
      cases mark with
      | required => exact absurd rfl hmark
      | prohibited => exact hword.cons rfl

/-- Of the texts with a single leaf only the connectors and a lone minus sign are no terms. -/
theorem leaf_and_not_parse_iff {token : String} :
    ((∃ f, Filter.Leaf token f) ∧ ¬ ∃ term, Term.parse token = .ok term) ↔
      token ∈ ["AND", "OR", "-"] := by
  simp only [List.mem_cons, List.not_mem_nil, or_false]
  constructor
  · rintro ⟨⟨f, hleaf⟩, hnone⟩
    by_cases hconnector : token = "AND" ∨ token = "OR"
    · exact hconnector.elim .inl fun h => .inr (.inl h)
    · obtain ⟨hand, hor⟩ := not_or.1 hconnector
      have hterm : ¬ IsTerm token.toList :=
        fun h => hnone (Term.exists_parse_eq_ok_iff.2 ⟨hand, hor, h⟩)
      cases hleaf with
      | comparison hfield hvalue =>
        rw [String.toList_append, String.toList_append] at hterm
        exact absurd (.comparison hfield hvalue) hterm
      | word hkey =>
        -- a key is refused only for a sign in front that has no word behind it
        have hhead : token.toList.head? = some '-' := by
          by_contra hplain
          exact hterm (.plain hkey hplain)
        obtain ⟨rest, hrest⟩ := List.head?_eq_some_iff.1 hhead
        have hnil : rest = [] := by
          by_contra hne
          have hall := ((isKey_iff _).1 hkey).2
          rw [hrest, List.all_cons, Bool.and_eq_true] at hall
          rw [hrest] at hterm
          exact hterm (.marked (.inr rfl) ((isKey_iff _).2 ⟨hne, hall.2⟩))
        rw [hnil] at hrest
        exact .inr (.inr (String.toList_inj.1 hrest))
  · intro htoken
    have hkey : ∀ name ∈ ["AND", "OR", "-"], IsKey name.toList := by
      simp only [isKey_iff]
      decide
    have hrefused : ∃ reason, Term.parse token = .error reason := by
      rcases htoken with rfl | rfl | rfl <;> exact ⟨_, rfl⟩
    refine ⟨⟨_, .word (hkey token (by simpa using htoken))⟩, ?_⟩
    rintro ⟨term, hterm⟩
    obtain ⟨reason, hreason⟩ := hrefused
    cases hreason.symm.trans hterm

/-- Of the terms only the words that are marked with a plus sign have no single leaf. -/
theorem parse_and_not_leaf_iff {token : String} :
    ((∃ term, Term.parse token = .ok term) ∧ ¬ ∃ f, Filter.Leaf token f) ↔
      ∃ key, IsKey key ∧ token.toList = '+' :: key := by
  constructor
  · rintro ⟨⟨term, hterm⟩, hnone⟩
    cases term with
    | comparison field c value => exact absurd ⟨_, (parse_comparison_iff.1 hterm).2⟩ hnone
    | text mark word =>
      by_cases hmark : mark = some .required
      · obtain ⟨rfl, hvalid⟩ := Term.parse_eq_ok_iff.1 hterm
        cases hvalid with
        | text hword _ => exact ⟨word.toList, hword, by rw [toList_display_text, hmark]; rfl⟩
      · exact absurd ⟨_, (leaf_of_parse_text hterm hmark).2⟩ hnone
  · rintro ⟨key, hkey, htoken⟩
    constructor
    · have hne : ∀ name : String, name.toList.head? ≠ some '+' → token ≠ name := by
        rintro name hhead rfl
        exact hhead (by rw [htoken]; rfl)
      refine Term.exists_parse_eq_ok_iff.2 ⟨hne _ (by decide), hne _ (by decide), ?_⟩
      rw [htoken]
      exact .marked (.inl rfl) hkey
    · rintro ⟨f, hf⟩
      have hplus := hf.head '+' (by rw [htoken]; rfl)
      exact absurd hplus (by decide)

/-- How the two grammars read one text. -/
structure Agree (token : String) : Prop where
  /-- A comparison is read by both, and the filter types the text behind the comparator. -/
  comparison : ∀ field c value, Term.parse token = .ok (.comparison field c value) ↔
    token = field ++ c.symbol ++ value ∧
      Filter.parse token = .ok (some (.comparison field c (Literal.infer value)))
  /-- Where a filter is a comparison, there is such a text. -/
  value : ∀ field c literal, Filter.parse token = .ok (some (.comparison field c literal)) →
    ∃ value, token = field ++ c.symbol ++ value ∧ literal = Literal.infer value
  /-- A word without a mark is read by both. -/
  word : ∀ word, Term.parse token = .ok (.text none word) →
    token = word ∧ Filter.parse token = .ok (some (.text token))
  /-- A word marked with a minus sign is a word together with the sign. -/
  prohibited : ∀ word, Term.parse token = .ok (.text (some .prohibited) word) →
    token = "-" ++ word ∧ Filter.parse token = .ok (some (.text token))
  /-- The texts that are filters and no terms. -/
  filter_only : ((∃ r, Filter.parse token = .ok r) ∧ ¬ ∃ term, Term.parse token = .ok term) ↔
    token ∈ ["AND", "OR", "-"]
  /-- The texts that are terms and no filters. -/
  term_only : ((∃ term, Term.parse token = .ok term) ∧ ¬ ∃ r, Filter.parse token = .ok r) ↔
    ∃ key, IsKey key ∧ token.toList = '+' :: key

/-- **The two grammars agree on what they share.** From a text without blanks, parentheses and
quotes both read the same comparison, with its value typed in the filter, and the same word, with a
minus sign kept in the filter. Only the connectors and a lone minus sign are filters and no terms;
only words that are marked with a plus sign are terms and no filters. -/
theorem parse_agrees (token : String) (h : Shared token.toList) : Agree token where
  comparison field c value := by
    rw [h.parse_eq_some_iff]
    exact parse_comparison_iff
  value field c literal hparse := by
    obtain ⟨value, htoken, hliteral, -⟩ := (h.parse_eq_some_iff.1 hparse).exists_value
    exact ⟨value, htoken, hliteral⟩
  word word hword := by
    obtain ⟨htoken, hleaf⟩ := leaf_of_parse_text hword nofun
    exact ⟨by simpa using htoken, h.parse_eq_some_iff.2 hleaf⟩
  prohibited word hword := by
    obtain ⟨htoken, hleaf⟩ := leaf_of_parse_text hword nofun
    exact ⟨htoken, h.parse_eq_some_iff.2 hleaf⟩
  filter_only := by
    rw [h.exists_parse_eq_ok_iff]
    exact leaf_and_not_parse_iff
  term_only := by
    rw [h.exists_parse_eq_ok_iff]
    exact parse_and_not_leaf_iff

/-- The theorem at a comparison whose value begins with a colon. -/
theorem parse_agrees_value_with_colon :
    Shared "-at:>=:10".toList ∧
      Term.parse "-at:>=:10" = .ok (.comparison "-at" .greaterEqual ":10") ∧
      Agree "-at:>=:10" := by
  have hall : "-at:>=:10".toList.all
      (fun c => decide (isBlank c = false ∧ c ∉ ['(', ')', '\'', '"'])) = true := by
    decide
  have hshared : Shared "-at:>=:10".toList := by
    refine ⟨by decide, fun c hc => ?_⟩
    exact of_decide_eq_true (List.all_eq_true.1 hall c hc)
  have hvalid : (Term.comparison "-at" .greaterEqual ":10").Valid :=
    .comparison ((isKey_iff _).2 (by decide)) ((isBareValue_iff _).2 (by decide))
  exact ⟨hshared, Term.parse_eq_ok_iff.2 ⟨by decide, hvalid⟩, parse_agrees _ hshared⟩

end Flat

end Criteria
