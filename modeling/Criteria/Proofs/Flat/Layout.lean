import Criteria.Proofs.Filter.Layout
import Criteria.Proofs.Flat.Grammar

/-!
# The layout of texts in both grammars

`Respaced` relates two texts that differ only in how long their blank runs are, quotes or not; such
texts have the same words, and so the same flat filter (`SameSpacing.wordsOf_eq`). Main statement
(`parse_layout`): neither grammar tells the layouts of a text apart.
-/

namespace Criteria

open Criteria.Text

namespace Flat

open Criteria.Filter (IsGap)

/-- Two texts differ only in their blank runs, and in whether there are blanks at the end. -/
inductive Respaced : List Char → List Char → Prop where
  | ending {gap gap' : List Char} : blank gap = true → blank gap' = true → Respaced gap gap'
  | mark {c : Char} {s t : List Char} : isBlank c = false → Respaced s t →
      Respaced (c :: s) (c :: t)
  | gap {gap gap' s t : List Char} : IsGap gap → IsGap gap' → Respaced s t →
      Respaced (gap ++ s) (gap' ++ t)

/-- Two texts differ only in their blank runs, and in whether there are blanks at either end. -/
def SameSpacing (text text' : String) : Prop :=
  ∃ gap gap' s t : List Char, blank gap = true ∧ blank gap' = true ∧ Respaced s t ∧
    text.toList = gap ++ s ∧ text'.toList = gap' ++ t

theorem Respaced.refl (s : List Char) : Respaced s s := by
  induction s with
  | nil => exact .ending rfl rfl
  | cons c s ih =>
    cases hc : isBlank c with
    | false => exact .mark hc ih
    | true =>
      have hgap : IsGap [c] := ⟨List.cons_ne_nil c [], by rw [blank, List.all_cons, hc]; rfl⟩
      exact .gap hgap hgap ih

theorem SameSpacing.refl (text : String) : SameSpacing text text :=
  ⟨[], [], _, _, rfl, rfl, Respaced.refl text.toList, rfl, rfl⟩

/-- The words are the same, whatever stands before the texts. -/
theorem Respaced.words_eq {s t : List Char} (h : Respaced s t) (before : List Char) :
    words (before ++ s) = words (before ++ t) := by
  induction h generalizing before with
  | ending hgap hgap' => rw [words_append_blank before hgap, words_append_blank before hgap']
  | @mark c s t _ _ ih => simpa using ih (before ++ [c])
  | @gap gap gap' s t hgap hgap' _ ih =>
    have hrest : words s = words t := ih []
    rw [words_append_gap before hgap.1 hgap.2, words_append_gap before hgap'.1 hgap'.2, hrest]

theorem SameSpacing.wordsOf_eq {text text' : String} (h : SameSpacing text text') :
    wordsOf text = wordsOf text' := by
  obtain ⟨gap, gap', s, t, hgap, hgap', hspaced, htext, htext'⟩ := h
  have hwords : words s = words t := hspaced.words_eq []
  rw [wordsOf, wordsOf, htext, htext', words_blank_append hgap, words_blank_append hgap', hwords]

end Flat

/-- **Layout is insignificant.** A text that is read as a filter is one of its own layouts, and two
layouts of a text are read as the same filter, or neither is read: blank runs outside quotes may be
replaced by others, and blanks may be added or removed at either end, behind an opening parenthesis
and before a closing one. For flat filters a text may change in any of its blank runs and at either
end: its terms are the same, and so is the reason where it is refused. -/
theorem parse_layout :
    (∀ text r, Filter.parse text = .ok r → Filter.SameLayout text text) ∧
    (∀ text text', Filter.SameLayout text text' →
      ∀ r, Filter.parse text = .ok r ↔ Filter.parse text' = .ok r) ∧
    (∀ text, Flat.SameSpacing text text) ∧
    ∀ text text', Flat.SameSpacing text text' →
      (∀ terms, Flat.parse text = .ok terms ↔ Flat.parse text' = .ok terms) ∧
      ∀ reason, Flat.parse text = .error ⟨text, reason⟩ ↔
        Flat.parse text' = .error ⟨text', reason⟩ := by
  refine ⟨?_, ?_, Flat.SameSpacing.refl, ?_⟩
  · exact fun text r hparse => .refl_of_parse hparse
  · exact fun text text' hlayout r => hlayout.parse_eq_ok_iff
  · intro text text' hspacing
    have hwords := hspacing.wordsOf_eq
    constructor
    · intro terms
      rw [Flat.parse_eq_ok_iff, Flat.parse_eq_ok_iff, hwords]
    · intro reason
      rw [Flat.parse_eq_error_iff, Flat.parse_eq_error_iff, hwords]
      exact ⟨fun h => ⟨rfl, h.2⟩, fun h => ⟨rfl, h.2⟩⟩

/-- The theorem at a group with a quoted value that holds blanks and a parenthesis, and at two terms
of a flat filter. -/
theorem parse_layout_group_and_quoted :
    ∃ text text' f flat flat' terms,
      text = "( a OR b:'x )  y')" ∧ text' = "\u3000(a\tOR\n\nb:'x )  y' ) " ∧
      f = .node .or [.text "a", .comparison "b" .like (Literal.infer "'x )  y'")] ∧
      flat = "a:1  -b" ∧ flat' = "\ta:1\u00a0-b " ∧
      terms = [.comparison "a" .like "1", .text (some .prohibited) "b"] ∧
      Filter.SameLayout text text' ∧ Filter.parse text = .ok (some f) ∧
      Filter.parse text' = .ok (some f) ∧
      Flat.SameSpacing flat flat' ∧ Flat.parse flat = .ok terms ∧ Flat.parse flat' = .ok terms := by
  have hgap : ∀ g ∈ [[' '], [' ', ' '], ['\t'], ['\n', '\n'], ['\u00a0']], Filter.IsGap g := by
    unfold Filter.IsGap
    decide
  have hkey : ∀ name ∈ ["a", "b"], IsKey name.toList := by
    simp only [isKey_iff]
    decide
  have hone : IsBareValue "1".toList := (isBareValue_iff _).2 (by decide)
  have hvalue : Filter.IsValue "'x )  y'".toList :=
    @Filter.IsValue.quoted '\'' "x )  y".toList (.inl rfl) (by decide) (by decide)
  -- the derivation
  have ha := Filter.Term.Spells.word (hkey "a" (by decide))
  have hb := Filter.Term.Spells.comparison (c := .like) (hkey "b" (by decide)) hvalue
  have hinner := Filter.Chain.Spells.more (c := .or) (.single ha) (hgap [' '] (by decide))
    (hgap [' '] (by decide)) hb
  have hspells : Filter.Chain.Spells _ "( a OR b:'x )  y')".toList :=
    .single (@Filter.Term.Spells.group _ [' '] _ [] rfl hinner rfl)
  have hparse : Filter.parse "( a OR b:'x )  y')" = .ok (some _) :=
    hspells.parse_iff.2 ⟨by decide, by decide, rfl⟩
  -- the pieces in both layouts, from the last one
  have hclose := @Filter.Relaid.closeParen [] [' '] [] [' '] rfl rfl (.ending rfl rfl)
  have hor := (Filter.Relaid.gap (hgap [' '] (by decide)) (hgap ['\n', '\n'] (by decide))
    (hb.relaid_append hclose)).append_plain (Filter.isPlain_of_isKey (Filter.isKey_word .or))
  have hopen := @Filter.Relaid.openParen [' '] [] _ _ rfl rfl
    (ha.relaid_append (.gap (hgap [' '] (by decide)) (hgap ['\t'] (by decide)) hor))
  have hlayout : Filter.SameLayout "( a OR b:'x )  y')" "\u3000(a\tOR\n\nb:'x )  y' ) " :=
    ⟨[], ['\u3000'], _, _, rfl, rfl, hopen, rfl, rfl⟩
  -- the flat filter
  have hterms : Flat.parse "a:1  -b" =
      .ok [.comparison "a" .like "1", .text (some .prohibited) "b"] := by
    have hvalid : (Flat.Term.comparison "a" .like "1").Valid :=
      .comparison (hkey "a" (by decide)) hone
    have hvalid' : (Flat.Term.text (some .prohibited) "b").Valid := by
      refine .text (hkey "b" (by decide)) ?_
      intro hnone
      cases hnone
    exact Flat.parse_eq_ok_iff.2 ⟨by decide, by simp [hvalid, hvalid']⟩
  have hspaced := Flat.Respaced.gap (hgap [' ', ' '] (by decide)) (hgap ['\u00a0'] (by decide))
    (.mark (c := '-') rfl (.mark (c := 'b') rfl (@Flat.Respaced.ending [] [' '] rfl rfl)))
  have hspacing : Flat.SameSpacing "a:1  -b" "\ta:1\u00a0-b " :=
    ⟨[], ['\t'], _, _, rfl, rfl, .mark rfl (.mark rfl (.mark rfl hspaced)), rfl, rfl⟩
  obtain ⟨-, hread, -, hflat⟩ := parse_layout
  exact ⟨_, _, _, _, _, _, rfl, rfl, rfl, rfl, rfl, rfl, hlayout, hparse,
    (hread _ _ hlayout _).1 hparse, hspacing, hterms, ((hflat _ _ hspacing).1 _).1 hterms⟩

end Criteria
