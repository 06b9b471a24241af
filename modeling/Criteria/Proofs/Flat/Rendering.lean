import Criteria.Proofs.Flat.Grammar

/-!
# Rendered flat filters

The language of the engine writes equality as likeness and wraps what is excluded. Main statement
(`parse_render`): nothing else is lost by rendering, and a rendered filter reads back, up to that,
exactly when it excludes no value.
-/

namespace Criteria.Flat

open Criteria.Text

namespace Term

/-- The term with likeness in place of equality. -/
def loosen : Term → Term
  | .comparison field .equal value => .comparison field .like value
  | term => term

/-- The term asks that a field not have a value. -/
def Excludes (term : Term) : Prop := ∃ field value, term = .comparison field .notEqual value

theorem Valid.with_comparator {field value : String} {c : Comparator}
    (h : (Term.comparison field c value).Valid) (d : Comparator) :
    (Term.comparison field d value).Valid := by
  cases h with
  | comparison hfield hvalue => exact .comparison hfield hvalue

theorem Valid.loosen {term : Term} (h : term.Valid) : term.loosen.Valid := by
  cases term with
  | text => exact h
  | comparison field c value =>
    cases c with
    | equal => exact h.with_comparator .like
    | _ => exact h

theorem render_loosen (term : Term) : term.loosen.render = term.render := by
  cases term with
  | text => rfl
  | comparison field c value => cases c <;> rfl

/-- Apart from equality, a term that excludes nothing is rendered as it is written. -/
theorem render_eq_display_loosen {term : Term} (h : ¬ term.Excludes) :
    term.render = term.loosen.display := by
  cases term with
  | text => rfl
  | comparison field c value =>
    cases c with
    | notEqual => exact absurd ⟨field, value, rfl⟩ h
    | _ => rfl

theorem toList_render_notEqual (field value : String) :
    (comparison field .notEqual value).render.toList =
      '!' :: '(' :: ((comparison field .like value).display.toList ++ [')']) := by
  simp [render, display, Comparator.symbol, String.toList_append]

/-- A term is written with a key character or a sign in front. -/
theorem Valid.head?_display_ne {term : Term} (h : term.Valid) :
    term.display.toList.head? ≠ some '!' := by
  intro hhead
  cases h with
  | @comparison field value c hfield _ =>
    rw [display, String.toList_append, String.toList_append, List.append_assoc] at hhead
    have hkey := hfield.head _ '!' hhead
    exact absurd hkey (by decide)
  | @text mark word hword _ =>
    rw [toList_display_text] at hhead
    cases mark with
    | none =>
      have hkey := hword.head [] '!' (by simpa using hhead)
      exact absurd hkey (by decide)
    | some mark => cases mark <;> exact absurd (Option.some.inj hhead) (by decide)

/-- What a term that excludes a value is rendered to is no term. -/
theorem Excludes.render_ne_display {s t : Term} (hs : s.Excludes) (ht : t.Valid) :
    s.render ≠ t.display := by
  obtain ⟨field, value, rfl⟩ := hs
  intro heq
  have hhead := ht.head?_display_ne
  rw [← heq, toList_render_notEqual] at hhead
  exact hhead rfl

theorem Valid.display_injective {s t : Term} (hs : s.Valid) (ht : t.Valid)
    (h : s.display = t.display) : s = t := by
  -- the term that is read from a display is the only one that has it
  have hread := parse_eq_ok_iff.2 ⟨rfl, hs⟩
  rw [h, parse_eq_ok_iff.2 ⟨rfl, ht⟩] at hread
  exact (Except.ok.inj hread).symm

/-- Two terms are rendered alike exactly when they differ in equality and likeness only. -/
theorem Valid.render_eq_render_iff {s t : Term} (hs : s.Valid) (ht : t.Valid) :
    s.render = t.render ↔ s.loosen = t.loosen := by
  constructor
  · intro h
    by_cases hs' : s.Excludes
    · by_cases ht' : t.Excludes
      · -- inside the wrapper stand two comparisons that can be read
        obtain ⟨field, value, rfl⟩ := hs'
        obtain ⟨field', value', rfl⟩ := ht'
        have hinner := congrArg String.toList h
        simp only [toList_render_notEqual, List.cons.injEq, true_and] at hinner
        have heq := (hs.with_comparator .like).display_injective (ht.with_comparator .like)
          (String.toList_inj.1 (List.append_cancel_right hinner))
        cases heq
        rfl
      · rw [render_eq_display_loosen ht'] at h
        exact absurd h (hs'.render_ne_display ht.loosen)
    · rw [render_eq_display_loosen hs'] at h
      by_cases ht' : t.Excludes
      · exact absurd h.symm (ht'.render_ne_display hs.loosen)
      · rw [render_eq_display_loosen ht'] at h
        exact hs.loosen.display_injective ht.loosen h
  · intro h
    rw [← render_loosen s, h, render_loosen]

theorem Valid.display_not_blank {term : Term} (h : term.Valid) :
    ∀ c ∈ term.display.toList, isBlank c = false := by
  intro c hc
  cases h with
  | @text mark word hword _ =>
    rw [toList_display_text, List.mem_append] at hc
    rcases hc with hc | hc
    · rcases mark with _ | _ | _
      · exact absurd hc List.not_mem_nil
      · rw [List.mem_singleton.1 hc]
        decide
      · rw [List.mem_singleton.1 hc]
        decide
    · exact hword.not_blank c hc
  | @comparison field value comparator hfield hvalue =>
    rw [display, String.toList_append, String.toList_append, List.mem_append,
      List.mem_append] at hc
    rcases hc with (hc | hc) | hc
    · exact hfield.not_blank c hc
    · have hsymbol : comparator.symbol.toList.any isBlank = false := by
        cases comparator <;> rfl
      exact Bool.eq_false_iff.2 (List.any_eq_false.1 hsymbol c hc)
    · exact hvalue.not_blank c hc

theorem Valid.render_not_blank {term : Term} (h : term.Valid) :
    ∀ c ∈ term.render.toList, isBlank c = false := by
  by_cases hterm : term.Excludes
  · obtain ⟨field, value, rfl⟩ := hterm
    intro c hc
    simp only [toList_render_notEqual, List.mem_cons, List.mem_append, List.not_mem_nil,
      or_false] at hc
    rcases hc with rfl | rfl | hc | rfl
    · decide
    · decide
    · exact (h.with_comparator .like).display_not_blank c hc
    · decide
  · rw [render_eq_display_loosen hterm]
    exact h.loosen.display_not_blank

theorem Valid.render_ne_empty {term : Term} (h : term.Valid) : term.render ≠ "" := by
  intro hempty
  have hlist := congrArg String.toList hempty
  cases h with
  | @text mark word hword _ =>
    rw [render, toList_display_text] at hlist
    exact hword.1 (List.append_eq_nil_iff.1 hlist).2
  | @comparison field value c _ _ => cases c <;> simp [render] at hlist

end Term

/-! ## Whole filters -/

theorem wordsOf_render {terms : List Term} (h : ∀ term ∈ terms, term.Valid) :
    wordsOf (render terms) = terms.map Term.render := by
  refine wordsOf_intercalate fun word hword => ?_
  obtain ⟨term, hterm, rfl⟩ := List.mem_map.1 hword
  exact ⟨(h term hterm).render_ne_empty, (h term hterm).render_not_blank⟩

theorem render_eq_empty_iff {terms : List Term} (h : ∀ term ∈ terms, term.Valid) :
    render terms = "" ↔ terms = [] := by
  constructor
  · intro hempty
    have hwords := wordsOf_render h
    rw [hempty] at hwords
    exact List.map_eq_nil_iff.1 hwords.symm
  · rintro rfl
    rfl

theorem map_render_eq_map_render_iff {terms terms' : List Term}
    (h : ∀ term ∈ terms, term.Valid) (h' : ∀ term ∈ terms', term.Valid) :
    terms.map Term.render = terms'.map Term.render ↔
      terms.map Term.loosen = terms'.map Term.loosen := by
  induction terms generalizing terms' with
  | nil => cases terms' <;> simp
  | cons term terms ih =>
    cases terms' with
    | nil => simp
    | cons term' terms' =>
      obtain ⟨hterm, hterms⟩ := List.forall_mem_cons.1 h
      obtain ⟨hterm', hterms'⟩ := List.forall_mem_cons.1 h'
      simp only [List.map_cons, List.cons.injEq]
      rw [hterm.render_eq_render_iff hterm', ih hterms hterms']

/-- Two filters are rendered alike exactly when they differ in equality and likeness only. -/
theorem render_eq_render_iff {terms terms' : List Term}
    (h : ∀ term ∈ terms, term.Valid) (h' : ∀ term ∈ terms', term.Valid) :
    render terms = render terms' ↔ terms.map Term.loosen = terms'.map Term.loosen := by
  rw [← map_render_eq_map_render_iff h h']
  constructor
  · intro heq
    rw [← wordsOf_render h, heq, wordsOf_render h']
  · intro heq
    rw [render, heq, ← render]

theorem render_map_loosen (terms : List Term) : render (terms.map Term.loosen) = render terms := by
  rw [render, List.map_map, render]
  congr 1
  exact List.map_congr_left fun term _ => Term.render_loosen term

theorem parse_render_of_excludes_nothing {terms : List Term} (h : ∀ term ∈ terms, term.Valid)
    (hfree : ∀ term ∈ terms, ¬ term.Excludes) :
    parse (render terms) = .ok (terms.map Term.loosen) := by
  rw [parse_eq_ok_iff, wordsOf_render h]
  constructor
  · rw [List.map_map]
    exact List.map_congr_left fun term hterm => Term.render_eq_display_loosen (hfree term hterm)
  · intro term hterm
    obtain ⟨term', hterm', rfl⟩ := List.mem_map.1 hterm
    exact (h term' hterm').loosen

/-- A rendered filter is read only where it excludes nothing, and as its terms without equality. -/
theorem parse_render_eq_ok_iff {terms reread : List Term} (h : ∀ term ∈ terms, term.Valid) :
    parse (render terms) = .ok reread ↔
      (∀ term ∈ terms, ¬ term.Excludes) ∧ reread = terms.map Term.loosen := by
  constructor
  · intro hread
    obtain ⟨hwords, hvalid⟩ := parse_eq_ok_iff.1 hread
    rw [wordsOf_render h] at hwords
    have hfree : ∀ term ∈ terms, ¬ term.Excludes := by
      -- every word of the text is the display of a term, which no wrapped clause is
      intro term hterm hexcludes
      have hmem : term.render ∈ reread.map Term.display := by
        rw [← hwords]
        exact List.mem_map_of_mem hterm
      obtain ⟨term', hterm', heq⟩ := List.mem_map.1 hmem
      exact hexcludes.render_ne_display (hvalid term' hterm') heq.symm
    rw [parse_render_of_excludes_nothing h hfree] at hread
    exact ⟨hfree, (Except.ok.inj hread).symm⟩
  · rintro ⟨hfree, rfl⟩
    exact parse_render_of_excludes_nothing h hfree

/-- **Rendering loses equality and nothing else.** Accepted filters are rendered alike exactly when
their terms are the same up to equality and likeness. A rendered filter is read again exactly when
it excludes no value; it then has the terms it came from with likeness in place of equality, and is
rendered as before. -/
theorem parse_render (text : String) (terms : List Term) (h : parse text = .ok terms) :
    (∀ text' terms', parse text' = .ok terms' →
      (render terms = render terms' ↔ terms.map Term.loosen = terms'.map Term.loosen)) ∧
    ((∃ reread, parse (render terms) = .ok reread) ↔ ∀ term ∈ terms, ¬ term.Excludes) ∧
    ∀ reread, parse (render terms) = .ok reread →
      reread = terms.map Term.loosen ∧ render reread = render terms := by
  obtain ⟨-, hvalid⟩ := parse_eq_ok_iff.1 h
  refine ⟨?_, ?_, ?_⟩
  · intro text' terms' h'
    exact render_eq_render_iff hvalid (parse_eq_ok_iff.1 h').2
  · constructor
    · rintro ⟨reread, hread⟩
      exact ((parse_render_eq_ok_iff hvalid).1 hread).1
    · intro hfree
      exact ⟨_, parse_render_of_excludes_nothing hvalid hfree⟩
  · intro reread hread
    obtain ⟨-, rfl⟩ := (parse_render_eq_ok_iff hvalid).1 hread
    exact ⟨rfl, render_map_loosen terms⟩

/-- The theorem at a filter with an equality, a value that begins with a colon and an excluded
value. -/
theorem parse_render_equality_and_exclusion :
    ∃ terms, terms = [.comparison "state" .equal ":open", .text (some .prohibited) "-x",
        .comparison "year" .notEqual "1990"] ∧
      parse "state:==:open --x year:!=1990" = .ok terms ∧
      (∀ text' terms', parse text' = .ok terms' →
        (render terms = render terms' ↔ terms.map Term.loosen = terms'.map Term.loosen)) ∧
      ((∃ reread, parse (render terms) = .ok reread) ↔ ∀ term ∈ terms, ¬ term.Excludes) ∧
      ∀ reread, parse (render terms) = .ok reread →
        reread = terms.map Term.loosen ∧ render reread = render terms := by
  have hparse : parse "state:==:open --x year:!=1990" =
      .ok [.comparison "state" .equal ":open", .text (some .prohibited) "-x",
        .comparison "year" .notEqual "1990"] := rfl
  exact ⟨_, rfl, hparse, parse_render _ _ hparse⟩

end Criteria.Flat
