import Criteria.Proofs.Filter.Composition
import Criteria.Proofs.Text.Words

/-!
# The layout of filters

`Relaid` relates two texts that differ in their layout only: in how long blank runs outside quotes
are, in the blanks inside parentheses next to them, and in the blanks at the end. The pieces of one
text have their counterparts in the other, so one derivation spells both (`Chain.Spells.of_relaid`),
and both are read alike (`SameLayout.parse_eq_ok_iff`).
-/

namespace Criteria.Filter

open Criteria.Text

/-- Not blank, and neither a parenthesis nor a quote. -/
def IsPlain (c : Char) : Prop := isBlank c = false ∧ c ∉ ['(', ')', '\'', '"']

instance (c : Char) : Decidable (IsPlain c) :=
  inferInstanceAs (Decidable (isBlank c = false ∧ c ∉ ['(', ')', '\'', '"']))

/-- Two texts differ only in blanks outside quotes: a blank run stands for another one, and there
may be blanks or none behind `(`, before `)` and at the end. -/
inductive Relaid : List Char → List Char → Prop where
  | ending {gap gap' : List Char} : blank gap = true → blank gap' = true → Relaid gap gap'
  | plain {c : Char} {s t : List Char} : IsPlain c → Relaid s t → Relaid (c :: s) (c :: t)
  | quoted {q : Char} {inner s t : List Char} : q = '\'' ∨ q = '"' → q ∉ inner → Relaid s t →
      Relaid (q :: (inner ++ q :: s)) (q :: (inner ++ q :: t))
  | gap {gap gap' s t : List Char} : IsGap gap → IsGap gap' → Relaid s t →
      Relaid (gap ++ s) (gap' ++ t)
  | openParen {gap gap' s t : List Char} : blank gap = true → blank gap' = true → Relaid s t →
      Relaid ('(' :: (gap ++ s)) ('(' :: (gap' ++ t))
  | closeParen {gap gap' s t : List Char} : blank gap = true → blank gap' = true → Relaid s t →
      Relaid (gap ++ ')' :: s) (gap' ++ ')' :: t)

/-- Two texts differ in their layout only, which includes the blanks they begin with. -/
def SameLayout (text text' : String) : Prop :=
  ∃ gap gap' s t : List Char, blank gap = true ∧ blank gap' = true ∧ Relaid s t ∧
    text.toList = gap ++ s ∧ text'.toList = gap' ++ t

theorem Relaid.symm {s t : List Char} (h : Relaid s t) : Relaid t s := by
  induction h with
  | ending hgap hgap' => exact .ending hgap' hgap
  | plain hc _ ih => exact .plain hc ih
  | quoted hq hinner _ ih => exact .quoted hq hinner ih
  | gap hgap hgap' _ ih => exact .gap hgap' hgap ih
  | openParen hgap hgap' _ ih => exact .openParen hgap' hgap ih
  | closeParen hgap hgap' _ ih => exact .closeParen hgap' hgap ih

theorem SameLayout.symm {text text' : String} (h : SameLayout text text') :
    SameLayout text' text := by
  obtain ⟨gap, gap', s, t, hgap, hgap', hrelaid, htext, htext'⟩ := h
  exact ⟨gap', gap, t, s, hgap', hgap, hrelaid.symm, htext', htext⟩

/-! ## Blank runs -/

/-- Blanks at the head of a text belong to the blanks before its first other character. -/
theorem exists_append_of_blank {gap before s rest : List Char} (hgap : blank gap = true)
    (hs : ∀ c ∈ s.head?, isBlank c = false) (h : gap ++ rest = before ++ s) :
    ∃ before', before = gap ++ before' ∧ rest = before' ++ s := by
  rcases List.append_eq_append_iff.1 h with ⟨mid, hbefore, hrest⟩ | ⟨mid, hbefore, hrest⟩
  · exact ⟨mid, hbefore, hrest⟩
  · cases mid with
    | nil => exact ⟨[], by simpa using hbefore.symm, by simpa using hrest.symm⟩
    | cons c mid =>
      have hblank := List.all_eq_true.1 hgap c (by simp [hbefore])
      rw [hs c (by simp [hrest])] at hblank
      exact nomatch hblank

/-! ## What a text begins with -/

/-- How a text that begins with `c` can be laid out otherwise. -/
inductive Relaid.Head (c : Char) (s t : List Char) : Prop where
  | blank : isBlank c = true → Relaid.Head c s t
  | plain {t' : List Char} : IsPlain c → t = c :: t' → Relaid s t' → Relaid.Head c s t
  | quoted {inner s' t' : List Char} : c = '\'' ∨ c = '"' → c ∉ inner → s = inner ++ c :: s' →
      t = c :: (inner ++ c :: t') → Relaid s' t' → Relaid.Head c s t
  | openParen {gap gap' s' t' : List Char} : c = '(' → Text.blank gap = true →
      Text.blank gap' = true → s = gap ++ s' → t = '(' :: (gap' ++ t') → Relaid s' t' →
      Relaid.Head c s t
  | closeParen {gap' t' : List Char} : c = ')' → Text.blank gap' = true →
      t = gap' ++ ')' :: t' → Relaid s t' → Relaid.Head c s t

theorem Relaid.head {c : Char} {s t : List Char} (h : Relaid (c :: s) t) : Relaid.Head c s t := by
  have hblank : ∀ {gap : List Char}, Text.blank (c :: gap) = true → Relaid.Head c s t :=
    fun hgap => .blank (List.all_eq_true.1 hgap c List.mem_cons_self)
  generalize hu : c :: s = u at h
  cases h with
  | ending hgap _ =>
    subst hu
    exact hblank hgap
  | plain hc hrest =>
    cases hu
    exact .plain hc rfl hrest
  | quoted hq hinner hrest =>
    cases hu
    exact .quoted hq hinner rfl rfl hrest
  | gap hgap _ _ =>
    obtain ⟨d, gap, rfl⟩ := List.exists_cons_of_ne_nil hgap.1
    cases hu
    exact hblank hgap.2
  | openParen hgap hgap' hrest =>
    cases hu
    exact .openParen rfl hgap hgap' rfl rfl hrest
  | @closeParen gap gap' s' t' hgap hgap' hrest =>
    cases gap with
    | nil =>
      cases hu
      exact .closeParen rfl hgap' rfl hrest
    | cons d gap =>
      cases hu
      exact hblank hgap

/-- Plain characters are kept as they are. -/
theorem Relaid.of_plain {p s t : List Char} (hp : ∀ c ∈ p, IsPlain c) (h : Relaid (p ++ s) t) :
    ∃ t', t = p ++ t' ∧ Relaid s t' := by
  induction p generalizing t with
  | nil => exact ⟨t, rfl, h⟩
  | cons c p ih =>
    obtain ⟨⟨hblank, hmark⟩, hp⟩ := List.forall_mem_cons.1 hp
    simp only [List.mem_cons, List.not_mem_nil, or_false, not_or] at hmark
    obtain ⟨hopen, hclose, hsingle, hdouble⟩ := hmark
    cases h.head with
    | plain _ ht hrest =>
      obtain ⟨t', rfl, hrest'⟩ := ih hp hrest
      exact ⟨t', ht, hrest'⟩
    | blank hc => exact absurd (hblank.symm.trans hc) Bool.false_ne_true
    | quoted hq => exact absurd hq (not_or.2 ⟨hsingle, hdouble⟩)
    | openParen hc => exact absurd hc hopen
    | closeParen hc => exact absurd hc hclose

/-- A text in quotes is kept as it is. -/
theorem Relaid.of_quoted {q : Char} {inner s t : List Char} (hq : q = '\'' ∨ q = '"')
    (hinner : q ∉ inner) (h : Relaid (q :: (inner ++ q :: s)) t) :
    ∃ t', t = q :: (inner ++ q :: t') ∧ Relaid s t' := by
  cases h.head with
  | @quoted inner' s' t' _ hinner' hs ht hrest =>
    -- both end at the first quote of their kind
    have hsame : inner = inner' := by
      rw [← takeWhile_ne_append_cons hinner s, hs, takeWhile_ne_append_cons hinner']
    subst hsame
    obtain rfl := (List.cons.inj (List.append_cancel_left hs)).2
    exact ⟨t', ht, hrest⟩
  | blank hc => rcases hq with rfl | rfl <;> exact nomatch hc
  | plain hc => rcases hq with rfl | rfl <;> exact absurd hc.2 (by decide)
  | openParen hc => rcases hq with rfl | rfl <;> exact nomatch hc
  | closeParen hc => rcases hq with rfl | rfl <;> exact nomatch hc

theorem Relaid.of_openParen {s t : List Char} (h : Relaid ('(' :: s) t) :
    ∃ gap gap' s' t', blank gap = true ∧ blank gap' = true ∧ s = gap ++ s' ∧
      t = '(' :: (gap' ++ t') ∧ Relaid s' t' := by
  cases h.head with
  | openParen _ hgap hgap' hs ht hrest => exact ⟨_, _, _, _, hgap, hgap', hs, ht, hrest⟩
  | blank hc => exact nomatch hc
  | plain hc => exact absurd hc.2 (by decide)
  | quoted hq => exact absurd hq (by decide)
  | closeParen hc => exact nomatch hc

theorem Relaid.of_closeParen {s t : List Char} (h : Relaid (')' :: s) t) :
    ∃ gap' t', blank gap' = true ∧ t = gap' ++ ')' :: t' ∧ Relaid s t' := by
  cases h.head with
  | closeParen _ hgap' ht hrest => exact ⟨_, _, hgap', ht, hrest⟩
  | blank hc => exact nomatch hc
  | plain hc => exact absurd hc.2 (by decide)
  | quoted hq => exact absurd hq (by decide)
  | openParen hc => exact nomatch hc

/-- The text `t` begins with blanks that stand for `gap`, and goes on with `s` in its layout. There
are none only for an empty gap, at the end and before a closing parenthesis. -/
def RelaidBehind (gap s t : List Char) : Prop :=
  ∃ gap' t', t = gap' ++ t' ∧ blank gap' = true ∧ Relaid s t' ∧
    (gap ≠ [] → ∀ c ∈ s.head?, c ≠ ')' → gap' ≠ [])

theorem Relaid.behind_nil {s t : List Char} (h : Relaid s t) : RelaidBehind [] s t :=
  ⟨[], t, rfl, rfl, h, fun hne => absurd rfl hne⟩

/-- Before a character that is not blank there is no gap. -/
theorem eq_nil_of_blank {c : Char} {rest gap s : List Char} (hc : isBlank c = false)
    (h : c :: rest = gap ++ s) (hgap : blank gap = true) : gap = [] := by
  cases gap with
  | nil => rfl
  | cons d gap =>
    obtain rfl : c = d := (List.cons.inj h).1
    exact nomatch hc.symm.trans (List.all_eq_true.1 hgap c List.mem_cons_self)

/-- Blanks are laid out as blanks. -/
theorem Relaid.behind {u t : List Char} (h : Relaid u t) :
    ∀ {gap s : List Char}, u = gap ++ s → blank gap = true →
      (∀ c ∈ s.head?, isBlank c = false) → RelaidBehind gap s t := by
  -- on the pieces, as long as they are parts of the gap
  induction h with
  | @ending g g' hg hg' =>
    intro gap s hu hgap hs
    rw [← List.append_nil g] at hu
    obtain ⟨before, rfl, hrest⟩ := exists_append_of_blank hg hs hu
    obtain ⟨rfl, rfl⟩ := List.append_eq_nil_iff.1 hrest.symm
    exact ⟨g', [], (List.append_nil g').symm, hg', .ending rfl rfl, fun _ _ hc => nomatch hc⟩
  | @gap g g' _ _ hg hg' _ ih =>
    intro gap s hu hgap hs
    obtain ⟨before, rfl, hrest⟩ := exists_append_of_blank hg.2 hs hu
    rw [blank_append] at hgap
    obtain ⟨gap', t', rfl, hgap', hrelaid, -⟩ := ih hrest hgap.2 hs
    refine ⟨g' ++ gap', t', by simp, ?_, hrelaid, fun _ _ _ _ => by simp [hg'.1]⟩
    exact blank_append.2 ⟨hg'.2, hgap'⟩
  | @closeParen g g' s' t' hg hg' hrelaid _ =>
    intro gap s hu hgap hs
    obtain ⟨before, rfl, hrest⟩ := exists_append_of_blank hg hs hu
    rw [blank_append] at hgap
    obtain rfl := eq_nil_of_blank (by decide) hrest hgap.2
    obtain rfl : ')' :: s' = s := hrest
    refine ⟨g', ')' :: t', rfl, hg', @closeParen [] [] _ _ rfl rfl hrelaid, ?_⟩
    intro _ c hc hne
    exact absurd (Option.some.inj hc).symm hne
  | plain hc hrelaid _ =>
    intro gap s hu hgap _
    obtain rfl := eq_nil_of_blank hc.1 hu hgap
    obtain rfl := hu
    exact (plain hc hrelaid).behind_nil
  | quoted hq hinner hrelaid _ =>
    intro gap s hu hgap _
    obtain rfl := eq_nil_of_blank (by rcases hq with rfl | rfl <;> decide) hu hgap
    obtain rfl := hu
    exact (quoted hq hinner hrelaid).behind_nil
  | openParen hg hg' hrelaid _ =>
    intro gap s hu hgap _
    obtain rfl := eq_nil_of_blank (by decide) hu hgap
    obtain rfl := hu
    exact (openParen hg hg' hrelaid).behind_nil

/-- What is laid out as blanks is blank. -/
theorem Relaid.blank_of_blank {s t : List Char} (h : Relaid s t) (hs : blank s = true) :
    blank t = true := by
  induction h with
  | ending _ hgap' => exact hgap'
  | gap _ hgap' _ ih =>
    rw [blank_append] at hs ⊢
    exact ⟨hgap'.2, ih hs.2⟩
  | plain hc _ _ =>
    rw [blank, List.all_cons, hc.1, Bool.false_and] at hs
    exact absurd hs Bool.false_ne_true
  | quoted hq _ _ _ =>
    have hquote := List.all_eq_true.1 hs _ List.mem_cons_self
    rcases hq with rfl | rfl <;> exact absurd hquote (by decide)
  | openParen _ _ _ _ =>
    exact absurd (List.all_eq_true.1 hs '(' List.mem_cons_self) (by decide)
  | closeParen _ _ _ _ =>
    rw [blank_append] at hs
    exact absurd (List.all_eq_true.1 hs.2 ')' List.mem_cons_self) (by decide)

/-! ## Derivations -/

theorem isPlain_of_mem_symbol {c : Comparator} : ∀ d ∈ c.symbol.toList, IsPlain d := by
  have hall : c.symbol.toList.all (fun d => decide (IsPlain d)) = true := by
    cases c <;> rfl
  exact fun d hd => of_decide_eq_true (List.all_eq_true.1 hall d hd)

/-- The characters of a class without the marks are plain where they are not blank. -/
theorem isPlain_of_class {p : Char → Bool} (hmarks : ['(', ')', '\'', '"'].any p = false) {c : Char}
    (hc : p c = true) (hblank : isBlank c = false) : IsPlain c :=
  ⟨hblank, fun hmem => List.any_eq_false.1 hmarks c hmem hc⟩

theorem isPlain_of_isBareValue {s : List Char} (h : IsBareValue s) : ∀ c ∈ s, IsPlain c := by
  intro c hc
  have hclass : isValueChar c = true := List.all_eq_true.1 ((isBareValue_iff s).1 h).2 c hc
  exact isPlain_of_class rfl hclass (h.not_blank c hc)

theorem isPlain_of_isKey {s : List Char} (h : IsKey s) : ∀ c ∈ s, IsPlain c := by
  intro c hc
  have hclass : isKeyChar c = true := List.all_eq_true.1 ((isKey_iff s).1 h).2 c hc
  exact isPlain_of_class rfl hclass (h.not_blank c hc)

/-- A value is kept as it is. -/
theorem Relaid.of_isValue {raw s t : List Char} (hraw : IsValue raw) (h : Relaid (raw ++ s) t) :
    ∃ t', t = raw ++ t' ∧ Relaid s t' := by
  cases hraw with
  | bare hbare => exact h.of_plain (isPlain_of_isBareValue hbare)
  | quoted hq _ hinner =>
    simp only [List.cons_append, List.append_assoc, List.nil_append] at h ⊢
    exact h.of_quoted hq hinner

/-- No term begins with a closing parenthesis. -/
theorem Term.Spells.head_ne_closeParen {term : Term} {s : List Char} (h : term.Spells s)
    (rest : List Char) : ∀ c ∈ (s ++ rest).head?, c ≠ ')' := by
  cases h with
  | word hkey => exact fun c hc => ne_of_class (hkey.head rest c hc) rfl
  | comparison hkey _ =>
    intro c hc
    rw [List.append_assoc, List.append_assoc] at hc
    exact ne_of_class (hkey.head _ c hc) rfl
  | group _ _ _ =>
    intro c hc
    obtain rfl : '(' = c := Option.some.inj hc
    decide

/-- A gap is laid out as a gap where neither the end nor a closing parenthesis follows it. -/
theorem RelaidBehind.exists_gap {gap s t : List Char} (h : RelaidBehind gap s t)
    (hgap : IsGap gap) (hne : s ≠ []) (hs : ∀ c ∈ s.head?, c ≠ ')') :
    ∃ gap' t', t = gap' ++ t' ∧ IsGap gap' ∧ Relaid s t' := by
  obtain ⟨gap', t', ht, hblank, hrelaid, hgap'⟩ := h
  obtain ⟨c, s, rfl⟩ := List.exists_cons_of_ne_nil hne
  exact ⟨gap', t', ht, ⟨hgap' hgap.1 c rfl (hs c rfl), hblank⟩, hrelaid⟩

mutual

/-- A term is spelled in every layout of its text. -/
theorem Term.Spells.of_relaid {term : Term} {s rest t : List Char} (h : term.Spells s)
    (hrelaid : Relaid (s ++ rest) t) :
    ∃ s' rest', t = s' ++ rest' ∧ term.Spells s' ∧ Relaid rest rest' := by
  cases h with
  | word hkey =>
    obtain ⟨rest', ht, hrest⟩ := hrelaid.of_plain (isPlain_of_isKey hkey)
    exact ⟨_, rest', ht, .word hkey, hrest⟩
  | @comparison field raw c hkey hraw =>
    rw [List.append_assoc, List.append_assoc] at hrelaid
    obtain ⟨t₁, rfl, hsymbol⟩ := hrelaid.of_plain (isPlain_of_isKey hkey)
    obtain ⟨t₂, rfl, hvalue⟩ := hsymbol.of_plain isPlain_of_mem_symbol
    obtain ⟨rest', rfl, hrest⟩ := hvalue.of_isValue hraw
    exact ⟨_, rest', by simp, .comparison hkey hraw, hrest⟩
  | @group inner before s after hbefore hinner hafter =>
    obtain ⟨gap, gap', u, t₁, hgap, hgap', hu, rfl, hinside⟩ := hrelaid.of_openParen
    -- what is behind the blanks that were taken goes on with the rest of those inside
    have hhead := hinner.head (after ++ ')' :: rest)
    have hsplit : gap ++ u = before ++ (s ++ (after ++ ')' :: rest)) := by
      rw [← hu]
      simp
    obtain ⟨mid, rfl, rfl⟩ := exists_append_of_blank hgap hhead hsplit
    rw [blank_append] at hbefore
    obtain ⟨mid', t₂, rfl, hmid', hchain, -⟩ := hinside.behind rfl hbefore.2 hhead
    obtain ⟨s', t₃, rfl, hinner', hbehind⟩ := Chain.Spells.of_relaid hinner hchain
    have hclose : ∀ c ∈ (')' :: rest).head?, isBlank c = false := by
      intro c hc
      obtain rfl : ')' = c := Option.some.inj hc
      decide
    obtain ⟨after', t₄, rfl, hafter', hend, -⟩ := hbehind.behind rfl hafter hclose
    obtain ⟨last, rest', hlast, rfl, hrest⟩ := hend.of_closeParen
    have hbefore' := blank_append.2 ⟨hgap', hmid'⟩
    have hafter'' := blank_append.2 ⟨hafter', hlast⟩
    exact ⟨_, rest', by simp, .group hbefore' hinner' hafter'', hrest⟩

/-- A chain is spelled in every layout of its text. -/
theorem Chain.Spells.of_relaid {chain : Chain} {s rest t : List Char} (h : chain.Spells s)
    (hrelaid : Relaid (s ++ rest) t) :
    ∃ s' rest', t = s' ++ rest' ∧ chain.Spells s' ∧ Relaid rest rest' := by
  cases h with
  | single hterm =>
    obtain ⟨s', rest', ht, hterm', hrest⟩ := Term.Spells.of_relaid hterm hrelaid
    exact ⟨s', rest', ht, .single hterm', hrest⟩
  | @more init c last s before after u hinit hbefore hafter hlast =>
    simp only [List.append_assoc] at hrelaid
    obtain ⟨s', t₁, rfl, hinit', hgap⟩ := Chain.Spells.of_relaid hinit hrelaid
    have hword := (isKey_word c).head (after ++ (u ++ rest))
    have hbehind := hgap.behind rfl hbefore.2 fun d hd =>
      isBlank_eq_false_of_isKeyChar (hword d hd)
    obtain ⟨before', t₂, rfl, hbefore', hconnector⟩ := hbehind.exists_gap hbefore
      (by simp [(isKey_word c).1]) fun d hd => ne_of_class (hword d hd) rfl
    obtain ⟨t₃, rfl, hgap'⟩ := hconnector.of_plain (isPlain_of_isKey (isKey_word c))
    have hbehind' := hgap'.behind rfl hafter.2 (hlast.head rest)
    obtain ⟨after', t₄, rfl, hafter', hterm⟩ := hbehind'.exists_gap hafter
      (by simp [hlast.ne_nil]) (hlast.head_ne_closeParen rest)
    obtain ⟨u', rest', rfl, hlast', hrest⟩ := Term.Spells.of_relaid hlast hterm
    exact ⟨_, rest', by simp, .more hinit' hbefore' hafter' hlast', hrest⟩

end

/-! ## Texts of derivations as their own layouts -/

theorem Relaid.append_plain {p s t : List Char} (hp : ∀ c ∈ p, IsPlain c) (h : Relaid s t) :
    Relaid (p ++ s) (p ++ t) := by
  induction p with
  | nil => exact h
  | cons c p ih =>
    obtain ⟨hc, hp⟩ := List.forall_mem_cons.1 hp
    exact .plain hc (ih hp)

theorem Relaid.append_value {raw s t : List Char} (hraw : IsValue raw) (h : Relaid s t) :
    Relaid (raw ++ s) (raw ++ t) := by
  cases hraw with
  | bare hbare => exact h.append_plain (isPlain_of_isBareValue hbare)
  | quoted hq _ hinner =>
    simp only [List.cons_append, List.append_assoc, List.nil_append]
    exact .quoted hq hinner h

mutual

/-- The text of a term may stay as it is where what follows it is laid out anew. -/
theorem Term.Spells.relaid_append {term : Term} {s rest rest' : List Char} (h : term.Spells s)
    (hrest : Relaid rest rest') : Relaid (s ++ rest) (s ++ rest') := by
  cases h with
  | word hkey => exact hrest.append_plain (isPlain_of_isKey hkey)
  | comparison hkey hraw =>
    simp only [List.append_assoc]
    exact ((hrest.append_value hraw).append_plain isPlain_of_mem_symbol).append_plain
      (isPlain_of_isKey hkey)
  | group hbefore hinner hafter =>
    simp only [List.cons_append, List.append_assoc, List.nil_append]
    have hclose := Relaid.closeParen hafter hafter hrest
    exact .openParen hbefore hbefore (Chain.Spells.relaid_append hinner hclose)

theorem Chain.Spells.relaid_append {chain : Chain} {s rest rest' : List Char}
    (h : chain.Spells s) (hrest : Relaid rest rest') : Relaid (s ++ rest) (s ++ rest') := by
  cases h with
  | single hterm => exact Term.Spells.relaid_append hterm hrest
  | @more init c last s before after t hinit hbefore hafter hlast =>
    simp only [List.append_assoc]
    have hterm := Term.Spells.relaid_append hlast hrest
    have hconnector := (Relaid.gap hafter hafter hterm).append_plain
      (isPlain_of_isKey (isKey_word c))
    exact Chain.Spells.relaid_append hinit (.gap hbefore hbefore hconnector)

end

/-! ## Texts -/

/-- A text that is read is one of its own layouts. -/
theorem SameLayout.refl_of_parse {text : String} {r : Option Filter} (h : parse text = .ok r) :
    SameLayout text text := by
  cases r with
  | none =>
    have hblank := parse_eq_none_iff.1 h
    exact ⟨[], [], _, _, rfl, rfl, .ending hblank hblank, rfl, rfl⟩
  | some f =>
    obtain ⟨chain, before, s, after, hs, -, htext, hbefore, hafter⟩ := exists_padded_of_parse h
    rw [List.append_assoc] at htext
    have hrelaid := hs.relaid_append (.ending hafter hafter)
    exact ⟨before, before, _, _, hbefore, hbefore, hrelaid, htext, htext⟩

/-- A filter that is read from a text is read from its other layouts. -/
theorem SameLayout.parse_eq_ok {text text' : String} (h : SameLayout text text')
    {r : Option Filter} (hparse : parse text = .ok r) : parse text' = .ok r := by
  obtain ⟨gap, gap', u, t, hgap, hgap', hrelaid, htext, htext'⟩ := h
  cases r with
  | none =>
    have hblank := parse_eq_none_iff.1 hparse
    rw [htext, blank_append] at hblank
    rw [parse_eq_none_iff, htext', blank_append]
    exact ⟨hgap', hrelaid.blank_of_blank hblank.2⟩
  | some f =>
    obtain ⟨chain, before, s, after, hs, -, hpadded, hbefore, hafter⟩ :=
      exists_padded_of_parse hparse
    have hlimits := (hs.parse_padded_iff hpadded hbefore hafter).1 hparse
    rw [htext, List.append_assoc] at hpadded
    -- the chain begins at the same place behind the blanks of either text
    obtain ⟨mid, rfl, rfl⟩ := exists_append_of_blank hgap (hs.head after) hpadded
    rw [blank_append] at hbefore
    obtain ⟨mid', t₁, rfl, hmid', hrelaid, -⟩ := hrelaid.behind rfl hbefore.2 (hs.head after)
    obtain ⟨s', after', rfl, hs', hrest⟩ := hs.of_relaid hrelaid
    have hbefore' := blank_append.2 ⟨hgap', hmid'⟩
    have hpadded' : text'.toList = (gap' ++ mid') ++ s' ++ after' := by simp [htext']
    exact (hs'.parse_padded_iff hpadded' hbefore' (hrest.blank_of_blank hafter)).2 hlimits

/-- Texts that differ in their layout only are read alike. -/
theorem SameLayout.parse_eq_ok_iff {text text' : String} (h : SameLayout text text')
    {r : Option Filter} : parse text = .ok r ↔ parse text' = .ok r :=
  ⟨h.parse_eq_ok, h.symm.parse_eq_ok⟩

end Criteria.Filter
