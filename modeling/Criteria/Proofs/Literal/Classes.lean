import Criteria.Proofs.Literal.Inference

/-!
# The classes of literals

A value in quotes is a date or a pattern by its content. Any other value is a date, a number, a
truth value or a pattern, and the languages of the first three have no text in common, so it does
not matter in which order they are tried (`ofBare_eq_of_perm`). Main statement (`infer_classes`):
the class and the content of a literal, from the languages alone.
-/

namespace Criteria.Literal

open Text

/-! ## Quotes -/

/-- A text of at least two characters that begins and ends with the same quote, and the content
between them. -/
def IsQuoted (s inner : List Char) : Prop :=
  ∃ q, (q = '\'' ∨ q = '"') ∧ s = q :: (inner ++ [q])

theorem unquote?_eq_some_iff {s inner : List Char} :
    unquote? s = some inner ↔ IsQuoted s inner := by
  constructor
  · intro h
    unfold unquote? at h
    split at h
    · exact nomatch h
    · next q rest =>
      split at h
      · next hquote =>
        obtain ⟨hq, hlast⟩ := hquote
        obtain ⟨inner', rfl⟩ := List.getLast?_eq_some_iff.1 hlast
        rw [List.dropLast_concat] at h
        obtain rfl := Option.some.inj h
        exact ⟨q, hq, rfl⟩
      · exact nomatch h
  · rintro ⟨q, hq, rfl⟩
    exact unquote?_quoted hq inner

theorem infer_of_isQuoted {token : String} {inner : List Char}
    (h : IsQuoted token.toList inner) : infer token = ofQuoted inner := by
  rw [infer, unquote?_eq_some_iff.2 h]

theorem infer_of_not_isQuoted {token : String} (h : ∀ inner, ¬ IsQuoted token.toList inner) :
    infer token = ofBare token.toList := by
  have hnone : unquote? token.toList = none :=
    Option.eq_none_iff_forall_ne_some.2 fun inner hinner => h inner (unquote?_eq_some_iff.1 hinner)
  rw [infer, hnone]

/-! ## Languages -/

/-- The text is a date that exists, and names this instant. -/
def DenotesDate (s : List Char) (t : Instant) : Prop :=
  ∃ d : DateTime, d.Valid ∧ d.Spells s ∧ d.instant = t

/-- The text is a numeral, and its value rounds to this number, which is finite. -/
def DenotesNumber (s : List Char) (x : Binary64) : Prop :=
  ∃ n : Numeral, n.Spells s ∧ n.toBinary64 = x ∧ x.isFinite = true

/-- The word for a truth value. -/
def booleanWord (b : Bool) : String := if b then "true" else "false"

theorem readDate?_eq_some_iff {s : List Char} {t : Instant} :
    readDate? s = some t ↔ DenotesDate s t := by
  simp only [readDate?, Option.map_eq_some_iff, DateTime.readDateTime?_eq_some_iff, DenotesDate,
    and_assoc]

theorem readDate?_eq_none_iff {s : List Char} : readDate? s = none ↔ ¬ DateTime.IsDate s := by
  rw [readDate?, Option.map_eq_none_iff, Option.eq_none_iff_forall_ne_some]
  simp only [ne_eq, DateTime.readDateTime?_eq_some_iff, DateTime.IsDate, not_exists]

theorem readNumber?_eq_some_iff {s : List Char} {x : Binary64} :
    readNumber? s = some x ↔ DenotesNumber s x := by
  unfold readNumber?
  constructor
  · intro h
    split at h
    · next n hn =>
      split at h
      · next hfinite =>
        obtain rfl := Option.some.inj h
        exact ⟨n, Numeral.read?_eq_some_iff.1 hn, rfl, hfinite⟩
      · exact nomatch h
    · exact nomatch h
  · rintro ⟨n, hn, rfl, hfinite⟩
    rw [Numeral.read?_eq_some_iff.2 hn]
    exact if_pos hfinite

theorem readBoolean?_eq_some_iff {s : List Char} {b : Bool} :
    readBoolean? s = some b ↔ s = (booleanWord b).toList := by
  unfold readBoolean?
  by_cases htrue : s = "true".toList
  · subst htrue
    cases b <;> decide
  · by_cases hfalse : s = "false".toList
    · subst hfalse
      cases b <;> decide
    · rw [if_neg htrue, if_neg hfalse]
      cases b
      · exact ⟨nofun, fun h => absurd h hfalse⟩
      · exact ⟨nofun, fun h => absurd h htrue⟩

theorem readNumber?_eq_none_iff {s : List Char} :
    readNumber? s = none ↔ ∀ x, ¬ DenotesNumber s x := by
  simp only [Option.eq_none_iff_forall_ne_some, ne_eq, readNumber?_eq_some_iff]

theorem readBoolean?_eq_none_iff {s : List Char} :
    readBoolean? s = none ↔ ∀ b, s ≠ (booleanWord b).toList := by
  simp only [Option.eq_none_iff_forall_ne_some, ne_eq, readBoolean?_eq_some_iff]

/-! ## Disjointness -/

/-- A date has a dash behind its first character. -/
theorem dash_mem_tail {d : DateTime} {s : List Char} (h : d.Spells s) : '-' ∈ s.tail := by
  cases h with
  | intro _ _ =>
    have hlength := length_fixedDigits 4 d.year
    obtain ⟨c, digits, hdigits⟩ := List.exists_cons_of_length_eq_add_one hlength
    rw [hdigits]
    exact List.mem_append_right digits List.mem_cons_self

/-- A numeral has a dash at most in front. -/
theorem dash_not_mem_tail {n : Numeral} {s : List Char} (h : n.Spells s) : '-' ∉ s.tail := by
  have hdigits : ∀ {digits : List Char}, IsDigits digits → '-' ∉ digits :=
    fun hdigits => not_mem_of_class hdigits.2 rfl
  have htail : ∀ (negative : Bool) {s : List Char}, '-' ∉ s →
      '-' ∉ (Numeral.signText negative ++ s).tail := by
    intro negative s hs
    cases negative with
    | true => exact hs
    | false => exact fun hmem => hs (List.mem_of_mem_tail hmem)
  cases h with
  | whole hwhole => exact htail _ (hdigits hwhole)
  | fraction hwhole hfraction =>
    refine htail _ ?_
    rw [List.mem_append, List.mem_cons]
    rintro (hmem | hmem | hmem)
    · exact hdigits hwhole hmem
    · exact absurd hmem (by decide)
    · exact hdigits hfraction hmem

theorem not_isNumeral_of_isDate {s : List Char} (h : DateTime.IsDate s) :
    ¬ Numeral.IsNumeral s := by
  rintro ⟨n, hn⟩
  obtain ⟨d, -, hd⟩ := h
  exact dash_not_mem_tail hn (dash_mem_tail hd)

theorem not_isDate_booleanWord (b : Bool) : ¬ DateTime.IsDate (booleanWord b).toList := by
  rw [← readDate?_eq_none_iff]
  cases b <;> rfl

theorem not_isNumeral_booleanWord (b : Bool) : ¬ Numeral.IsNumeral (booleanWord b).toList := by
  rintro ⟨n, hn⟩
  have hnone : Numeral.read? (booleanWord b).toList = none := by cases b <;> rfl
  exact nomatch (Numeral.read?_eq_some_iff.2 hn).symm.trans hnone

theorem DenotesNumber.isNumeral {s : List Char} {x : Binary64} (h : DenotesNumber s x) :
    Numeral.IsNumeral s := by
  obtain ⟨n, hn, -⟩ := h
  exact ⟨n, hn⟩

/-! ## Rules -/

/-- The rules for values without quotes: each of them knows one language. -/
def bareRules : List (List Char → Option Literal) :=
  [fun s => (readDate? s).map .date, fun s => (readNumber? s).map .number,
    fun s => (readBoolean? s).map .boolean]

/-- The literal that the first of some rules gives, or a pattern. -/
def firstOf (rules : List (List Char → Option Literal)) (s : List Char) : Literal :=
  (rules.findSome? fun rule => rule s).getD (.pattern (String.ofList s))

theorem ofBare_eq_firstOf (s : List Char) : ofBare s = firstOf bareRules s := by
  unfold ofBare firstOf bareRules
  cases hdate : readDate? s with
  | some t => simp [hdate]
  | none =>
    cases hnumber : readNumber? s with
    | some x => simp [hdate, hnumber]
    | none => cases hboolean : readBoolean? s <;> simp [hdate, hnumber, hboolean]

/-- Whichever rule applies decides, since the languages are disjoint. -/
theorem ofBare_of_rule {rule : List Char → Option Literal} (hrule : rule ∈ bareRules)
    {s : List Char} {l : Literal} (h : rule s = some l) : ofBare s = l := by
  simp only [bareRules, List.mem_cons, List.not_mem_nil, or_false] at hrule
  rcases hrule with rfl | rfl | rfl
  · obtain ⟨t, ht, rfl⟩ := Option.map_eq_some_iff.1 h
    rw [ofBare, ht]
  · obtain ⟨x, hx, rfl⟩ := Option.map_eq_some_iff.1 h
    have hdate : readDate? s = none := readDate?_eq_none_iff.2 fun hdate =>
      not_isNumeral_of_isDate hdate (readNumber?_eq_some_iff.1 hx).isNumeral
    rw [ofBare, hdate, hx]
  · obtain ⟨b, hb, rfl⟩ := Option.map_eq_some_iff.1 h
    obtain rfl := readBoolean?_eq_some_iff.1 hb
    have hdate : readDate? (booleanWord b).toList = none :=
      readDate?_eq_none_iff.2 (not_isDate_booleanWord b)
    have hnumber : readNumber? (booleanWord b).toList = none :=
      readNumber?_eq_none_iff.2 fun x hx => not_isNumeral_booleanWord b hx.isNumeral
    rw [ofBare, hdate, hnumber, hb]

theorem ofBare_eq_iff {s : List Char} {l : Literal} :
    ofBare s = l ↔
      (∃ rule ∈ bareRules, rule s = some l) ∨
        (∀ rule ∈ bareRules, rule s = none) ∧ .pattern (String.ofList s) = l := by
  constructor
  · rintro rfl
    rw [ofBare_eq_firstOf, firstOf]
    cases hfirst : bareRules.findSome? fun rule => rule s with
    | some l => exact .inl (List.exists_of_findSome?_eq_some hfirst)
    | none => exact .inr ⟨List.findSome?_eq_none_iff.1 hfirst, rfl⟩
  · rintro (⟨rule, hrule, hl⟩ | ⟨hnone, rfl⟩)
    · exact ofBare_of_rule hrule hl
    · rw [ofBare_eq_firstOf, firstOf, List.findSome?_eq_none_iff.2 hnone]
      rfl

/-- The order in which the rules are tried does not matter. -/
theorem ofBare_eq_of_perm {rules : List (List Char → Option Literal)}
    (h : rules.Perm bareRules) (s : List Char) : firstOf rules s = ofBare s := by
  rw [firstOf]
  cases hfirst : rules.findSome? fun rule => rule s with
  | some l =>
    obtain ⟨rule, hrule, hl⟩ := List.exists_of_findSome?_eq_some hfirst
    exact (ofBare_of_rule (h.mem_iff.1 hrule) hl).symm
  | none =>
    have hnone := List.findSome?_eq_none_iff.1 hfirst
    exact (ofBare_eq_iff.2 (.inr ⟨fun rule hrule => hnone rule (h.mem_iff.2 hrule), rfl⟩)).symm

/-! ## Classes -/

theorem ofBare_eq_date_iff {s : List Char} {t : Instant} :
    ofBare s = .date t ↔ DenotesDate s t := by
  simp [ofBare_eq_iff, bareRules, readDate?_eq_some_iff]

theorem ofBare_eq_number_iff {s : List Char} {x : Binary64} :
    ofBare s = .number x ↔ DenotesNumber s x := by
  simp [ofBare_eq_iff, bareRules, readNumber?_eq_some_iff]

theorem ofBare_eq_boolean_iff {s : List Char} {b : Bool} :
    ofBare s = .boolean b ↔ s = (booleanWord b).toList := by
  simp [ofBare_eq_iff, bareRules, readBoolean?_eq_some_iff]

theorem no_rule_iff {s : List Char} :
    (∀ rule ∈ bareRules, rule s = none) ↔
      ¬ DateTime.IsDate s ∧ (∀ x, ¬ DenotesNumber s x) ∧ ∀ b, s ≠ (booleanWord b).toList := by
  rw [← readDate?_eq_none_iff, ← readNumber?_eq_none_iff, ← readBoolean?_eq_none_iff]
  simp [bareRules]

/-- No rule gives a pattern. -/
theorem ne_pattern_of_rule {rule : List Char → Option Literal} (hrule : rule ∈ bareRules)
    (s : List Char) (source : String) : rule s ≠ some (.pattern source) := by
  simp only [bareRules, List.mem_cons, List.not_mem_nil, or_false] at hrule
  rcases hrule with rfl | rfl | rfl <;> simp

theorem ofBare_eq_pattern_iff {s : List Char} {source : String} :
    ofBare s = .pattern source ↔
      source.toList = s ∧ ¬ DateTime.IsDate s ∧ (∀ x, ¬ DenotesNumber s x) ∧
        ∀ b, s ≠ (booleanWord b).toList := by
  rw [ofBare_eq_iff, no_rule_iff]
  constructor
  · rintro (⟨rule, hrule, hpattern⟩ | ⟨hnone, hsource⟩)
    · exact absurd hpattern (ne_pattern_of_rule hrule s source)
    · rw [← pattern.inj hsource, String.toList_ofList]
      exact ⟨rfl, hnone⟩
  · rintro ⟨rfl, hnone⟩
    exact .inr ⟨hnone, by rw [String.ofList_toList]⟩

theorem ofQuoted_eq_date_iff {inner : List Char} {t : Instant} :
    ofQuoted inner = .date t ↔ DenotesDate inner t := by
  rw [← readDate?_eq_some_iff, ofQuoted]
  cases readDate? inner <;> simp

theorem ofQuoted_eq_pattern_iff {inner : List Char} {source : String} :
    ofQuoted inner = .pattern source ↔ source.toList = inner ∧ ¬ DateTime.IsDate inner := by
  rw [← readDate?_eq_none_iff, ofQuoted]
  cases readDate? inner with
  | some t => simp
  | none => simp [← String.toList_inj, eq_comm]

theorem isQuoted_quoted (content : String) {q : Char} (hq : q = '\'' ∨ q = '"') {quote : String}
    (hquote : quote.toList = [q]) : IsQuoted (quote ++ content ++ quote).toList content.toList := by
  refine ⟨q, hq, ?_⟩
  rw [String.toList_append, String.toList_append, hquote]
  rfl

/-- **Values fall into classes by their languages.** In quotes, of either kind, a value is the date
that its content denotes, and else the pattern of its content. Without quotes it is the date, the
finite number or the truth value that it denotes, and else the pattern of itself; no text denotes
two of these, so the rules may be tried in any order. -/
theorem infer_classes (token : String) :
    (∀ inner, IsQuoted token.toList inner →
      (∀ t, infer token = .date t ↔ DenotesDate inner t) ∧
      (∀ source, infer token = .pattern source ↔
        source.toList = inner ∧ ¬ DateTime.IsDate inner) ∧
      (∀ x, infer token ≠ .number x) ∧ ∀ b, infer token ≠ .boolean b) ∧
    infer ("'" ++ token ++ "'") = infer ("\"" ++ token ++ "\"") ∧
    ((∀ inner, ¬ IsQuoted token.toList inner) →
      (∀ t, infer token = .date t ↔ DenotesDate token.toList t) ∧
      (∀ x, infer token = .number x ↔ DenotesNumber token.toList x) ∧
      (∀ b, infer token = .boolean b ↔ token = booleanWord b) ∧
      (∀ source, infer token = .pattern source ↔
        source = token ∧ ¬ DateTime.IsDate token.toList ∧
          (∀ x, ¬ DenotesNumber token.toList x) ∧ ∀ b, token ≠ booleanWord b) ∧
      ∀ rules : List (List Char → Option Literal), rules.Perm bareRules →
        infer token = firstOf rules token.toList) ∧
    ¬ (DateTime.IsDate token.toList ∧ Numeral.IsNumeral token.toList) ∧
    ∀ b, token = booleanWord b →
      ¬ DateTime.IsDate token.toList ∧ ¬ Numeral.IsNumeral token.toList := by
  refine ⟨?_, ?_, ?_, ?_, ?_⟩
  · intro inner hquoted
    rw [infer_of_isQuoted hquoted]
    refine ⟨fun t => ofQuoted_eq_date_iff, fun source => ofQuoted_eq_pattern_iff, ?_, ?_⟩
    all_goals
      intro value
      unfold ofQuoted
      split <;> exact nofun
  · rw [infer_of_isQuoted (isQuoted_quoted token (.inl rfl) rfl),
      infer_of_isQuoted (isQuoted_quoted token (.inr rfl) rfl)]
  · intro hbare
    rw [infer_of_not_isQuoted hbare]
    refine ⟨fun t => ofBare_eq_date_iff, fun x => ofBare_eq_number_iff, ?_, ?_, ?_⟩
    · intro b
      rw [ofBare_eq_boolean_iff, String.toList_inj]
    · intro source
      simp only [ofBare_eq_pattern_iff, String.toList_inj, ne_eq]
    · intro rules hrules
      exact (ofBare_eq_of_perm hrules _).symm
  · rintro ⟨hdate, hnumeral⟩
    exact not_isNumeral_of_isDate hdate hnumeral
  · rintro b rfl
    exact ⟨not_isDate_booleanWord b, not_isNumeral_booleanWord b⟩

/-- The theorem at a leap day in quotes, a day that does not exist, and a number in quotes. -/
theorem infer_classes_leap_day :
    infer "'2000-02-29T23:59:59.5Z'" = .date ⟨951868799, 500000000, 0⟩ ∧
    infer "1900-02-29" = .pattern "1900-02-29" ∧
    infer "\"42\"" = .pattern "42" := by
  have hquoted := isQuoted_quoted "2000-02-29T23:59:59.5Z" (.inl rfl) (@rfl _ "'".toList)
  have hdate : DenotesDate "2000-02-29T23:59:59.5Z".toList ⟨951868799, 500000000, 0⟩ :=
    readDate?_eq_some_iff.1 (by decide +kernel)
  have hnumber := isQuoted_quoted "42" (.inr rfl) (@rfl _ "\"".toList)
  have hnone : ¬ DateTime.IsDate "42".toList := readDate?_eq_none_iff.1 (by decide)
  have hbare : ∀ inner, ¬ IsQuoted "1900-02-29".toList inner := by
    intro inner hinner
    exact nomatch unquote?_eq_some_iff.2 hinner
  have hday : readDate? "1900-02-29".toList = none := by decide
  have hnumeral : readNumber? "1900-02-29".toList = none := by decide
  have hboolean : readBoolean? "1900-02-29".toList = none := by decide
  refine ⟨((infer_classes _).1 _ hquoted).1 _ |>.2 hdate, ?_,
    ((infer_classes _).1 _ hnumber).2.1 "42" |>.2 ⟨rfl, hnone⟩⟩
  refine (((infer_classes _).2.2.1 hbare).2.2.2.1 _).2 ⟨rfl, readDate?_eq_none_iff.1 hday,
    readNumber?_eq_none_iff.1 hnumeral, ?_⟩
  intro b hb
  exact readBoolean?_eq_none_iff.1 hboolean b (congrArg String.toList hb)

end Criteria.Literal
