import Criteria.Document.Query
import Criteria.Proofs.Calendar.Rfc3339
import Criteria.Proofs.Literal.Classes

/-!
# Values that are dates

Values that are dates name their components in or without quotes (`Names`), and each of them names
one date only. Main statements: the instants of two such values are ordered as the components are
that their texts name (`date_order`), and the text under `$date` is inferred as the same instant
again (`infer_writesDate`).
-/

namespace Criteria.Literal

/-! ## The order of date values -/

/-- The text of a value, or its content where it is in quotes, is that of a date that exists. -/
def Names (token : String) (d : DateTime) : Prop :=
  d.Valid ∧ (d.Spells token.toList ∨ ∃ inner, IsQuoted token.toList inner ∧ d.Spells inner)

/-- A date begins with a digit, and so with no quote. -/
theorem not_isQuoted_of_spells {d : DateTime} {s inner : List Char} (h : d.Spells s) :
    ¬ IsQuoted s inner := by
  rintro ⟨q, hq, hs⟩
  cases h with
  | intro _ _ =>
    have hall := Text.all_isDigit_fixedDigits 4 d.year
    obtain ⟨c, digits, hdigits⟩ :=
      List.exists_cons_of_length_eq_add_one (Text.length_fixedDigits 4 d.year)
    rw [hdigits, List.cons_append] at hs
    rw [hdigits, List.all_cons, Bool.and_eq_true] at hall
    obtain rfl : c = q := (List.cons.inj hs).1
    rcases hq with rfl | rfl <;> exact absurd hall.1 (by decide)

/-- A value is inferred as a date exactly when it names one, and then at that date's instant. -/
theorem infer_eq_date_iff {token : String} {t : Instant} :
    infer token = .date t ↔ ∃ d : DateTime, Names token d ∧ d.instant = t := by
  by_cases hquoted : ∃ inner, IsQuoted token.toList inner
  · obtain ⟨inner, hinner⟩ := hquoted
    rw [infer_of_isQuoted hinner, ofQuoted_eq_date_iff]
    constructor
    · rintro ⟨d, hvalid, hd, rfl⟩
      exact ⟨d, ⟨hvalid, .inr ⟨inner, hinner, hd⟩⟩, rfl⟩
    · rintro ⟨d, ⟨hvalid, hd | ⟨inner', hinner', hd⟩⟩, rfl⟩
      · exact absurd hinner (not_isQuoted_of_spells hd)
      · -- the content of a value in quotes is determined
        have hsame := (unquote?_eq_some_iff.2 hinner).symm.trans (unquote?_eq_some_iff.2 hinner')
        obtain rfl := Option.some.inj hsame
        exact ⟨d, hvalid, hd, rfl⟩
  · have hbare : ∀ inner, ¬ IsQuoted token.toList inner := not_exists.1 hquoted
    rw [infer_of_not_isQuoted hbare, ofBare_eq_date_iff]
    constructor
    · rintro ⟨d, hvalid, hd, rfl⟩
      exact ⟨d, ⟨hvalid, .inl hd⟩, rfl⟩
    · rintro ⟨d, ⟨hvalid, hd | ⟨inner, hinner, -⟩⟩, rfl⟩
      · exact ⟨d, hvalid, hd, rfl⟩
      · exact absurd hinner (hbare inner)

/-- A value that is a date is at the instant of every date that it names. -/
theorem Names.instant_eq {token : String} {t : Instant} {d : DateTime} (h : Names token d)
    (ht : infer token = .date t) : d.instant = t := by
  have hd := infer_eq_date_iff.2 ⟨d, h, rfl⟩
  exact date.inj (hd.symm.trans ht)

/-- **Date values are ordered as they are written.** Two values that are inferred as dates, with or
without quotes, a time of day, a fraction or a `Z`, name dates, and the instant of the first is
before, at or after that of the second exactly as the components of the first, from the year to the
millisecond, are lexicographically less than, equal to or greater than those of the second. -/
theorem date_order {a b : String} {t u : Instant} (ha : infer a = .date t)
    (hb : infer b = .date u) :
    (∃ d, Names a d) ∧ (∃ e, Names b e) ∧
    ∀ d e, Names a d → Names b e →
      (t.Before u ↔ d.components < e.components) ∧
      ((t.seconds = u.seconds ∧ t.nanos = u.nanos) ↔ d.components = e.components) ∧
      (u.Before t ↔ e.components < d.components) := by
  obtain ⟨d, hd, -⟩ := infer_eq_date_iff.1 ha
  obtain ⟨e, he, -⟩ := infer_eq_date_iff.1 hb
  refine ⟨⟨d, hd⟩, ⟨e, he⟩, ?_⟩
  intro d e hd he
  obtain rfl := hd.instant_eq ha
  obtain rfl := he.instant_eq hb
  exact ⟨hd.1.before_iff he.1, hd.1.instant_eq_iff he.1, he.1.before_iff hd.1⟩

/-- The theorem at the last second of a day in year 0, and the midnight behind it in quotes. -/
theorem date_order_around_midnight :
    ∃ (a b : String) (t u : Instant) (d e : DateTime),
      a = "0000-02-29T23:59:59.09" ∧ b = "'0000-03-01Z'" ∧
      infer a = .date t ∧ infer b = .date u ∧ Names a d ∧ Names b e ∧
      d.components = [0, 2, 29, 23, 59, 59, 90] ∧ e.components = [0, 3, 1, 0, 0, 0, 0] ∧
      t.Before u := by
  have hd : DateTime.readDateTime? "0000-02-29T23:59:59.09".toList =
      some ⟨0, 2, 29, 23, 59, 59, 90⟩ := by decide +kernel
  have he : DateTime.readDateTime? "0000-03-01Z".toList = some ⟨0, 3, 1, 0, 0, 0, 0⟩ := by
    decide +kernel
  obtain ⟨hdvalid, hd⟩ := DateTime.readDateTime?_eq_some_iff.1 hd
  obtain ⟨hevalid, he⟩ := DateTime.readDateTime?_eq_some_iff.1 he
  have ha : Names "0000-02-29T23:59:59.09" _ := ⟨hdvalid, .inl hd⟩
  have hb : Names "'0000-03-01Z'" _ :=
    ⟨hevalid, .inr ⟨_, isQuoted_quoted "0000-03-01Z" (.inl rfl) (@rfl _ "'".toList), he⟩⟩
  have hinfer := infer_eq_date_iff.2 ⟨_, ha, rfl⟩
  have hinfer' := infer_eq_date_iff.2 ⟨_, hb, rfl⟩
  have horder := (date_order hinfer hinfer').2.2 _ _ ha hb
  exact ⟨_, _, _, _, _, _, rfl, rfl, hinfer, hinfer', ha, hb, rfl, rfl, horder.1.2 (by decide)⟩

/-! ## Date values that are written

A value that is a date is written as an object with a text under `$date`. Two dates are written
alike exactly when they are the same instant. -/

/-- What a value denotes is written as an object with this text under `$date`. -/
def WritesDate (token text : String) : Prop :=
  (Native.ofLiteral (infer token)).toDatum = .ok (.object [("$date", .text text)])

variable {token text : String} {t : Instant}

theorem writesDate_iff (h : infer token = .date t) :
    WritesDate token text ↔ t.rfc3339 = .ok text := by
  rw [WritesDate, h, Native.ofLiteral, Native.toDatum]
  cases t.rfc3339 <;> simp [Except.map]

/-- The instant of a date value has a text, and it is that of a date at this instant. -/
theorem exists_rfc3339_of_infer (h : infer token = .date t) :
    ∃ (d : DateTime) (text : String),
      d.Valid ∧ d.instant = t ∧ t.rfc3339 = .ok text ∧ d.Spells text.toList := by
  obtain ⟨d, ⟨hvalid, -⟩, rfl⟩ := infer_eq_date_iff.1 h
  obtain ⟨text, htext, hspells⟩ := hvalid.exists_spells_rfc3339
  exact ⟨d, text, hvalid, rfl, htext, hspells⟩

/-- The text of the instant of a date value names a date at that instant, in quotes too. -/
theorem infer_of_rfc3339 (h : infer token = .date t) (htext : t.rfc3339 = .ok text) :
    infer text = .date t ∧
      ∀ {q : Char} {quote : String}, q = '\'' ∨ q = '"' → quote.toList = [q] →
        infer (quote ++ text ++ quote) = .date t := by
  obtain ⟨d, text', hvalid, hd, htext', hspells⟩ := exists_rfc3339_of_infer h
  obtain rfl := Except.ok.inj (htext'.symm.trans htext)
  refine ⟨infer_eq_date_iff.2 ⟨d, ⟨hvalid, .inl hspells⟩, hd⟩, ?_⟩
  intro q quote hq hquote
  have hquoted := isQuoted_quoted text' hq hquote
  exact infer_eq_date_iff.2 ⟨d, ⟨hvalid, .inr ⟨_, hquoted, hspells⟩⟩, hd⟩

theorem offset_eq_zero_of_infer (h : infer token = .date t) : t.offset = 0 := by
  obtain ⟨d, -, rfl⟩ := infer_eq_date_iff.1 h
  rfl

/-- Date values are all shown in universal time, so they differ in the point of time only. -/
theorem instant_eq_iff_of_infer {token' : String} {u : Instant} (ht : infer token = .date t)
    (hu : infer token' = .date u) : u = t ↔ u.seconds = t.seconds ∧ u.nanos = t.nanos := by
  have htoffset := offset_eq_zero_of_infer ht
  have huoffset := offset_eq_zero_of_infer hu
  cases t
  cases u
  simp_all

/-- **Dates are written to be read.** A value that is inferred as a date is written with a text that
is inferred as the same instant at the same offset, as it stands and in quotes of either kind; and
another date value is written with that text exactly when it is the same instant. -/
theorem infer_writesDate (h : infer token = .date t) :
    ∃ text, WritesDate token text ∧
      infer text = .date t ∧ infer ("'" ++ text ++ "'") = .date t ∧
      infer ("\"" ++ text ++ "\"") = .date t ∧
      ∀ (token' : String) (u : Instant), infer token' = .date u →
        (WritesDate token' text ↔ u.seconds = t.seconds ∧ u.nanos = t.nanos) := by
  obtain ⟨-, text, -, -, htext, -⟩ := exists_rfc3339_of_infer h
  obtain ⟨hbare, hquoted⟩ := infer_of_rfc3339 h htext
  refine ⟨text, (writesDate_iff h).2 htext, hbare, hquoted (.inl rfl) rfl, hquoted (.inr rfl) rfl,
    ?_⟩
  intro token' u hu
  rw [writesDate_iff hu, ← instant_eq_iff_of_infer h hu]
  constructor
  · intro htext'
    -- the common text is inferred as either instant
    exact date.inj ((infer_of_rfc3339 hu htext').1.symm.trans hbare)
  · rintro rfl
    exact htext

/-- The theorem at the last second of a leap day in year 0, whose fraction loses a zero; with the
zero and in quotes it is written alike. -/
theorem infer_writesDate_leap_day :
    ∃ t : Instant,
      infer "0000-02-29T23:59:59.090" = .date t ∧ t.seconds < 0 ∧
      WritesDate "0000-02-29T23:59:59.090" "0000-02-29T23:59:59.09Z" ∧
      infer "0000-02-29T23:59:59.09Z" = .date t ∧
      WritesDate "'0000-02-29T23:59:59.09Z'" "0000-02-29T23:59:59.09Z" := by
  have hread : DateTime.readDateTime? "0000-02-29T23:59:59.090".toList =
      some ⟨0, 2, 29, 23, 59, 59, 90⟩ := by decide +kernel
  obtain ⟨hvalid, hspells⟩ := DateTime.readDateTime?_eq_some_iff.1 hread
  have hinfer : infer "0000-02-29T23:59:59.090" = .date _ :=
    infer_eq_date_iff.2 ⟨_, ⟨hvalid, .inl hspells⟩, rfl⟩
  have hrfc : (DateTime.instant ⟨0, 2, 29, 23, 59, 59, 90⟩).rfc3339 =
      .ok "0000-02-29T23:59:59.09Z" := by decide +kernel
  obtain ⟨text, hwrites, hbare, hsingle, -, hsame⟩ := infer_writesDate hinfer
  obtain rfl := Except.ok.inj (((writesDate_iff hinfer).1 hwrites).symm.trans hrfc)
  exact ⟨_, hinfer, by decide, hwrites, hbare, (hsame _ _ hsingle).2 ⟨rfl, rfl⟩⟩

end Criteria.Literal
