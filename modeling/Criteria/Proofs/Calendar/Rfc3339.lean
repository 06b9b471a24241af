import Criteria.Proofs.Calendar.Language
import Criteria.Proofs.Calendar.Order

/-!
# Dates that are written

`exists_rfc3339_iff` says which instants have a text by the year on their clock, and the instants of
valid dates are among them (`Plain.exists_rfc3339`). The text of an instant of a valid date is in
the language of dates, and names that date (`Valid.exists_spells_rfc3339`).
-/

namespace Criteria

/-! ## Instants with a text

The year that `yearOf` finds holds the day (`daysBeforeYear_yearOf_le`,
`lt_daysBeforeYear_yearOf`). -/

namespace Calendar

theorem daysBeforeYear_yearUpTo_le (bound day : Nat) :
    daysBeforeYear (yearUpTo bound day) ≤ day := by
  induction bound with
  | zero =>
    rw [yearUpTo]
    exact Nat.zero_le day
  | succ bound ih =>
    rw [yearUpTo]
    split
    · assumption
    · exact ih

theorem lt_daysBeforeYear_yearUpTo {bound day : Nat} (h : day < daysBeforeYear (bound + 1)) :
    day < daysBeforeYear (yearUpTo bound day + 1) := by
  induction bound with
  | zero => exact h
  | succ bound ih =>
    rw [yearUpTo]
    split
    · exact h
    · next hlater => exact ih (Nat.lt_of_not_le hlater)

theorem daysBeforeYear_yearOf_le (day : Nat) : daysBeforeYear (yearOf day) ≤ day :=
  daysBeforeYear_yearUpTo_le _ day

theorem lt_daysBeforeYear_yearOf (day : Nat) : day < daysBeforeYear (yearOf day + 1) := by
  -- the search starts from a year that is late enough
  refine lt_daysBeforeYear_yearUpTo (Nat.lt_of_lt_of_le ?_ (le_daysBeforeYear _))
  omega

theorem yearOf_le_iff {year day : Nat} : yearOf day ≤ year ↔ day < daysBeforeYear (year + 1) := by
  have hstart := daysBeforeYear_yearOf_le day
  constructor
  · intro h
    exact Nat.lt_of_lt_of_le (lt_daysBeforeYear_yearOf day)
      (daysBeforeYear_le (Nat.succ_le_succ h))
  · intro h
    refine Nat.le_of_not_lt fun hlater => ?_
    have hle := daysBeforeYear_le (Nat.succ_le_of_lt hlater)
    exact Nat.lt_irrefl _ (Nat.lt_of_lt_of_le h (Nat.le_trans hle hstart))

end Calendar

namespace Instant

/-- An instant has a text exactly when its year has four digits and its offset is less than a day
and a whole number of minutes. -/
theorem exists_rfc3339_iff {t : Instant} :
    (∃ s, t.rfc3339 = .ok s) ↔
      0 ≤ t.localDay ∧ Calendar.yearOf t.localDay.toNat ≤ 9999 ∧
        t.offset.natAbs < 86400 ∧ t.offset.natAbs % 60 = 0 := by
  have hyear : Calendar.yearOf t.localDay.toNat ≤ 9999 ↔
      t.localDay.toNat < Calendar.daysBeforeYear 10000 := Calendar.yearOf_le_iff
  rw [hyear, rfc3339]
  constructor
  · rintro ⟨s, h⟩
    split at h
    · exact nomatch h
    · split at h
      · exact nomatch h
      · split at h
        · exact nomatch h
        · omega
  · rintro ⟨hday, hlast, hhour, hsecond⟩
    rw [if_neg (by omega), if_neg (by omega), if_neg (by omega)]
    exact ⟨_, rfl⟩

theorem Plain.exists_rfc3339 {t : Instant} (h : t.Plain) : ∃ s, t.rfc3339 = .ok s :=
  exists_rfc3339_iff.2 ⟨h.day_nonneg, h.year_le, by rw [h.offset_eq]; decide,
    by rw [h.offset_eq]; rfl⟩

end Instant

/-! ## The texts of instants

The calendar of `rfc3339` undoes that of `DateTime.instant`: from the day number of a valid date it
finds the year, the month and the day again (`Valid.dateText_dayNumber`). A fraction in whole
milliseconds is written with at most three digits (`isFraction_fractionText`). -/

open Text

namespace Calendar

/-- The search from a bound down finds the month that a day of the year lies in. -/
theorem monthUpTo_eq {year bound month day : Nat} (hpos : 1 ≤ month) (hbound : month ≤ bound)
    (hstart : daysBeforeMonth year month ≤ day) (hend : day < daysBeforeMonth year (month + 1)) :
    monthUpTo year bound day = month := by
  induction bound with
  | zero => exact absurd (Nat.le_trans hpos hbound) (by decide)
  | succ bound ih =>
    rw [monthUpTo]
    by_cases heq : month = bound + 1
    · rw [if_pos (heq ▸ hstart), heq]
    · have hle := daysBeforeMonth_le year (show month + 1 ≤ bound + 1 by omega)
      rw [if_neg (by omega)]
      exact ih (by omega)

end Calendar

/-! ### Fractions -/

/-- Only zeros are taken off the end of a text. -/
theorem Text.exists_append_zeros (s : List Char) :
    ∃ count, s = (s.reverse.dropWhile (· == '0')).reverse ++ List.replicate count '0' := by
  have hzeros : ∀ c ∈ s.reverse.takeWhile (· == '0'), c = '0' :=
    fun c hc => beq_iff_eq.1 (List.all_eq_true.1 List.all_takeWhile c hc)
  refine ⟨(s.reverse.takeWhile (· == '0')).length, ?_⟩
  calc s
    _ = (s.reverse.takeWhile (· == '0') ++ s.reverse.dropWhile (· == '0')).reverse := by
      rw [List.takeWhile_append_dropWhile, List.reverse_reverse]
    _ = (s.reverse.dropWhile (· == '0')).reverse ++
        (List.replicate (s.reverse.takeWhile (· == '0')).length '0').reverse := by
      rw [List.reverse_append, ← List.eq_replicate_of_mem hzeros]
    _ = _ := by rw [List.reverse_replicate]

/-- Whole milliseconds are written with one to three digits, or not at all. -/
theorem DateTime.isFraction_fractionText {milli : Nat} (h : milli ≤ 999) :
    IsFraction milli (Instant.fractionText (1000000 * milli)) := by
  unfold Instant.fractionText
  by_cases hzero : milli = 0
  · subst hzero
    exact .absent
  · have hnine : fixedDigits 9 (1000000 * milli) =
        fixedDigits 3 milli ++ List.replicate 6 '0' := by
      rw [Nat.mul_comm]
      exact fixedDigits_mul_pow 3 milli 6
    have hdrop : (fixedDigits 9 (1000000 * milli)).reverse.dropWhile (· == '0') =
        (fixedDigits 3 milli).reverse.dropWhile (· == '0') := by
      rw [hnine, List.reverse_append, List.reverse_replicate]
      exact List.dropWhile_append_of_pos fun c hc => beq_iff_eq.2 (List.eq_of_mem_replicate hc)
    have hvalue : decimalValue (fixedDigits 3 milli) = milli :=
      decimalValue_fixedDigits (Nat.lt_succ_of_le h)
    have hlength := length_fixedDigits 3 milli
    have hall := all_isDigit_fixedDigits 3 milli
    obtain ⟨count, hdigits⟩ := exists_append_zeros (fixedDigits 3 milli)
    rw [if_neg (by omega), hdrop]
    generalize ((fixedDigits 3 milli).reverse.dropWhile (· == '0')).reverse = digits at hdigits ⊢
    rw [hdigits] at hvalue hlength hall
    rw [List.length_append, List.length_replicate] at hlength
    rw [List.all_append, Bool.and_eq_true] at hall
    have hne : digits ≠ [] := by
      rintro rfl
      rw [decimalValue_append_zeros, decimalValue_nil, Nat.zero_mul] at hvalue
      exact hzero hvalue.symm
    obtain rfl : count = 3 - digits.length := by omega
    have hfraction := IsFraction.digits hne (by omega) hall.1
    rwa [hvalue] at hfraction

/-! ### Dates and times of day -/

namespace DateTime

open Calendar

theorem Valid.monthOf_eq {d : DateTime} (h : d.Valid) :
    monthOf d.year (daysBeforeMonth d.year d.month + (d.day - 1)) = d.month := by
  have hnext := daysBeforeMonth_succ d.year h.month_pos
  have hday := h.day_le
  have hpos := h.day_pos
  exact monthUpTo_eq h.month_pos h.month_le (Nat.le_add_right _ _) (by omega)

theorem Valid.dateText_dayNumber {d : DateTime} (h : d.Valid) :
    Instant.dateText d.dayNumber =
      fixedDigits 4 d.year ++ '-' :: fixedDigits 2 d.month ++ '-' :: fixedDigits 2 d.day := by
  have hyear : d.dayNumber - daysBeforeYear d.year =
      daysBeforeMonth d.year d.month + (d.day - 1) := by
    unfold dayNumber
    omega
  have hday : daysBeforeMonth d.year d.month + (d.day - 1) - daysBeforeMonth d.year d.month + 1 =
      d.day := by
    have hpos := h.day_pos
    omega
  rw [Instant.dateText]
  simp only [h.yearOf_dayNumber, hyear, h.monthOf_eq, hday]

theorem Valid.timeText_secondOfDay {d : DateTime} (h : d.Valid) :
    Instant.timeText d.secondOfDay =
      fixedDigits 2 d.hour ++ ':' :: fixedDigits 2 d.minute ++ ':' :: fixedDigits 2 d.second := by
  have hminute := h.minute_le
  have hsecond := h.second_le
  have hhour : d.secondOfDay / 3600 = d.hour := by
    unfold secondOfDay
    omega
  have hminutes : d.secondOfDay / 60 % 60 = d.minute := by
    unfold secondOfDay
    omega
  have hseconds : d.secondOfDay % 60 = d.second := by
    unfold secondOfDay
    omega
  rw [Instant.timeText, hhour, hminutes, hseconds]

theorem Valid.localSecond_instant {d : DateTime} (h : d.Valid) :
    d.instant.localSecond = d.secondOfDay := by
  have hsecond := h.secondOfDay_lt
  unfold Instant.localSecond instant
  dsimp only
  omega

end DateTime

/-! ### Instants -/

/-- The text of an instant that has one. -/
theorem Instant.toList_of_rfc3339 {t : Instant} {s : String} (h : t.rfc3339 = .ok s) :
    s.toList = dateText t.localDay.toNat ++ 'T' :: timeText t.localSecond ++
      fractionText t.nanos ++ offsetText t.offset := by
  unfold rfc3339 at h
  split at h
  · exact nomatch h
  · split at h
    · exact nomatch h
    · split at h
      · exact nomatch h
      · rw [← Except.ok.inj h, String.toList_ofList]

/-- The instant of a valid date has a text, and it names that date. -/
theorem DateTime.Valid.exists_spells_rfc3339 {d : DateTime} (h : d.Valid) :
    ∃ s, d.instant.rfc3339 = .ok s ∧ d.Spells s.toList := by
  obtain ⟨s, hs⟩ := h.plain_instant.exists_rfc3339
  refine ⟨s, hs, ?_⟩
  have hzone : Instant.offsetText d.instant.offset = ['Z'] := rfl
  have hnanos : d.instant.nanos = 1000000 * d.milli := rfl
  have hmark : ['Z'] = [] ∨ ['Z'] = ['Z'] := .inr rfl
  have hspells := Spells.intro (.clock (d := d) (isFraction_fractionText h.milli_le)) hmark
  rw [Instant.toList_of_rfc3339 hs, h.localDay_instant, Int.toNat_natCast, h.dateText_dayNumber,
    h.localSecond_instant, h.timeText_secondOfDay, hzone, hnanos]
  simpa using hspells

end Criteria
