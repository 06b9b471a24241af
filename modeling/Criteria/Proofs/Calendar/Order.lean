import Criteria.Calendar
import Mathlib.Data.List.Lex

/-!
# Days, years and the order of instants

A valid date lies between the start of its year and the start of the next (`dayNumber_lt`), so the
year that holds its day is its own (`yearOf_dayNumber`). `Instant.Plain` says what is common to the
instants of valid dates (`DateTime.Valid.plain_instant`). Main statements (`Valid.before_iff`,
`Valid.instant_eq_iff`): dates that exist are ordered as their components are.
-/

namespace Criteria

/-! ## Days and years -/

namespace Calendar

theorem isLeap_eq_true_iff (year : Nat) :
    isLeap year = true ↔ year % 4 = 0 ∧ (year % 100 ≠ 0 ∨ year % 400 = 0) := by
  simp [isLeap]

theorem daysBeforeYear_succ (year : Nat) :
    daysBeforeYear (year + 1) = daysBeforeYear year + if isLeap year then 366 else 365 := by
  -- each of the three counts goes up by one behind a multiple
  have h4 : (year + 1 + 3) / 4 = (year + 3) / 4 + if year % 4 = 0 then 1 else 0 := by
    split <;> omega
  have h100 : (year + 1 + 99) / 100 = (year + 99) / 100 + if year % 100 = 0 then 1 else 0 := by
    split <;> omega
  have h400 : (year + 1 + 399) / 400 = (year + 399) / 400 + if year % 400 = 0 then 1 else 0 := by
    split <;> omega
  have hleap : (if isLeap year then 366 else 365) + (if year % 100 = 0 then 1 else 0) =
      365 + (if year % 4 = 0 then 1 else 0) + (if year % 400 = 0 then 1 else 0) := by
    simp only [isLeap_eq_true_iff]
    grind
  have hle : (year + 99) / 100 ≤ (year + 3) / 4 := by omega
  have hle' : (if year % 100 = 0 then 1 else 0) ≤ if year % 4 = 0 then 1 else 0 := by grind
  unfold daysBeforeYear
  rw [h4, h100, h400]
  generalize (if isLeap year then 366 else 365) = days at hleap ⊢
  generalize (if year % 4 = 0 then 1 else 0) = four at hleap hle' ⊢
  generalize (if year % 100 = 0 then 1 else 0) = hundred at hleap hle' ⊢
  generalize (if year % 400 = 0 then 1 else 0) = fourHundred at hleap ⊢
  generalize (year + 3) / 4 = fours, (year + 99) / 100 = hundreds at hle ⊢
  omega

theorem daysBeforeYear_le {year year' : Nat} (h : year ≤ year') :
    daysBeforeYear year ≤ daysBeforeYear year' := by
  induction h with
  | refl => exact Nat.le_refl _
  | step _ ih =>
    rw [Nat.succ_eq_add_one, daysBeforeYear_succ]
    exact Nat.le_trans ih (Nat.le_add_right _ _)

theorem le_daysBeforeYear (year : Nat) : 365 * year ≤ daysBeforeYear year := by
  unfold daysBeforeYear
  omega

theorem daysBeforeMonth_succ (year : Nat) {month : Nat} (h : 1 ≤ month) :
    daysBeforeMonth year (month + 1) = daysBeforeMonth year month + daysInMonth year month := by
  cases month with
  | zero => exact absurd h (by decide)
  | succ month => rfl

theorem daysBeforeMonth_le (year : Nat) {month month' : Nat} (h : month ≤ month') :
    daysBeforeMonth year month ≤ daysBeforeMonth year month' := by
  induction h with
  | refl => exact Nat.le_refl _
  | @step n _ ih =>
    cases n with
    | zero => exact ih
    | succ n =>
      rw [Nat.succ_eq_add_one, daysBeforeMonth_succ year (Nat.succ_pos n)]
      exact Nat.le_trans ih (Nat.le_add_right _ _)

/-- Twelve months make a year. -/
theorem daysBeforeMonth_thirteen (year : Nat) :
    daysBeforeMonth year 13 = if isLeap year then 366 else 365 := by
  simp only [daysBeforeMonth, daysInMonth]
  split <;> rfl

/-- The search from a bound down finds the year that a day lies in. -/
theorem yearUpTo_eq {bound year day : Nat} (hbound : year ≤ bound)
    (hstart : daysBeforeYear year ≤ day) (hend : day < daysBeforeYear (year + 1)) :
    yearUpTo bound day = year := by
  induction bound with
  | zero => exact (Nat.le_zero.1 hbound).symm
  | succ bound ih =>
    rw [yearUpTo]
    by_cases heq : year = bound + 1
    · rw [if_pos (heq ▸ hstart), heq]
    · have hle := daysBeforeYear_le (show year + 1 ≤ bound + 1 by omega)
      rw [if_neg (by omega)]
      exact ih (by omega)

theorem yearOf_eq {year day : Nat} (hstart : daysBeforeYear year ≤ day)
    (hend : day < daysBeforeYear (year + 1)) : yearOf day = year := by
  have hyear := le_daysBeforeYear year
  exact yearUpTo_eq (by omega) hstart hend

end Calendar

namespace DateTime

open Calendar

theorem le_dayNumber (d : DateTime) : daysBeforeYear d.year ≤ d.dayNumber := by
  unfold dayNumber
  omega

/-- A valid date is over before the next year. -/
theorem Valid.dayNumber_lt {d : DateTime} (h : d.Valid) :
    d.dayNumber < daysBeforeYear (d.year + 1) := by
  have hmonth := daysBeforeMonth_succ d.year h.month_pos
  have hlast := daysBeforeMonth_le d.year (show d.month + 1 ≤ 13 by have := h.month_le; omega)
  have hday := h.day_le
  have hpos := h.day_pos
  rw [daysBeforeMonth_thirteen] at hlast
  rw [daysBeforeYear_succ, dayNumber]
  omega

theorem Valid.yearOf_dayNumber {d : DateTime} (h : d.Valid) : yearOf d.dayNumber = d.year :=
  yearOf_eq d.le_dayNumber h.dayNumber_lt

theorem Valid.secondOfDay_lt {d : DateTime} (h : d.Valid) : d.secondOfDay < 86400 := by
  have hhour := h.hour_le
  have hminute := h.minute_le
  have hsecond := h.second_le
  unfold secondOfDay
  omega

theorem Valid.localDay_instant {d : DateTime} (h : d.Valid) :
    d.instant.localDay = d.dayNumber := by
  have hsecond := h.secondOfDay_lt
  unfold Instant.localDay instant
  dsimp only
  omega

end DateTime

/-- Shown in universal time, in a year from 0 to 9999, and at a whole millisecond. -/
structure Instant.Plain (t : Instant) : Prop where
  offset_eq : t.offset = 0
  day_nonneg : 0 ≤ t.localDay
  year_le : Calendar.yearOf t.localDay.toNat ≤ 9999
  nanos_lt : t.nanos < 1000000000
  millis : t.nanos % 1000000 = 0

theorem DateTime.Valid.plain_instant {d : DateTime} (h : d.Valid) : d.instant.Plain where
  offset_eq := rfl
  day_nonneg := by
    rw [h.localDay_instant]
    exact Int.natCast_nonneg d.dayNumber
  year_le := by
    rw [h.localDay_instant, Int.toNat_natCast, h.yearOf_dayNumber]
    exact h.year_le
  nanos_lt := by
    have hmilli := h.milli_le
    show 1000000 * d.milli < 1000000000
    omega
  millis := Nat.mul_mod_right 1000000 d.milli

/-! ## The order of dates

The components are compared from the year down to the millisecond. The calendar makes days of a year
and a month, and a day holds the time of day, so a difference at one component is never made up for
by those below it. -/

/-- One instant is before another: by its seconds, or by its nanoseconds in the same second. -/
def Instant.Before (t u : Instant) : Prop :=
  t.seconds < u.seconds ∨ (t.seconds = u.seconds ∧ t.nanos < u.nanos)

theorem Instant.Before.asymm {t u : Instant} (h : t.Before u) : ¬ u.Before t := by
  unfold Before at *
  omega

theorem Instant.Before.ne {t u : Instant} (h : t.Before u) :
    ¬ (t.seconds = u.seconds ∧ t.nanos = u.nanos) := by
  unfold Before at h
  omega

namespace DateTime

open Calendar

/-- The components of a date, the greatest unit first. Lists of them are compared
lexicographically. -/
def components (d : DateTime) : List Nat :=
  [d.year, d.month, d.day, d.hour, d.minute, d.second, d.milli]

theorem components_inj {d e : DateTime} : d.components = e.components ↔ d = e := by
  cases d
  cases e
  simp [components]

variable {d e : DateTime}

/-! ### Days -/

theorem Valid.dayNumber_lt_of_year_lt (hd : d.Valid) (h : d.year < e.year) :
    d.dayNumber < e.dayNumber :=
  calc d.dayNumber
    _ < daysBeforeYear (d.year + 1) := hd.dayNumber_lt
    _ ≤ daysBeforeYear e.year := daysBeforeYear_le h
    _ ≤ e.dayNumber := e.le_dayNumber

theorem Valid.dayNumber_lt_of_month_lt (hd : d.Valid) (hyear : d.year = e.year)
    (h : d.month < e.month) : d.dayNumber < e.dayNumber := by
  -- the last day of the month comes before the first of the next
  have hnext := daysBeforeMonth_le d.year h
  have hday := hd.day_le
  have hpos := hd.day_pos
  rw [Nat.succ_eq_add_one, daysBeforeMonth_succ d.year hd.month_pos] at hnext
  rw [dayNumber, dayNumber, ← hyear]
  omega

theorem Valid.dayNumber_lt_of_day_lt (hd : d.Valid) (hyear : d.year = e.year)
    (hmonth : d.month = e.month) (h : d.day < e.day) : d.dayNumber < e.dayNumber := by
  have hpos := hd.day_pos
  rw [dayNumber, dayNumber, ← hyear, ← hmonth]
  omega

theorem dayNumber_eq (hyear : d.year = e.year) (hmonth : d.month = e.month)
    (hday : d.day = e.day) : d.dayNumber = e.dayNumber := by
  rw [dayNumber, dayNumber, hyear, hmonth, hday]

/-! ### Instants -/

theorem Valid.before_of_dayNumber_lt (hd : d.Valid) (h : d.dayNumber < e.dayNumber) :
    d.instant.Before e.instant := by
  have hsecond := hd.secondOfDay_lt
  unfold Instant.Before instant
  dsimp only
  omega

/-- On the same day the time of day decides. -/
theorem before_of_secondOfDay_lt (hday : d.dayNumber = e.dayNumber)
    (h : d.secondOfDay < e.secondOfDay) : d.instant.Before e.instant := by
  unfold Instant.Before instant
  dsimp only
  omega

theorem before_of_milli_lt (hday : d.dayNumber = e.dayNumber)
    (hsecond : d.secondOfDay = e.secondOfDay) (h : d.milli < e.milli) :
    d.instant.Before e.instant := by
  unfold Instant.Before instant
  dsimp only
  omega

/-- A lesser component puts a date before another, whatever the components below it are. -/
theorem Valid.before_of_components_lt (hd : d.Valid) (h : d.components < e.components) :
    d.instant.Before e.instant := by
  simp only [components, List.cons_lt_cons_iff, List.not_lt_nil, and_false, or_false] at h
  have hminute := hd.minute_le
  have hsecond := hd.second_le
  rcases h with hyear | ⟨hyear, hmonth | ⟨hmonth, hday | ⟨hday, htime⟩⟩⟩
  · exact hd.before_of_dayNumber_lt (hd.dayNumber_lt_of_year_lt hyear)
  · exact hd.before_of_dayNumber_lt (hd.dayNumber_lt_of_month_lt hyear hmonth)
  · exact hd.before_of_dayNumber_lt (hd.dayNumber_lt_of_day_lt hyear hmonth hday)
  · have hsame := dayNumber_eq hyear hmonth hday
    by_cases hclock : d.secondOfDay < e.secondOfDay
    · exact before_of_secondOfDay_lt hsame hclock
    · unfold secondOfDay at hclock
      refine before_of_milli_lt hsame ?_ (by omega)
      unfold secondOfDay
      omega

/-- **Dates are ordered as their components are.** -/
theorem Valid.before_iff (hd : d.Valid) (he : e.Valid) :
    d.instant.Before e.instant ↔ d.components < e.components := by
  refine ⟨fun hbefore => ?_, hd.before_of_components_lt⟩
  rcases lt_trichotomy d.components e.components with hlt | heq | hgt
  · exact hlt
  · rw [components_inj] at heq
    exact absurd ⟨rfl, rfl⟩ (heq ▸ hbefore).ne
  · exact absurd (he.before_of_components_lt hgt) hbefore.asymm

/-- Dates that exist are at the same instant only if they are the same. -/
theorem Valid.instant_eq_iff (hd : d.Valid) (he : e.Valid) :
    (d.instant.seconds = e.instant.seconds ∧ d.instant.nanos = e.instant.nanos) ↔
      d.components = e.components := by
  constructor
  · intro hsame
    rcases lt_trichotomy d.components e.components with hlt | heq | hgt
    · exact absurd hsame (hd.before_of_components_lt hlt).ne
    · exact heq
    · exact absurd ⟨hsame.1.symm, hsame.2.symm⟩ (he.before_of_components_lt hgt).ne
  · intro heq
    rw [components_inj] at heq
    rw [heq]
    exact ⟨rfl, rfl⟩

end DateTime

end Criteria
