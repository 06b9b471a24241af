import Criteria.Calendar

/-!
# The language of dates

`DateTime.Spells` is the grammar `YYYY-MM-DD[THH:MM:SS[.f]][Z]` with one to three digits `f`: it
says which texts name given components. Main statement (`readDateTime?_eq_some_iff`): a text is read
as a date exactly when it names components that exist, and it names no others.
-/

namespace Criteria.DateTime

open Criteria.Text

/-! ## Dates that are read

Every component of a date is read within its bounds, and a day is checked against its month, so
what is read is a date that exists (`valid_of_readDateTime?`). -/

theorem readField?_bounds {width low high n : Nat} {s rest : List Char}
    (h : readField? width low high s = some (n, rest)) : low ≤ n ∧ n ≤ high := by
  unfold readField? at h
  split at h
  · split at h
    · next hbounds =>
      cases h
      exact hbounds
    · exact nomatch h
  · exact nomatch h

/-- Zeros filled in on the right make a fraction a number of three digits. -/
theorem readMillis?_le {s rest : List Char} {milli : Nat}
    (h : readMillis? s = some (milli, rest)) : milli ≤ 999 := by
  unfold readMillis? at h
  dsimp only at h
  split at h
  · exact nomatch h
  · cases h
    -- at most three digits, so at most `10 ^ 3` after the zeros are filled in
    generalize hdigits : (s.take 3).takeWhile Char.isDigit = digits
    have hall : digits.all Char.isDigit = true := by
      rw [← hdigits]
      exact List.all_takeWhile
    have hlen : digits.length ≤ 3 := by
      have hwhile := (List.takeWhile_prefix Char.isDigit (l := s.take 3)).length_le
      have htake := List.length_take_le 3 s
      rw [← hdigits]
      omega
    have hscaled : decimalValue digits * Nat.pow 10 (3 - digits.length) < 1000 :=
      calc decimalValue digits * Nat.pow 10 (3 - digits.length)
        _ < Nat.pow 10 digits.length * Nat.pow 10 (3 - digits.length) :=
          Nat.mul_lt_mul_of_pos_right (decimalValue_lt hall) (Nat.pow_pos (by decide))
        _ = Nat.pow 10 3 := by
          show 10 ^ digits.length * 10 ^ (3 - digits.length) = 10 ^ 3
          rw [← Nat.pow_add, Nat.add_sub_cancel' hlen]
    omega

theorem readFraction?_le {s rest : List Char} {milli : Nat}
    (h : readFraction? s = some (milli, rest)) : milli ≤ 999 := by
  unfold readFraction? at h
  split at h
  · exact readMillis?_le h
  · cases h
    decide

/-- The components of a time that is read are those of a time of day. -/
theorem readTime?_bounds {s rest : List Char} {hour minute second milli : Nat}
    (h : readTime? s = some ((hour, minute, second, milli), rest)) :
    hour ≤ 23 ∧ minute ≤ 59 ∧ second ≤ 59 ∧ milli ≤ 999 := by
  simp only [readTime?, bind, Option.bind_eq_some_iff] at h
  obtain ⟨⟨hour', _⟩, hhour, _, -, ⟨minute', _⟩, hminute, _, -, ⟨second', _⟩, hsecond,
    ⟨milli', _⟩, hmilli, hresult⟩ := h
  cases hresult
  exact ⟨(readField?_bounds hhour).2, (readField?_bounds hminute).2,
    (readField?_bounds hsecond).2, readFraction?_le hmilli⟩

theorem readTimeOfDay?_bounds {s rest : List Char} {hour minute second milli : Nat}
    (h : readTimeOfDay? s = some ((hour, minute, second, milli), rest)) :
    hour ≤ 23 ∧ minute ≤ 59 ∧ second ≤ 59 ∧ milli ≤ 999 := by
  unfold readTimeOfDay? at h
  split at h
  · exact readTime?_bounds h
  · cases h
    decide

/-- What is read as a date exists. -/
theorem valid_of_readDateTime? {s : List Char} {d : DateTime} (h : readDateTime? s = some d) :
    d.Valid := by
  simp only [readDateTime?, bind, Option.bind_eq_some_iff] at h
  obtain ⟨⟨year, _⟩, hyear, _, -, ⟨month, _⟩, hmonth, _, -, ⟨day, _⟩, hday,
    ⟨⟨hour, minute, second, milli⟩, _⟩, htime, hresult⟩ := h
  obtain ⟨hhour, hminute, hsecond, hmilli⟩ := readTimeOfDay?_bounds htime
  split at hresult
  · next hend =>
    cases hresult
    exact {
      year_le := (readField?_bounds hyear).2
      month_pos := (readField?_bounds hmonth).1
      month_le := (readField?_bounds hmonth).2
      day_pos := (readField?_bounds hday).1
      day_le := hend.2
      hour_le := hhour
      minute_le := hminute
      second_le := hsecond
      milli_le := hmilli }
  · exact nomatch hresult

end Criteria.DateTime

/-! ## The grammar -/

namespace Criteria

theorem Calendar.daysInMonth_le (year month : Nat) : daysInMonth year month ≤ 31 := by
  unfold daysInMonth
  split
  · split <;> decide
  all_goals decide

namespace DateTime

open Text

/-- A fraction of a second and the milliseconds that it counts: none, or a point and one to three
digits, which zeros on the right make up to three. -/
inductive IsFraction : Nat → List Char → Prop where
  | absent : IsFraction 0 []
  | digits {digits : List Char} : digits ≠ [] → digits.length ≤ 3 →
      digits.all Char.isDigit = true →
      IsFraction (decimalValue (digits ++ List.replicate (3 - digits.length) '0')) ('.' :: digits)

/-- The time of day behind a date; midnight need not be written. -/
inductive SpellsTime (d : DateTime) : List Char → Prop where
  | midnight : d.hour = 0 → d.minute = 0 → d.second = 0 → d.milli = 0 → SpellsTime d []
  | clock {fraction : List Char} : IsFraction d.milli fraction →
      SpellsTime d ('T' :: (fixedDigits 2 d.hour ++ ':' :: (fixedDigits 2 d.minute ++
        ':' :: (fixedDigits 2 d.second ++ fraction))))

/-- The text of a date, with or without a time of day and a `Z`. -/
inductive Spells (d : DateTime) : List Char → Prop where
  | intro {time zone : List Char} : SpellsTime d time → zone = [] ∨ zone = ['Z'] →
      Spells d (fixedDigits 4 d.year ++ '-' :: (fixedDigits 2 d.month ++
        '-' :: (fixedDigits 2 d.day ++ (time ++ zone))))

/-- The language of dates: texts of dates that exist. -/
def IsDate (s : List Char) : Prop := ∃ d : DateTime, d.Valid ∧ d.Spells s

/-! ### Fields and marks -/

theorem readField?_eq_some_iff {width low high n : Nat} {s rest : List Char}
    (hhigh : high < Nat.pow 10 width) :
    readField? width low high s = some (n, rest) ↔
      low ≤ n ∧ n ≤ high ∧ s = fixedDigits width n ++ rest := by
  constructor
  · intro h
    have hbounds := readField?_bounds h
    unfold readField? at h
    split at h
    · next n' rest' hdigits =>
      split at h
      · obtain ⟨rfl, rfl⟩ := Prod.mk.inj (Option.some.inj h)
        exact ⟨hbounds.1, hbounds.2, (readDigits?_eq_some_iff.1 hdigits).2⟩
      · exact nomatch h
    · exact nomatch h
  · rintro ⟨hlow, hle, hs⟩
    have hdigits := readDigits?_eq_some_iff.2 ⟨Nat.lt_of_le_of_lt hle hhigh, hs⟩
    rw [readField?, hdigits]
    exact if_pos ⟨hlow, hle⟩

theorem readField?_append {width low high n : Nat} (hhigh : high < Nat.pow 10 width)
    (hlow : low ≤ n) (hle : n ≤ high) (rest : List Char) :
    readField? width low high (fixedDigits width n ++ rest) = some (n, rest) :=
  (readField?_eq_some_iff hhigh).2 ⟨hlow, hle, rfl⟩

theorem readMark?_eq_some_iff {mark : Char} {s rest : List Char} :
    readMark? mark s = some rest ↔ s = mark :: rest := by
  cases s with
  | nil => exact ⟨nofun, nofun⟩
  | cons c s =>
    rw [readMark?]
    by_cases h : c = mark
    · simp [h]
    · simp [h]

/-! ### Fractions -/

/-- A fraction ends where no further digit follows. -/
theorem readMillis?_digits {digits rest : List Char} (hne : digits ≠ [])
    (hlength : digits.length ≤ 3) (hall : digits.all Char.isDigit = true)
    (hrest : ∀ c ∈ rest.head?, c.isDigit = false) :
    readMillis? (digits ++ rest) =
      some (decimalValue (digits ++ List.replicate (3 - digits.length) '0'), rest) := by
  have hall' : ∀ c ∈ digits, c.isDigit = true := List.all_eq_true.1 hall
  have hrun : ((digits ++ rest).take 3).takeWhile Char.isDigit = digits := by
    rw [List.take_append, List.take_of_length_le hlength, List.takeWhile_append_of_pos hall']
    cases rest with
    | nil => simp
    | cons c rest =>
      have hc := hrest c rfl
      cases 3 - digits.length <;> simp [hc]
  have hempty : digits.isEmpty = false := List.isEmpty_eq_false_iff.2 hne
  rw [readMillis?]
  simp only [hrun, hempty, Bool.false_eq_true, if_false, List.drop_left,
    decimalValue_append_zeros]

/-- The digits of a fraction that is read make up its text. -/
theorem exists_digits_of_readMillis? {s rest : List Char} {milli : Nat}
    (h : readMillis? s = some (milli, rest)) :
    ∃ digits, IsFraction milli ('.' :: digits) ∧ s = digits ++ rest := by
  rw [readMillis?] at h
  have hstart : (s.take 3).takeWhile Char.isDigit <+: s :=
    (List.takeWhile_prefix _).trans (List.take_prefix 3 s)
  have hall : ((s.take 3).takeWhile Char.isDigit).all Char.isDigit = true := List.all_takeWhile
  have hlength : ((s.take 3).takeWhile Char.isDigit).length ≤ 3 :=
    Nat.le_trans (List.takeWhile_prefix _).length_le (List.length_take_le 3 s)
  generalize (s.take 3).takeWhile Char.isDigit = digits at h hstart hall hlength
  obtain ⟨after, rfl⟩ := hstart
  split at h
  · exact nomatch h
  · next hempty =>
    obtain ⟨rfl, rfl⟩ := Prod.mk.inj (Option.some.inj h)
    rw [← decimalValue_append_zeros, List.drop_left]
    exact ⟨digits, .digits (fun hnil => hempty (List.isEmpty_iff.2 hnil)) hlength hall, rfl⟩

/-- What may follow a fraction: neither a digit nor a point. -/
def EndsFraction (rest : List Char) : Prop := ∀ c ∈ rest.head?, c.isDigit = false ∧ c ≠ '.'

theorem readFraction?_append {milli : Nat} {fraction rest : List Char}
    (h : IsFraction milli fraction) (hrest : EndsFraction rest) :
    readFraction? (fraction ++ rest) = some (milli, rest) := by
  cases h with
  | absent =>
    cases rest with
    | nil => rfl
    | cons c rest =>
      have hc : c ≠ '.' := (hrest c rfl).2
      rw [List.nil_append, readFraction?]
      intro rest' heq
      exact hc (List.cons.inj heq).1
  | digits hne hlength hall =>
    exact readMillis?_digits hne hlength hall fun c hc => (hrest c hc).1

theorem exists_fraction_of_readFraction? {s rest : List Char} {milli : Nat}
    (h : readFraction? s = some (milli, rest)) :
    ∃ fraction, IsFraction milli fraction ∧ s = fraction ++ rest := by
  unfold readFraction? at h
  split at h
  · obtain ⟨digits, hdigits, rfl⟩ := exists_digits_of_readMillis? h
    exact ⟨_, hdigits, rfl⟩
  · cases h
    exact ⟨[], .absent, rfl⟩

/-! ### Times of day -/

/-- A time of day is read to its end where what follows cannot belong to it. -/
theorem readTime?_append {d : DateTime} (h : d.Valid) {fraction rest : List Char}
    (hfraction : IsFraction d.milli fraction) (hrest : EndsFraction rest) :
    readTime? (fixedDigits 2 d.hour ++ ':' :: (fixedDigits 2 d.minute ++
        ':' :: (fixedDigits 2 d.second ++ (fraction ++ rest)))) =
      some ((d.hour, d.minute, d.second, d.milli), rest) := by
  have hhour := readField?_append (show 23 < Nat.pow 10 2 by decide) (Nat.zero_le _) h.hour_le
  have hminute :=
    readField?_append (show 59 < Nat.pow 10 2 by decide) (Nat.zero_le _) h.minute_le
  have hsecond :=
    readField?_append (show 59 < Nat.pow 10 2 by decide) (Nat.zero_le _) h.second_le
  have hmark := fun s => (@readMark?_eq_some_iff ':' (':' :: s) s).2 rfl
  simp only [readTime?, bind, Option.bind, hhour, hminute, hsecond, hmark,
    readFraction?_append hfraction hrest, pure]

theorem readTimeOfDay?_append {d : DateTime} (h : d.Valid) {time rest : List Char}
    (htime : d.SpellsTime time) (hrest : EndsFraction rest) (hhead : rest.head? ≠ some 'T') :
    readTimeOfDay? (time ++ rest) = some ((d.hour, d.minute, d.second, d.milli), rest) := by
  cases htime with
  | midnight hhour hminute hsecond hmilli =>
    rw [hhour, hminute, hsecond, hmilli, List.nil_append]
    unfold readTimeOfDay?
    split
    · exact absurd rfl hhead
    · rfl
  | clock hfraction =>
    simp only [List.cons_append, List.append_assoc]
    exact readTime?_append h hfraction hrest

/-- A time of day that is read makes up its text. -/
theorem exists_time_of_readTime? {d : DateTime} {s rest : List Char}
    (h : readTime? s = some ((d.hour, d.minute, d.second, d.milli), rest)) :
    ∃ time, d.SpellsTime time ∧ 'T' :: s = time ++ rest := by
  simp only [readTime?, bind, Option.bind_eq_some_iff] at h
  obtain ⟨⟨hour, s₁⟩, hhour, s₂, hmark, ⟨minute, s₃⟩, hminute, s₄, hmark', ⟨second, s₅⟩, hsecond,
    ⟨milli, s₆⟩, hmilli, hresult⟩ := h
  obtain rfl : s₁ = ':' :: s₂ := readMark?_eq_some_iff.1 hmark
  obtain rfl : s₃ = ':' :: s₄ := readMark?_eq_some_iff.1 hmark'
  obtain ⟨-, -, rfl⟩ := (readField?_eq_some_iff (by decide)).1 hhour
  obtain ⟨-, -, rfl⟩ := (readField?_eq_some_iff (by decide)).1 hminute
  obtain ⟨-, -, rfl⟩ := (readField?_eq_some_iff (by decide)).1 hsecond
  obtain ⟨fraction, hfraction, rfl⟩ := exists_fraction_of_readFraction? hmilli
  simp only [pure, Option.some.injEq, Prod.mk.injEq] at hresult
  obtain ⟨⟨rfl, rfl, rfl, rfl⟩, rfl⟩ := hresult
  exact ⟨_, .clock hfraction, by simp⟩

theorem exists_time_of_readTimeOfDay? {d : DateTime} {s rest : List Char}
    (h : readTimeOfDay? s = some ((d.hour, d.minute, d.second, d.milli), rest)) :
    ∃ time, d.SpellsTime time ∧ s = time ++ rest := by
  unfold readTimeOfDay? at h
  split at h
  · exact exists_time_of_readTime? h
  · simp only [Option.some.injEq, Prod.mk.injEq] at h
    obtain ⟨⟨hhour, hminute, hsecond, hmilli⟩, rfl⟩ := h
    exact ⟨[], .midnight hhour.symm hminute.symm hsecond.symm hmilli.symm, rfl⟩

/-! ### Dates -/

/-- A text with the components of a date is read as that date. -/
theorem Spells.readDateTime?_eq {d : DateTime} {s : List Char} (hs : d.Spells s) (h : d.Valid) :
    readDateTime? s = some d := by
  obtain @⟨time, zone, htime, hzone⟩ := hs
  have hend : EndsFraction zone := by
    rcases hzone with rfl | rfl
    · exact fun c hc => (nomatch hc)
    · intro c hc
      obtain rfl : 'Z' = c := Option.some.inj hc
      decide
  have hhead : zone.head? ≠ some 'T' := by
    rcases hzone with rfl | rfl <;> decide
  have hday : d.day ≤ 31 := Nat.le_trans h.day_le (Calendar.daysInMonth_le _ _)
  have hyear :=
    readField?_append (show 9999 < Nat.pow 10 4 by decide) (Nat.zero_le _) h.year_le
  have hmonth := readField?_append (show 12 < Nat.pow 10 2 by decide) h.month_pos h.month_le
  have hday' := readField?_append (show 31 < Nat.pow 10 2 by decide) h.day_pos hday
  have hmark := fun s => (@readMark?_eq_some_iff '-' ('-' :: s) s).2 rfl
  simp only [readDateTime?, bind, Option.bind, hyear, hmonth, hday', hmark,
    readTimeOfDay?_append h htime hend hhead]
  exact if_pos ⟨hzone, h.day_le⟩

/-- **Reading dates is their grammar.** A text is read as a date exactly when it is a text of that
date and the date exists. -/
theorem readDateTime?_eq_some_iff {s : List Char} {d : DateTime} :
    readDateTime? s = some d ↔ d.Valid ∧ d.Spells s := by
  constructor
  · intro h
    refine ⟨valid_of_readDateTime? h, ?_⟩
    simp only [readDateTime?, bind, Option.bind_eq_some_iff] at h
    obtain ⟨⟨year, s₁⟩, hyear, s₂, hmark, ⟨month, s₃⟩, hmonth, s₄, hmark', ⟨day, s₅⟩, hday,
      ⟨⟨hour, minute, second, milli⟩, s₆⟩, htime, hresult⟩ := h
    obtain rfl : s₁ = '-' :: s₂ := readMark?_eq_some_iff.1 hmark
    obtain rfl : s₃ = '-' :: s₄ := readMark?_eq_some_iff.1 hmark'
    obtain ⟨-, -, rfl⟩ := (readField?_eq_some_iff (by decide)).1 hyear
    obtain ⟨-, -, rfl⟩ := (readField?_eq_some_iff (by decide)).1 hmonth
    obtain ⟨-, -, rfl⟩ := (readField?_eq_some_iff (by decide)).1 hday
    split at hresult
    · next hend =>
      obtain rfl := Option.some.inj hresult
      obtain ⟨time, htime, hs₅⟩ := @exists_time_of_readTimeOfDay?
        ⟨year, month, day, hour, minute, second, milli⟩ _ _ htime
      dsimp only at hs₅
      rw [hs₅]
      exact .intro htime hend.1
    · cases hresult
  · rintro ⟨h, hs⟩
    exact hs.readDateTime?_eq h

end DateTime

end Criteria
