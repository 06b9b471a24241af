import Criteria.Binary64
import Mathlib.Algebra.Order.Group.Unbundled.Abs
import Mathlib.Algebra.Order.Field.Basic
import Mathlib.Data.Rat.Cast.Order
import Mathlib.Order.Monotone.Basic
import Mathlib.Tactic.Linarith
import Mathlib.Tactic.Ring

/-!
# Rounding to the nearest number

Ranks stand in the order of their values (`units_strictMono`), and the rank next to a quotient is
found by where the quotient lies between the values of two neighbours (`nearestRank_le_iff`). All
else follows from this: a quotient rounds to a number that is nearest to it, a tie to the even rank;
greater quotients round to greater numbers; and a quotient is rounded to infinity from
`2 ^ 1024 - 2 ^ 970` on, halfway between the largest number and the next power of two.
-/

namespace Criteria.Binary64

/-! ## Units -/

theorem binade_pos : 0 < binade := Nat.pow_pos (by decide)

theorem units_of_lt {r : Nat} (h : r < binade) : units r = r := if_pos h

theorem units_binade (k : Nat) {j : Nat} (hj : j < binade) :
    units (j + (k + 1) * binade) = (binade + j) * 2 ^ k := by
  have hge : ¬ j + (k + 1) * binade < binade := by
    rw [Nat.succ_mul]
    omega
  rw [units, if_neg hge, Nat.add_mul_mod_self_right, Nat.mod_eq_of_lt hj,
    Nat.add_mul_div_right _ _ binade_pos, Nat.div_eq_of_lt hj, Nat.zero_add, Nat.add_sub_cancel]
  rfl

/-- A significand of 53 bits and its unit. The unit is least where the significand has fewer bits,
and the next power of two may be written with either unit. -/
theorem units_significand {k m : Nat} (hk : k = 0 ∨ binade ≤ m) (hm : m ≤ 2 * binade) :
    units (k * binade + m) = m * 2 ^ k := by
  rcases Nat.lt_or_ge m binade with hlt | hge
  · obtain rfl := hk.resolve_right (Nat.not_le.2 hlt)
    rw [Nat.zero_mul, Nat.zero_add, units_of_lt hlt, pow_zero, Nat.mul_one]
  · rcases Nat.lt_or_ge m (2 * binade) with hlt | htop
    · have hrank : k * binade + m = (m - binade) + (k + 1) * binade := by
        rw [Nat.succ_mul]
        omega
      rw [hrank, units_binade k (by omega), Nat.add_sub_cancel' hge]
    · obtain rfl := Nat.le_antisymm hm htop
      have hrank : k * binade + 2 * binade = 0 + (k + 1 + 1) * binade := by ring
      rw [hrank, units_binade (k + 1) binade_pos]
      ring

/-- Each rank has a significand below the next power of two. -/
theorem exists_significand (r : Nat) :
    ∃ k m, (k = 0 ∨ binade ≤ m) ∧ m < 2 * binade ∧ r = k * binade + m := by
  have hmod := Nat.mod_lt r binade_pos
  have hsplit := Nat.div_add_mod' r binade
  rcases Nat.eq_zero_or_pos (r / binade) with hzero | hpos
  · rw [hzero] at hsplit
    exact ⟨0, r, .inl rfl, by omega, by omega⟩
  · obtain ⟨k, hk⟩ := Nat.exists_eq_succ_of_ne_zero (Nat.ne_of_gt hpos)
    rw [hk, Nat.succ_mul] at hsplit
    exact ⟨k, binade + r % binade, .inr (Nat.le_add_right _ _), by omega, by omega⟩

theorem units_lt_units_succ (r : Nat) : units r < units (r + 1) := by
  obtain ⟨k, m, hk, hm, rfl⟩ := exists_significand r
  have hsucc : k = 0 ∨ binade ≤ m + 1 := hk.imp_right fun h => Nat.le_succ_of_le h
  rw [Nat.add_assoc, units_significand hk (Nat.le_of_lt hm), units_significand hsucc hm]
  exact Nat.mul_lt_mul_of_pos_right (Nat.lt_succ_self m) (Nat.two_pow_pos k)

/-- Ranks stand in the order of their values. -/
theorem units_strictMono : StrictMono units := strictMono_nat_of_lt_succ units_lt_units_succ

/-! ## The rank next to a quotient -/

theorem roundDiv_eq (num den : Nat) :
    roundDiv num den =
      if 2 * num < (2 * (num / den) + 1) * den then num / den
      else if (2 * (num / den) + 1) * den < 2 * num then num / den + 1
      else num / den + num / den % 2 := by
  have hnum : 2 * num = 2 * (num / den) * den + 2 * (num % den) := by
    rw [Nat.mul_assoc, ← Nat.mul_add, Nat.div_add_mod']
  have hmiddle : (2 * (num / den) + 1) * den = 2 * (num / den) * den + den := Nat.succ_mul _ _
  simp only [hnum, hmiddle, Nat.add_lt_add_iff_left]
  rfl

/-- In its unit of the last place a quotient has at most 53 bits, and has less only in the least
unit. -/
theorem significand_bounds (num den : Nat) {k : Nat} (hk : k = (num / den).log2 + 1 - 53) :
    (k = 0 ∨ binade ≤ num / (den * 2 ^ k)) ∧ num / (den * 2 ^ k) < 2 * binade := by
  rw [← Nat.div_div_eq_div_mul]
  generalize num / den = q at hk ⊢
  have htop : 2 * binade = 2 ^ 53 := rfl
  rw [htop]
  rcases Nat.lt_or_ge q (2 ^ 53) with hlt | hge
  · have hzero : k = 0 := by
      rcases Nat.eq_zero_or_pos q with rfl | hpos
      · exact hk
      · have hlog := (Nat.log2_lt (Nat.ne_of_gt hpos)).2 hlt
        omega
    rw [hzero, pow_zero, Nat.div_one]
    exact ⟨.inl rfl, hlt⟩
  · have hne : q ≠ 0 := by omega
    have hlog : 53 ≤ q.log2 := by
      by_contra hless
      have := (Nat.log2_lt hne).1 (Nat.not_le.1 hless)
      omega
    refine ⟨.inr ?_, ?_⟩
    · rw [Nat.le_div_iff_mul_le (Nat.two_pow_pos k)]
      calc binade * 2 ^ k
        _ = 2 ^ (52 + k) := (pow_add 2 52 k).symm
        _ = 2 ^ q.log2 := by congr 1; omega
        _ ≤ q := Nat.log2_self_le hne
    · rw [Nat.div_lt_iff_lt_mul (Nat.two_pow_pos k)]
      calc q
        _ < 2 ^ (q.log2 + 1) := Nat.lt_log2_self
        _ = 2 ^ (53 + k) := by congr 1; omega
        _ = 2 ^ 53 * 2 ^ k := pow_add 2 53 k

/-- Between which ranks a quotient lies, and to which of them it is rounded. -/
theorem exists_floor (num : Nat) {den : Nat} (hden : 0 < den) :
    ∃ r, units r * den ≤ num * unitDenominator ∧ num * unitDenominator < units (r + 1) * den ∧
      nearestRank num den =
        if 2 * (num * unitDenominator) < (units r + units (r + 1)) * den then r
        else if (units r + units (r + 1)) * den < 2 * (num * unitDenominator) then r + 1
        else r + r % 2 := by
  unfold nearestRank unitDenominator
  generalize num * Nat.pow 2 1074 = scaled
  generalize hunit : (scaled / den).log2 + 1 - 53 = k
  obtain ⟨hk, hm⟩ := significand_bounds scaled den hunit.symm
  have hpos : 0 < den * 2 ^ k := Nat.mul_pos hden (Nat.two_pow_pos k)
  have hfloor := Nat.div_mul_le_self scaled (den * 2 ^ k)
  have hceil := Nat.lt_mul_div_succ scaled hpos
  have hround := roundDiv_eq scaled (den * 2 ^ k)
  dsimp only
  rw [Nat.pow_eq, hunit]
  generalize scaled / (den * 2 ^ k) = m at hk hm hfloor hceil hround
  have hlow : units (k * binade + m) = m * 2 ^ k := units_significand hk (Nat.le_of_lt hm)
  have hhigh : units (k * binade + m + 1) = (m + 1) * 2 ^ k := by
    rw [Nat.add_assoc]
    exact units_significand (hk.imp_right fun h => Nat.le_succ_of_le h) hm
  have hmiddle : (m * 2 ^ k + (m + 1) * 2 ^ k) * den = (2 * m + 1) * (den * 2 ^ k) := by ring
  have hparity : (k * binade + m) % 2 = m % 2 := by
    have heven : binade = 2 * 2 ^ 51 := rfl
    rw [heven]
    omega
  refine ⟨k * binade + m, ?_, ?_, ?_⟩
  · rw [hlow]
    calc m * 2 ^ k * den
      _ = m * (den * 2 ^ k) := by ring
      _ ≤ scaled := hfloor
  · rw [hhigh]
    calc scaled
      _ < den * 2 ^ k * (m + 1) := hceil
      _ = (m + 1) * 2 ^ k * den := by ring
  · rw [hlow, hhigh, hmiddle, hround, hparity]
    split
    · rfl
    · split <;> exact (Nat.add_assoc _ _ _).symm

/-! ## Values -/

theorem unitDenominator_pos : 0 < unitDenominator := by decide +kernel

/-- The value of a rank, infinity being counted like the next power of two. -/
def rankValue (r : Nat) : ℚ := units r / unitDenominator

theorem rankValue_strictMono : StrictMono rankValue := by
  intro r s h
  have hunits : (units r : ℚ) < units s := Nat.cast_lt.2 (units_strictMono h)
  exact div_lt_div_of_pos_right hunits (Nat.cast_pos.2 unitDenominator_pos)

theorem rankValue_add (r s : Nat) :
    rankValue r + rankValue s = ((units r + units s : Nat) : ℚ) / unitDenominator := by
  rw [rankValue, rankValue, ← add_div, Nat.cast_add]

/-- A quotient is on this side of the middle between two neighbouring ranks, where the middle
belongs to the even one. -/
def RoundsBelow (v : ℚ) (r : Nat) : Prop :=
  2 * v < rankValue r + rankValue (r + 1) ∨
    2 * v = rankValue r + rankValue (r + 1) ∧ r % 2 = 0

section Fractions

variable {num den a p : Nat}

theorem two_mul_div_lt_iff (hden : 0 < den) (hp : 0 < p) :
    2 * ((num : ℚ) / den) < (a : ℚ) / p ↔ 2 * (num * p) < a * den := by
  have hden' : (0 : ℚ) < den := Nat.cast_pos.2 hden
  have hp' : (0 : ℚ) < p := Nat.cast_pos.2 hp
  rw [← mul_div_assoc, div_lt_div_iff₀ hden' hp', ← Nat.mul_assoc]
  exact_mod_cast Iff.rfl

theorem two_mul_div_eq_iff (hden : 0 < den) (hp : 0 < p) :
    2 * ((num : ℚ) / den) = (a : ℚ) / p ↔ 2 * (num * p) = a * den := by
  have hden' : (den : ℚ) ≠ 0 := Nat.cast_ne_zero.2 (Nat.ne_of_gt hden)
  have hp' : (p : ℚ) ≠ 0 := Nat.cast_ne_zero.2 (Nat.ne_of_gt hp)
  rw [← mul_div_assoc, div_eq_div_iff hden' hp', ← Nat.mul_assoc]
  exact_mod_cast Iff.rfl

end Fractions

theorem roundsBelow_iff {num den : Nat} (hden : 0 < den) (r : Nat) :
    RoundsBelow (num / den) r ↔
      2 * (num * unitDenominator) < (units r + units (r + 1)) * den ∨
        2 * (num * unitDenominator) = (units r + units (r + 1)) * den ∧ r % 2 = 0 := by
  rw [RoundsBelow, rankValue_add, two_mul_div_lt_iff hden unitDenominator_pos,
    two_mul_div_eq_iff hden unitDenominator_pos]

/-- **Where a quotient lies decides how it is rounded.** -/
theorem nearestRank_le_iff {num den : Nat} (hden : 0 < den) (r : Nat) :
    nearestRank num den ≤ r ↔ RoundsBelow (num / den) r := by
  rw [roundsBelow_iff hden]
  obtain ⟨floor, hlow, hhigh, hround⟩ := exists_floor num hden
  rw [hround]
  generalize num * unitDenominator = scaled at hlow hhigh ⊢
  rcases Nat.lt_trichotomy r floor with hlt | rfl | hgt
  · -- the middle is below the floor
    have hr : units r * den < units floor * den :=
      Nat.mul_lt_mul_of_pos_right (units_strictMono hlt) hden
    have hsucc : units (r + 1) * den ≤ units floor * den :=
      Nat.mul_le_mul_right den (units_strictMono.monotone hlt)
    have hmiddle : (units r + units (r + 1)) * den < 2 * scaled := by
      rw [Nat.add_mul]
      omega
    split
    · omega
    · split <;> omega
  · -- the quotient is compared with this very middle
    split
    · omega
    · split <;> omega
  · -- the middle is above the next rank
    have hr : units (floor + 1) * den ≤ units r * den :=
      Nat.mul_le_mul_right den (units_strictMono.monotone hgt)
    have hsucc : units (floor + 1) * den < units (r + 1) * den :=
      Nat.mul_lt_mul_of_pos_right (units_strictMono (Nat.succ_lt_succ hgt)) hden
    have hmiddle : 2 * scaled < (units r + units (r + 1)) * den := by
      rw [Nat.add_mul]
      omega
    split
    · omega
    · split <;> omega

/-! ## The nearest rank -/

theorem RoundsBelow.two_mul_le {v : ℚ} {r : Nat} (h : RoundsBelow v r) :
    2 * v ≤ rankValue r + rankValue (r + 1) := by
  rcases h with hlt | ⟨heq, -⟩
  · exact le_of_lt hlt
  · exact le_of_eq heq

theorem le_two_mul_of_not_roundsBelow {v : ℚ} {r : Nat} (h : ¬ RoundsBelow v r) :
    rankValue r + rankValue (r + 1) ≤ 2 * v :=
  not_lt.1 fun hlt => h (.inl hlt)

/-- What rounds to a rank at most still does when it is less. -/
theorem RoundsBelow.mono {v w : ℚ} {r : Nat} (h : RoundsBelow w r) (hvw : v ≤ w) :
    RoundsBelow v r := by
  rcases h with hlt | ⟨heq, heven⟩
  · exact .inl (by linarith)
  · rcases lt_or_eq_of_le hvw with hlt | rfl
    · exact .inl (by linarith)
    · exact .inr ⟨heq, heven⟩

/-- Greater quotients round to greater numbers. -/
theorem nearestRank_mono {num den num' den' : Nat} (hden : 0 < den) (hden' : 0 < den')
    (h : (num : ℚ) / den ≤ num' / den') : nearestRank num den ≤ nearestRank num' den' :=
  (nearestRank_le_iff hden _).2 (((nearestRank_le_iff hden' _).1 (Nat.le_refl _)).mono h)

section Nearest

variable {v : ℚ} {x : Nat} (hx : ∀ r, x ≤ r ↔ RoundsBelow v r)

include hx

theorem abs_sub_rankValue_le (r : Nat) : |v - rankValue x| ≤ |v - rankValue r| := by
  rcases Nat.lt_trichotomy r x with hlt | rfl | hgt
  · obtain ⟨y, rfl⟩ := Nat.exists_eq_add_one_of_ne_zero (Nat.ne_zero_of_lt hlt)
    have hmiddle := le_two_mul_of_not_roundsBelow fun h => Nat.not_succ_le_self y ((hx y).2 h)
    have hle := rankValue_strictMono.monotone (Nat.le_of_lt_succ hlt)
    have hless := rankValue_strictMono hlt
    rw [abs_of_nonneg (by linarith : 0 ≤ v - rankValue r), abs_le]
    constructor <;> linarith
  · exact le_refl _
  · have hmiddle := ((hx x).1 (Nat.le_refl x)).two_mul_le
    have hle := rankValue_strictMono.monotone hgt
    have hless := rankValue_strictMono hgt
    rw [abs_of_nonpos (by linarith : v - rankValue r ≤ 0), abs_le]
    constructor <;> linarith

/-- Of two nearest ranks the even one is taken. -/
theorem even_of_abs_sub_eq {r : Nat} (hne : r ≠ x)
    (htie : |v - rankValue r| = |v - rankValue x|) : x % 2 = 0 := by
  have hmiddle : 2 * v = rankValue r + rankValue x := by
    rcases abs_eq_abs.1 htie with heq | heq
    · exact absurd (rankValue_strictMono.injective (by linarith)) hne
    · linarith
  rcases Nat.lt_or_gt_of_ne hne with hlt | hgt
  · -- a rank below can only be the one before
    obtain ⟨y, rfl⟩ := Nat.exists_eq_add_one_of_ne_zero (Nat.ne_zero_of_lt hlt)
    have hnot : ¬ RoundsBelow v y := fun h => Nat.not_succ_le_self y ((hx y).2 h)
    have hbefore := le_two_mul_of_not_roundsBelow hnot
    have hle := rankValue_strictMono.monotone (Nat.le_of_lt_succ hlt)
    have hodd : y % 2 ≠ 0 := fun heven => hnot (.inr ⟨by linarith, heven⟩)
    omega
  · -- a rank above can only be the next one
    have hbelow := (hx x).1 (Nat.le_refl x)
    have hle := rankValue_strictMono.monotone hgt
    rcases hbelow with hlt | ⟨-, heven⟩
    · linarith
    · exact heven

end Nearest

/-! ## Overflow -/

/-- The middle between the largest number and the next power of two. -/
def overflowBound : Nat := 2 ^ 1024 - 2 ^ 970

theorem units_infinityRank :
    units (infinityRank - 1) + units infinityRank = 2 * overflowBound * unitDenominator := by
  decide +kernel

theorem cast_overflowBound : (overflowBound : ℚ) = 2 ^ 1024 - 2 ^ 970 := by
  have hle : 2 ^ 970 ≤ 2 ^ 1024 := pow_le_pow_right₀ one_le_two (by omega)
  rw [overflowBound, Nat.cast_sub hle, Nat.cast_pow, Nat.cast_pow, Nat.cast_ofNat]

/-- **Overflow.** A quotient is rounded to infinity from the middle between the largest number and
the next power of two on. -/
theorem nearestRank_lt_infinityRank_iff {num den : Nat} (hden : 0 < den) :
    nearestRank num den < infinityRank ↔ (num : ℚ) / den < 2 ^ 1024 - 2 ^ 970 := by
  have hunit : (unitDenominator : ℚ) ≠ 0 := Nat.cast_ne_zero.2 (Nat.ne_of_gt unitDenominator_pos)
  have hmiddle : rankValue (infinityRank - 1) + rankValue infinityRank = 2 * overflowBound := by
    rw [rankValue_add, units_infinityRank, Nat.cast_mul, mul_div_cancel_right₀ _ hunit,
      Nat.cast_mul, Nat.cast_ofNat]
  have hodd : (infinityRank - 1) % 2 ≠ 0 := by decide
  have hsucc : infinityRank - 1 + 1 = infinityRank := by decide
  have hbelow : nearestRank num den < infinityRank ↔ nearestRank num den ≤ infinityRank - 1 := by
    rw [← hsucc, Nat.lt_succ_iff, Nat.add_sub_cancel]
  rw [hbelow, nearestRank_le_iff hden, RoundsBelow, hsucc, hmiddle, ← cast_overflowBound]
  constructor
  · rintro (hlt | ⟨-, heven⟩)
    · linarith
    · exact absurd heven hodd
  · intro hlt
    exact .inl (by linarith)

/-! ## Numbers with signs -/

/-- A magnitude with a sign. -/
def signed (negative : Bool) (v : ℚ) : ℚ := if negative then -v else v

/-- The value of a number, infinity being counted like the next power of two. -/
def value (x : Binary64) : ℚ := signed x.negative (rankValue x.magnitude)

theorem rankValue_zero : rankValue 0 = 0 := by
  rw [rankValue, units_zero, Nat.cast_zero, zero_div]

theorem rankValue_nonneg (r : Nat) : 0 ≤ rankValue r :=
  rankValue_zero ▸ rankValue_strictMono.monotone (Nat.zero_le r)

theorem abs_signed_sub_signed (negative : Bool) (v w : ℚ) :
    |signed negative v - signed negative w| = |v - w| := by
  cases negative with
  | false => rfl
  | true =>
    rw [← abs_neg]
    congr 1
    simp only [signed, if_true]
    ring

theorem abs_signed (negative : Bool) {v : ℚ} (hv : 0 ≤ v) : |signed negative v| = v := by
  cases negative with
  | false => exact abs_of_nonneg hv
  | true => exact (abs_neg v).trans (abs_of_nonneg hv)

theorem signed_sub_signed_not (negative : Bool) (v w : ℚ) :
    signed negative v - signed (!negative) w = signed negative (v + w) := by
  cases negative with
  | false => exact sub_neg_eq_add v w
  | true => exact (neg_add' v w).symm

/-- A finite number is nearest to a value among all finite numbers, and its rank is even where
another one is as near. -/
structure IsNearest (q : ℚ) (x : Binary64) : Prop where
  isFinite : x.isFinite = true
  nearest : ∀ y : Binary64, y.isFinite = true → |q - x.value| ≤ |q - y.value|
  even_of_tie : ∀ y : Binary64, y.isFinite = true → y.value ≠ x.value →
    |q - y.value| = |q - x.value| → x.magnitude.val % 2 = 0

/-- For a number with the other sign, zero is at least as near. -/
theorem exists_rank_nearer (negative : Bool) {v : ℚ} (hv : 0 ≤ v) (y : Binary64) :
    ∃ r, |v - rankValue r| ≤ |signed negative v - y.value| ∧
      (|v - rankValue r| = |signed negative v - y.value| →
        y.value = signed negative (rankValue r)) := by
  by_cases hsign : y.negative = negative
  · refine ⟨y.magnitude, ?_, fun _ => by rw [value, hsign]⟩
    rw [value, hsign, abs_signed_sub_signed]
  · have hy := rankValue_nonneg y.magnitude
    have hfar : |signed negative v - y.value| = v + rankValue y.magnitude := by
      rw [value, Bool.eq_not_of_ne hsign, signed_sub_signed_not, abs_signed _ (by linarith)]
    rw [hfar]
    refine ⟨0, ?_, ?_⟩
    · rw [rankValue_zero, sub_zero, abs_of_nonneg hv]
      linarith
    · rw [rankValue_zero, sub_zero, abs_of_nonneg hv]
      intro heq
      have hzero : rankValue y.magnitude = 0 := by linarith
      have hvalue : |y.value| = 0 := (abs_signed _ hy).trans hzero
      have hsigned : |signed negative 0| = 0 := abs_signed _ (le_refl 0)
      rw [abs_eq_zero.1 hvalue, abs_eq_zero.1 hsigned]

theorem isFinite_ofRatio_iff (negative : Bool) {num den : Nat} (hden : 0 < den) :
    (ofRatio negative num den).isFinite = true ↔ (num : ℚ) / den < 2 ^ 1024 - 2 ^ 970 := by
  rw [← nearestRank_lt_infinityRank_iff hden, isFinite, decide_eq_true_eq]
  show min (nearestRank num den) infinityRank < infinityRank ↔ _
  omega

/-- **Rounding is to the nearest number, a tie going to the even one.** -/
theorem isNearest_ofRatio (negative : Bool) {num den : Nat} (hden : 0 < den)
    (hfinite : (ofRatio negative num den).isFinite = true) :
    IsNearest (signed negative (num / den)) (ofRatio negative num den) := by
  have hrank : (ofRatio negative num den).magnitude.val = nearestRank num den := by
    rw [isFinite_ofRatio_iff negative hden, ← nearestRank_lt_infinityRank_iff hden] at hfinite
    exact min_eq_left (Nat.le_of_lt hfinite)
  have hvalue : (ofRatio negative num den).value =
      signed negative (rankValue (nearestRank num den)) := by
    rw [value, hrank]
    rfl
  have hnonneg : (0 : ℚ) ≤ num / den := by positivity
  have hx : ∀ r, nearestRank num den ≤ r ↔ RoundsBelow (num / den) r := nearestRank_le_iff hden
  have hnearest := abs_sub_rankValue_le hx
  refine ⟨hfinite, ?_, ?_⟩
  · intro y _
    obtain ⟨r, hle, -⟩ := exists_rank_nearer negative hnonneg y
    rw [hvalue, abs_signed_sub_signed]
    exact (hnearest r).trans hle
  · intro y _ hne htie
    obtain ⟨r, hle, heq⟩ := exists_rank_nearer negative hnonneg y
    rw [hvalue] at hne htie
    rw [abs_signed_sub_signed] at htie
    -- the rank that is nearer than the other number is as near as the nearest one
    have hrtie : |(num : ℚ) / den - rankValue r| =
        |(num : ℚ) / den - rankValue (nearestRank num den)| :=
      le_antisymm (hle.trans (le_of_eq htie)) (hnearest r)
    have hr : r ≠ nearestRank num den := by
      rintro rfl
      exact hne (heq htie.symm)
    rw [hrank]
    exact even_of_abs_sub_eq hx hr hrtie

theorem rankValue_ofRatio_mono (negative negative' : Bool) {num den num' den' : Nat}
    (hden : 0 < den) (hden' : 0 < den') (h : (num : ℚ) / den ≤ num' / den') :
    rankValue (ofRatio negative num den).magnitude ≤
      rankValue (ofRatio negative' num' den').magnitude := by
  refine rankValue_strictMono.monotone ?_
  show min (nearestRank num den) infinityRank ≤ min (nearestRank num' den') infinityRank
  exact min_le_min_right _ (nearestRank_mono hden hden' h)

/-- Zero stays zero. -/
theorem magnitude_ofRatio_of_nonpos (negative : Bool) {num den : Nat} (hden : 0 < den)
    (h : (num : ℚ) / den ≤ 0) : (ofRatio negative num den).magnitude = 0 := by
  have hone := rankValue_strictMono Nat.zero_lt_one
  rw [rankValue_zero] at hone
  have hbelow : RoundsBelow (num / den) 0 := by
    refine .inl ?_
    rw [rankValue_zero]
    linarith
  have hzero := Nat.le_zero.1 ((nearestRank_le_iff hden 0).2 hbelow)
  refine Fin.ext ?_
  show min (nearestRank num den) infinityRank = 0
  rw [hzero, Nat.zero_min]

/-- Rounding keeps the order of values. -/
theorem value_ofRatio_mono {negative negative' : Bool} {num den num' den' : Nat} (hden : 0 < den)
    (hden' : 0 < den') (h : signed negative (num / den) ≤ signed negative' (num' / den')) :
    (ofRatio negative num den).value ≤ (ofRatio negative' num' den').value := by
  have hnonneg : (0 : ℚ) ≤ num / den := by positivity
  have hnonneg' : (0 : ℚ) ≤ num' / den' := by positivity
  have hvalue := rankValue_nonneg (ofRatio negative num den).magnitude
  have hvalue' := rankValue_nonneg (ofRatio negative' num' den').magnitude
  cases negative with
  | false =>
    cases negative' with
    | false => exact rankValue_ofRatio_mono false false hden hden' h
    | true =>
      -- both are zero
      have hle : (num : ℚ) / den ≤ -(num' / den') := h
      have hzero := magnitude_ofRatio_of_nonpos false hden (hle.trans (neg_nonpos.2 hnonneg'))
      have hzero' :=
        magnitude_ofRatio_of_nonpos true hden' ((le_neg.1 hle).trans (neg_nonpos.2 hnonneg))
      rw [value, value, hzero, hzero']
      show rankValue 0 ≤ -rankValue 0
      rw [rankValue_zero, neg_zero]
  | true =>
    cases negative' with
    | false => exact (neg_nonpos.2 hvalue).trans hvalue'
    | true => exact neg_le_neg (rankValue_ofRatio_mono true true hden' hden (neg_le_neg_iff.1 h))

end Criteria.Binary64
