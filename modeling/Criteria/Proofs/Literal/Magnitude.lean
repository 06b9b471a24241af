import Criteria.Proofs.Binary64.Rounding
import Criteria.Proofs.Literal.Classes

/-!
# Numbers by their values

A numeral denotes a fraction, however many digits it has, and its value alone decides which literal
it is. Main statement (`infer_numeral`): a numeral is a number exactly when its value is less than
`2 ^ 1024 - 2 ^ 970`, in which case the number is the nearest one, and a pattern when it is not.
-/

namespace Criteria

open Text

namespace Numeral

/-! ## Texts -/

theorem Spells.unique {n n' : Numeral} {s : List Char} (h : n.Spells s) (h' : n'.Spells s) :
    n = n' :=
  Option.some.inj ((read?_eq_some_iff.2 h).symm.trans (read?_eq_some_iff.2 h'))

theorem Spells.exists_digits {n : Numeral} {s : List Char} (h : n.Spells s) :
    ∃ digits rest, IsDigits digits ∧ s = signText n.negative ++ (digits ++ rest) := by
  cases h with
  | @whole negative digits hdigits => exact ⟨digits, [], hdigits, by rw [List.append_nil]⟩
  | fraction hdigits _ => exact ⟨_, _, hdigits, rfl⟩

/-- A numeral that begins with a minus sign is negative, and so is `-0`. -/
theorem Spells.head?_eq_iff {n : Numeral} {s : List Char} (h : n.Spells s) :
    s.head? = some '-' ↔ n.negative = true := by
  obtain ⟨digits, rest, hdigits, rfl⟩ := h.exists_digits
  cases n.negative with
  | true => exact ⟨fun _ => rfl, fun _ => rfl⟩
  | false => exact ⟨fun hhead => absurd hhead (head?_digits_append_ne hdigits rest), nofun⟩

theorem Spells.not_isQuoted {n : Numeral} {s : List Char} (h : n.Spells s) (inner : List Char) :
    ¬ Literal.IsQuoted s inner := by
  obtain ⟨digits, rest, ⟨hne, hall⟩, rfl⟩ := h.exists_digits
  rintro ⟨q, hq, heq⟩
  cases hnegative : n.negative with
  | true =>
    rw [hnegative] at heq
    have hcons : '-' :: (digits ++ rest) = q :: (inner ++ [q]) := heq
    obtain rfl := (List.cons.inj hcons).1
    exact absurd hq (by decide)
  | false =>
    rw [hnegative] at heq
    obtain ⟨c, digits, rfl⟩ := List.exists_cons_of_ne_nil hne
    have hcons : c :: (digits ++ rest) = q :: (inner ++ [q]) := heq
    obtain rfl := (List.cons.inj hcons).1
    have hdigit := List.all_eq_true.1 hall c List.mem_cons_self
    rcases hq with rfl | rfl <;> exact nomatch hdigit

/-! ## Values -/

/-- The value of a numeral. -/
def value (n : Numeral) : ℚ := Binary64.signed n.negative (n.digits / (10 ^ n.scale : Nat))

theorem denominator_pos (n : Numeral) : 0 < 10 ^ n.scale := Nat.pow_pos (Nat.succ_pos 9)

theorem abs_value (n : Numeral) : |n.value| = n.digits / (10 ^ n.scale : Nat) :=
  Binary64.abs_signed _ (by positivity)

theorem toBinary64_eq (n : Numeral) :
    n.toBinary64 = Binary64.ofRatio n.negative n.digits (10 ^ n.scale) := rfl

theorem isFinite_toBinary64_iff (n : Numeral) :
    n.toBinary64.isFinite = true ↔ |n.value| < 2 ^ 1024 - 2 ^ 970 := by
  rw [toBinary64_eq, abs_value, Binary64.isFinite_ofRatio_iff _ n.denominator_pos]

theorem isNearest_toBinary64 {n : Numeral} (h : n.toBinary64.isFinite = true) :
    Binary64.IsNearest n.value n.toBinary64 :=
  Binary64.isNearest_ofRatio n.negative n.denominator_pos h

theorem magnitude_toBinary64_of_value_eq_zero {n : Numeral} (h : n.value = 0) :
    n.toBinary64.magnitude = 0 := by
  refine Binary64.magnitude_ofRatio_of_nonpos n.negative n.denominator_pos ?_
  exact le_of_eq (n.abs_value.symm.trans (abs_eq_zero.2 h))

theorem value_toBinary64_mono {n n' : Numeral} (h : n.value ≤ n'.value) :
    n.toBinary64.value ≤ n'.toBinary64.value :=
  Binary64.value_ofRatio_mono n.denominator_pos n'.denominator_pos h

end Numeral

namespace Literal

open Binary64 (overflowBound cast_overflowBound)

/-- A numeral is the number that its value rounds to, if this is finite. -/
theorem infer_eq_number_iff {token : String} {n : Numeral} (h : n.Spells token.toList)
    {x : Binary64} : infer token = .number x ↔ n.toBinary64 = x ∧ x.isFinite = true := by
  rw [infer_of_not_isQuoted h.not_isQuoted, ofBare_eq_number_iff]
  constructor
  · rintro ⟨n', h', hx⟩
    obtain rfl := h.unique h'
    exact hx
  · rintro hx
    exact ⟨n, h, hx⟩

theorem infer_eq_pattern {token : String} {n : Numeral} (h : n.Spells token.toList)
    (hfinite : n.toBinary64.isFinite = false) : infer token = .pattern token := by
  rw [infer_of_not_isQuoted h.not_isQuoted, ofBare_eq_pattern_iff]
  refine ⟨rfl, fun hdate => not_isNumeral_of_isDate hdate ⟨n, h⟩, ?_, ?_⟩
  · rintro x ⟨n', h', rfl, hx⟩
    obtain rfl := h.unique h'
    exact Bool.false_ne_true (hfinite.symm.trans hx)
  · intro b hb
    exact not_isNumeral_booleanWord b ⟨n, hb ▸ h⟩

/-- **A numeral is a number when its value is.** A numeral of any length is a number exactly when
its value is less than `2 ^ 1024 - 2 ^ 970`, and otherwise the pattern of itself. The number has the
sign with which the numeral begins, also where it is zero; it is nearest to the value, a tie going
to the even one; and no numeral with a lesser value is a greater number. -/
theorem infer_numeral {token : String} {n : Numeral} (h : n.Spells token.toList) :
    ((∃ x, infer token = .number x) ↔ |n.value| < 2 ^ 1024 - 2 ^ 970) ∧
    (2 ^ 1024 - 2 ^ 970 ≤ |n.value| → infer token = .pattern token) ∧
    ∀ x, infer token = .number x →
      (x.negative = true ↔ token.toList.head? = some '-') ∧
      (n.value = 0 → x.magnitude = 0) ∧
      x.IsNearest n.value ∧
      ∀ (token' : String) (n' : Numeral) (x' : Binary64), n'.Spells token'.toList →
        infer token' = .number x' → n.value ≤ n'.value → x.value ≤ x'.value := by
  refine ⟨?_, ?_, ?_⟩
  · rw [← n.isFinite_toBinary64_iff]
    constructor
    · rintro ⟨x, hx⟩
      obtain ⟨rfl, hfinite⟩ := (infer_eq_number_iff h).1 hx
      exact hfinite
    · intro hfinite
      exact ⟨n.toBinary64, (infer_eq_number_iff h).2 ⟨rfl, hfinite⟩⟩
  · intro hlarge
    refine infer_eq_pattern h ?_
    rw [← Bool.not_eq_true, n.isFinite_toBinary64_iff]
    exact not_lt.2 hlarge
  · intro x hx
    obtain ⟨rfl, hfinite⟩ := (infer_eq_number_iff h).1 hx
    refine ⟨h.head?_eq_iff.symm, ?_, Numeral.isNearest_toBinary64 hfinite, ?_⟩
    · intro hzero
      exact Numeral.magnitude_toBinary64_of_value_eq_zero hzero
    · intro token' n' x' h' hx' hle
      obtain ⟨rfl, -⟩ := (infer_eq_number_iff h').1 hx'
      exact Numeral.value_toBinary64_mono hle

section Decimal

variable (m : Nat)

theorem isDigits_toString : IsDigits (toString m).toList := by
  obtain ⟨hne, hall, -⟩ := spellsNumber_iff.1 (spellsNumber_zeros_toString 0 m)
  exact ⟨hne, hall⟩

theorem spells_toString : Numeral.Spells ⟨false, m, 0⟩ (toString m).toList := by
  have h := @Numeral.Spells.whole false _ (isDigits_toString m)
  rw [decimalValue_toString] at h
  exact h

theorem spells_toString_point_nine :
    Numeral.Spells ⟨false, 10 * m + 9, 1⟩ (toString m ++ ".9").toList := by
  have h := @Numeral.Spells.fraction false _ ['9'] (isDigits_toString m)
    ⟨List.cons_ne_nil _ _, rfl⟩
  rw [decimalValue_concat, decimalValue_toString] at h
  rw [String.toList_append]
  exact h

end Decimal

/-- The theorem at the bound, at a tenth less, and at the zero that is negative. -/
theorem infer_numeral_at_bound :
    infer (toString overflowBound) = .pattern (toString overflowBound) ∧
    (∃ x, infer (toString (overflowBound - 1) ++ ".9") = .number x) ∧
    infer "-0" = .number ⟨true, 0⟩ := by
  have hpos : 0 < overflowBound := by decide +kernel
  have hzeroText : Numeral.Spells ⟨true, 0, 0⟩ "-0".toList :=
    @Numeral.Spells.whole true ['0'] ⟨List.cons_ne_nil _ _, rfl⟩
  have hzeroValue : |Numeral.value ⟨true, 0, 0⟩| = 0 := by
    rw [Numeral.abs_value, Nat.cast_zero, zero_div]
  refine ⟨(infer_numeral (spells_toString overflowBound)).2.1 ?_,
    (infer_numeral (spells_toString_point_nine (overflowBound - 1))).1.2 ?_, ?_⟩
  · rw [Numeral.abs_value, pow_zero, Nat.cast_one, div_one, cast_overflowBound]
  · rw [Numeral.abs_value, ← cast_overflowBound]
    obtain ⟨k, hk⟩ := Nat.exists_eq_add_one_of_ne_zero (Nat.ne_of_gt hpos)
    rw [hk, Nat.add_sub_cancel, div_lt_iff₀ (by positivity)]
    push_cast
    linarith
  · obtain ⟨x, hx⟩ := (infer_numeral hzeroText).1.2 (by
      rw [hzeroValue, ← cast_overflowBound]
      exact Nat.cast_pos.2 hpos)
    obtain ⟨hsign, hmagnitude, -⟩ := (infer_numeral hzeroText).2.2 x hx
    rw [hx]
    obtain ⟨negative, magnitude⟩ := x
    obtain rfl : negative = true := hsign.2 rfl
    obtain rfl : magnitude = 0 := hmagnitude (abs_eq_zero.1 hzeroValue)
    rfl

end Literal

end Criteria
