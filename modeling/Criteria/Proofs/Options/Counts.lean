import Criteria.Proofs.Options

/-!
# Counts

How many records to skip and to give is read from decimal digits without a bound on their number,
and only then compared with the largest count. Main statement (`counts_outcome`): both readers
accept the texts of numbers below two to the power of 64, as these numbers, and reject any other
text as it was given.
-/

namespace Criteria.Options

/-- The largest count. -/
def largestCount : Nat := 2 ^ 64 - 1

/-- What the reader of a count comes to where the parameter is given. -/
structure ReadsCount (q : Parameter) (read : Params → Validation UInt64) : Prop where
  accepts : ∀ {p : Params} {value : String}, p.get? q.name = some value → ∀ n log,
    (read p).outcome = (.ok n, log) ↔
      Text.SpellsNumber (Text.trim value.toList) n.toNat ∧ log = []
  /-- A rejected text spells no number or one that is too large; it is named with its blanks. -/
  rejects : ∀ {p : Params} {value : String}, p.get? q.name = some value → ∀ e log,
    (read p).outcome = (.error e, log) ↔
      (∀ n, Text.SpellsNumber (Text.trim value.toList) n → largestCount < n) ∧
        e = ⟨q, value⟩ ∧ log = [⟨q, value, none⟩]
  /-- The decimal text of a number is read as the number unless this is too large. -/
  restores : ∀ {p : Params} {value : String}, p.get? q.name = some value →
    ∀ (before after : List Char) (zeros n : Nat), Text.blank before = true →
      Text.blank after = true →
      value.toList = before ++ (List.replicate zeros '0' ++ (toString n).toList) ++ after →
      (read p).outcome =
        if n ≤ largestCount then (.ok (UInt64.ofNat n), [])
        else (.error ⟨q, value⟩, [⟨q, value, none⟩])

variable {value : String} {q : Parameter} {p : Params} {default : UInt64}

theorem isCount_iff {n : UInt64} :
    IsCount value n ↔ Text.SpellsNumber (Text.trim value.toList) n.toNat :=
  Text.spellsNumber_iff.symm

theorem toNat_le_largestCount (n : UInt64) : n.toNat ≤ largestCount :=
  Nat.le_sub_one_of_lt n.toNat_lt

theorem toNat_ofNat_of_le {n : Nat} (h : n ≤ largestCount) : (UInt64.ofNat n).toNat = n :=
  UInt64.toNat_ofNat_of_lt' (Nat.lt_of_le_sub_one (by decide) h)

/-- No count is read exactly where there is no number or one that is too large. -/
theorem readCount?_eq_none_iff :
    readCount? value = none ↔
      ∀ n, Text.SpellsNumber (Text.trim value.toList) n → largestCount < n := by
  rw [Option.eq_none_iff_forall_ne_some]
  simp only [ne_eq, readCount?_eq_some_iff, isCount_iff]
  constructor
  · intro h n hn
    by_contra hlarge
    have hn' := toNat_ofNat_of_le (Nat.le_of_not_lt hlarge)
    exact h (UInt64.ofNat n) (hn'.symm ▸ hn)
  · intro h n hn
    exact absurd (h n.toNat hn) (Nat.not_lt.2 (toNat_le_largestCount n))

theorem readCount_of_given (h : p.get? q.name = some value) :
    readCount p q default = Validation.orReject q value (readCount? value) := by
  rw [readCount, h]

/-- Every reader of a count comes to the same. -/
theorem readsCount (q : Parameter) (default : UInt64) :
    ReadsCount q fun p => readCount p q default where
  accepts h n log := by
    rw [readCount_of_given h, Validation.outcome_orReject_eq_ok_iff, readCount?_eq_some_iff,
      isCount_iff]
  rejects h e log := by
    rw [readCount_of_given h, Validation.outcome_orReject_eq_error_iff, readCount?_eq_none_iff]
  restores {p value} h before after zeros n hbefore hafter hvalue := by
    have hspells := Text.spellsNumber_zeros_toString zeros n
    have htrim : Text.trim value.toList = List.replicate zeros '0' ++ (toString n).toList := by
      rw [hvalue]
      exact hspells.trim_append hbefore hafter
    rw [← htrim] at hspells
    rw [readCount_of_given h]
    split
    · next hle =>
      rw [Validation.outcome_orReject_eq_ok_iff, readCount?_eq_some_iff, isCount_iff,
        toNat_ofNat_of_le hle]
      exact ⟨hspells, rfl⟩
    · next hlarge =>
      rw [Validation.outcome_orReject_eq_error_iff, readCount?_eq_none_iff]
      refine ⟨fun m hm => ?_, rfl, rfl⟩
      rw [hm.unique hspells]
      exact Nat.lt_of_not_le hlarge

/-- **Counts are exactly the numbers of 64 bits.** A given value of `skip` or of `limit` is accepted
as a number exactly when it is a text of decimal digits that spell it, blanks around them aside, and
the number is at most the largest count. Any other value is rejected as it was given, with one
warning. So the decimal text of a number, with zeros in front and blanks around it, is read as the
number, and no larger one is ever read as a smaller one. -/
theorem counts_outcome : ReadsCount .skip readSkip ∧ ReadsCount .limit readLimit :=
  ⟨readsCount .skip defaultSkip, readsCount .limit defaultLimit⟩

/-- The largest count between blanks, and the number behind it. -/
theorem counts_outcome_largest :
    let p := Params.ofList [("Skip", "\u3000 0018446744073709551615\t"),
      ("limit", "18446744073709551616")]
    (readSkip p).outcome = (.ok 18446744073709551615, []) ∧
      (readLimit p).outcome = (.error ⟨.limit, "18446744073709551616"⟩,
        [⟨.limit, "18446744073709551616", none⟩]) := by
  intro p
  have hskip : p.get? Parameter.skip.name = some "\u3000 0018446744073709551615\t" := by decide
  have hlimit : p.get? Parameter.limit.name = some "18446744073709551616" := by decide
  exact ⟨counts_outcome.1.restores hskip ['\u3000', ' '] ['\t'] 2 18446744073709551615
      (by decide) (by decide) (by decide),
    counts_outcome.2.restores hlimit [] [] 0 18446744073709551616 (by decide) (by decide)
      (by decide)⟩

end Criteria.Options
