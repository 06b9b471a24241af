import Criteria.Proofs.Params.Lookup

/-!
# Blank texts

A blank text counts as absent only after a look-up has chosen the name that it goes to, so a blank
entry can keep a look-up from a variant that has a text. Main statement (`get?_erase_eq_iff`): a
blank entry can go exactly where it hides nothing in this way, and it hides nothing at all where no
other name is a variant of its name.
-/

namespace Criteria.Params

/-- The parameters without the one under a name. -/
def erase (p : Params) (name : String) : Params :=
  ⟨Entries.erase p.entries name, Entries.nodup_keys_erase p.nodup_keys name⟩

/-- A look-up goes to a name, and would go to another name with a text that is not blank if the
first were not there. -/
def Hides (p : Params) (name key : String) : Prop :=
  Consults p.names key name ∧ ∃ other value, Consults (p.names.filter (· ≠ name)) key other ∧
    (other, value) ∈ p.entries ∧ Text.blank value.toList = false

variable {p : Params} {name key value : String}

theorem names_erase (p : Params) (name : String) :
    (p.erase name).names = p.names.filter (· ≠ name) := Entries.keys_erase p.entries name

/-- A look-up that goes to another name still goes there when a name is taken away. -/
theorem Consults.filter {names : List String} {other : String} (h : Consults names key other)
    (hne : other ≠ name) : Consults (names.filter (· ≠ name)) key other := by
  have hmem : ∀ {n}, n ∈ names.filter (· ≠ name) ↔ n ∈ names ∧ n ≠ name := by
    simp [List.mem_filter]
  cases h with
  | itself hkey => exact .itself (hmem.2 ⟨hkey, hne⟩)
  | variant hkey hother hsame hleast =>
    exact .variant (fun hkey' => hkey (hmem.1 hkey').1) (hmem.2 ⟨hother, hne⟩) hsame
      fun n hn hsame' => hleast n (hmem.1 hn).1 hsame'

/-- What is found without an entry is a text under the name that a look-up then goes to. -/
theorem get?_erase_eq_some_iff : (p.erase name).get? key = some value ↔
    ∃ other, Consults (p.names.filter (· ≠ name)) key other ∧ (other, value) ∈ p.entries ∧
      Text.blank value.toList = false := by
  rw [get?_eq_some_iff, names_erase]
  refine exists_congr fun other => and_congr_right fun hother => and_congr_left fun _ => ?_
  have hne : other ≠ name := by simpa using (List.mem_filter.1 hother.mem).2
  show (other, value) ∈ p.entries.filter (fun e => e.1 ≠ name) ↔ _
  rw [List.mem_filter]
  exact and_iff_left (by simpa using hne)

/-- An entry that a look-up does not go to has no part in it. -/
theorem get?_erase_of_not_consults (h : ¬ Consults p.names key name) :
    (p.erase name).get? key = p.get? key := by
  rcases consults_or_none p.names key with ⟨other, hother⟩ | hnone
  · have hne : other ≠ name := fun heq => h (heq ▸ hother)
    have herase : Consults (p.erase name).names key other := by
      rw [names_erase]
      exact hother.filter hne
    rw [get?_of_consults hother, get?_of_consults herase]
    exact congrArg _ (Entries.get?_erase hne p.entries)
  · rw [get?_eq_none hnone, get?_eq_none]
    intro n hn
    rw [names_erase] at hn
    exact hnone n (List.mem_filter.1 hn).1

/-- A look-up that goes to a blank entry gives nothing. -/
theorem get?_eq_none_of_blank (h : Consults p.names key name) (hentry : (name, value) ∈ p.entries)
    (hblank : Text.blank value.toList = true) : p.get? key = none := by
  rw [h.get?_eq ((Entries.get?_eq_some_iff p.nodup_keys).2 hentry), if_pos hblank]

/-- Where no other name is a variant of a name, the entry under it hides nothing. -/
theorem not_hides_of_no_variant
    (h : ∀ other ∈ p.names, sameName other name = true → other = name) (key : String) :
    ¬ p.Hides name key := by
  rintro ⟨hname, other, -, hother, -⟩
  obtain ⟨hmem, hne⟩ := List.mem_filter.1 hother.mem
  have hsame : sameName other name = true :=
    sameName_iff.2 ((sameName_iff.1 hother.same).trans (sameName_iff.1 hname.same).symm)
  exact of_decide_eq_true hne (h other hmem hsame)

/-- **A blank entry counts as absent unless it hides a variant.** To take a blank entry away changes
a look-up exactly where the entry hides another from it, and then from nothing to a text. Where it
hides nothing from the look-ups of the six parameters, these come to the same on every backend
without it, and it hides nothing from any look-up where no other name is a variant of its name. -/
theorem get?_erase_eq_iff (hentry : (name, value) ∈ p.entries)
    (hblank : Text.blank value.toList = true) :
    (∀ key, (p.erase name).get? key = p.get? key ↔ ¬ p.Hides name key) ∧
    (∀ key, p.Hides name key →
      p.get? key = none ∧ ∃ text, (p.erase name).get? key = some text) ∧
    ((∀ q : Parameter, ¬ p.Hides name q.name) →
      ∀ b, Query.ofParams b (p.erase name) = Query.ofParams b p) ∧
    ((∀ other ∈ p.names, sameName other name = true → other = name) →
      ∀ key, ¬ p.Hides name key) := by
  have hget : ∀ key, (p.erase name).get? key = p.get? key ↔ ¬ p.Hides name key := by
    intro key
    by_cases hname : Consults p.names key name
    · rw [get?_eq_none_of_blank hname hentry hblank, Option.eq_none_iff_forall_ne_some]
      simp only [ne_eq, get?_erase_eq_some_iff]
      constructor
      · rintro hnone ⟨-, other, value', hother⟩
        exact hnone value' ⟨other, hother⟩
      · rintro hhides value' ⟨other, hother⟩
        exact hhides ⟨hname, other, value', hother⟩
    · exact iff_of_true (get?_erase_of_not_consults hname) fun hhides => hname hhides.1
  refine ⟨hget, ?_, ?_, not_hides_of_no_variant⟩
  · rintro key ⟨hname, other, text, hother⟩
    exact ⟨get?_eq_none_of_blank hname hentry hblank, text,
      get?_erase_eq_some_iff.2 ⟨other, hother⟩⟩
  · intro hhides
    exact Query.ofParams_congr fun q => (hget q.name).2 (hhides q)

/-- A blank variant beside a text under the key itself can go. -/
theorem get?_erase_eq_iff_blank_variant :
    let p := ofList [("LIMIT", ""), ("limit", "5")]
    ("LIMIT", "") ∈ p.entries ∧ Text.blank "".toList = true ∧ ¬ p.Hides "LIMIT" "limit" ∧
      (p.erase "LIMIT").get? "limit" = p.get? "limit" := by
  intro p
  have hentry : ("LIMIT", "") ∈ p.entries := by decide
  have hblank : Text.blank "".toList = true := by decide
  have hhides : ¬ p.Hides "LIMIT" "limit" := by
    rintro ⟨hname, -⟩
    have hitself : Consults p.names "limit" "limit" := .itself (by decide)
    exact absurd (hname.unique hitself) (by decide)
  exact ⟨hentry, hblank, hhides, ((get?_erase_eq_iff hentry hblank).1 "limit").2 hhides⟩

/-- A blank text under the key itself keeps a look-up from a variant with a text: the default limit
stands, and without the blank entry the limit is 5. -/
theorem get?_blank_hides_variant :
    let p := ofList [("limit", ""), ("Limit", "5")]
    ("limit", "") ∈ p.entries ∧ Text.blank "".toList = true ∧
      p.get? "limit" = none ∧ (p.erase "limit").get? "limit" = some "5" ∧
      (∃ s, Query.ofParams .search p = (.ok (.search s), []) ∧ s.size = 50) ∧
      ∃ s, Query.ofParams .search (p.erase "limit") = (.ok (.search s), []) ∧ s.size = 5 := by
  refine ⟨by decide, by decide, by decide, by decide, ⟨_, rfl, rfl⟩, ⟨_, rfl, by decide⟩⟩

end Criteria.Params
