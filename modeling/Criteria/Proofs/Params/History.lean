import Criteria.Proofs.Params.Lookup
import Mathlib.Data.List.Dedup

/-!
# The history of parameters

Parameters come about by writing pairs, one more text, or other parameters over them, and keep what
was written in no particular order. All that matters of such a history is the value that was written
last under each name (`Written.get?_entries_eq`). Main statement (`written_determines`): the last
values decide every look-up, the number of names, and what parameters come to on every backend.
-/

namespace Criteria.Params

/-- The parameters that operations may leave, with all that the operations have written, in order.
Nothing is said about the order in which entries are stored, which may be another at any time. -/
inductive Written : List (String × String) → Params → Prop
  | ofList (pairs : List (String × String)) : Written pairs (Params.ofList pairs)
  | insert {writes : List (String × String)} {p : Params} (key value : String) :
      Written writes p → Written (writes ++ [(key, value)]) (p.insert key value)
  | merge {writes writes' : List (String × String)} {p overlay : Params} :
      Written writes p → Written writes' overlay → Written (writes ++ writes') (p.merge overlay)
  | reorder {writes : List (String × String)} {p p' : Params} :
      Written writes p → p'.entries.Perm p.entries → Written writes p'

variable {writes writes' : List (String × String)} {p p' : Params}

/-- Under each name is what was written there last. -/
theorem Written.get?_entries_eq (h : Written writes p) (name : String) :
    Entries.get? p.entries name = Entries.last? writes name := by
  induction h with
  | ofList pairs => exact get?_entries_ofList pairs name
  | insert key value _ ih => rw [get?_entries_insert, Entries.last?_concat, ih]
  | merge _ _ ih ih' => rw [get?_entries_merge, Entries.last?_append, ih, ih']
  | reorder _ hperm ih => rw [Entries.get?_of_perm (nodup_keys _) hperm, ih]

/-- The names are those that were written. -/
theorem Written.mem_names_iff (h : Written writes p) {name : String} :
    name ∈ p.names ↔ name ∈ Entries.keys writes := by
  rw [← not_iff_not, ← Entries.last?_eq_none_iff, ← h.get?_entries_eq]
  exact Entries.get?_eq_none_iff.symm

theorem Written.size_eq (h : Written writes p) :
    p.size = (Entries.keys writes).dedup.length := by
  have hperm : p.names.Perm (Entries.keys writes).dedup := by
    refine (List.perm_ext_iff_of_nodup p.nodup_keys (List.nodup_dedup _)).2 fun name => ?_
    rw [List.mem_dedup]
    exact h.mem_names_iff
  rw [← hperm.length_eq, names, Entries.keys, List.length_map, size]

/-- A look-up finds the last value under the name that it goes to among those that were written. -/
theorem Written.get?_of_consults (h : Written writes p) {key name : String}
    (hname : Consults (Entries.keys writes) key name) :
    p.get? key = (Entries.last? writes name).filter fun v => !Text.blank v.toList := by
  rw [← h.get?_entries_eq]
  exact Params.get?_of_consults (hname.congr fun _ _ => h.mem_names_iff.symm)

/-- Histories with the same last values leave the same to every look-up. -/
theorem Written.get?_eq (h : Written writes p) (h' : Written writes' p')
    (hlast : ∀ name, Entries.last? writes name = Entries.last? writes' name) (key : String) :
    p.get? key = p'.get? key := by
  refine get?_congr fun name _ => ?_
  rw [h.get?_entries_eq, h'.get?_entries_eq, hlast]

/-- **The last values decide everything.** A look-up goes to the key if it was ever written, and
otherwise to the smallest name among those that were written that is a variant of it; there is
exactly one such name if there is any. It gives the value that was written last under this name,
unless that is blank. The size is the number of different names that were written. Two histories
with the same last values cannot be told apart by a look-up, nor by what they come to on a
backend, warnings included. -/
theorem written_determines (h : Written writes p) :
    (∀ key name, Consults (Entries.keys writes) key name →
      p.get? key = (Entries.last? writes name).filter fun v => !Text.blank v.toList) ∧
    (∀ key, (∃ name ∈ Entries.keys writes, sameName name key = true) →
      ∃! name, Consults (Entries.keys writes) key name) ∧
    (∀ key, (∀ name ∈ Entries.keys writes, sameName name key = false) → p.get? key = none) ∧
    p.size = (Entries.keys writes).dedup.length ∧
    (∀ writes' p', Written writes' p' →
      (∀ name, Entries.last? writes name = Entries.last? writes' name) →
      (∀ key, p.get? key = p'.get? key) ∧ ∀ b, Query.ofParams b p = Query.ofParams b p') := by
  refine ⟨fun key name hname => h.get?_of_consults hname, ?_, ?_, h.size_eq, ?_⟩
  · intro key hvariant
    obtain ⟨name, hname⟩ := exists_consults_iff.2 hvariant
    exact ⟨name, hname, fun other hother => hother.unique hname⟩
  · intro key hnone
    exact get?_eq_none fun name hname => hnone name (h.mem_names_iff.1 hname)
  · intro writes' p' h' hlast
    have hget : ∀ key, p.get? key = p'.get? key := h.get?_eq h' hlast
    exact ⟨hget, Query.ofParams_congr fun q => hget q.name⟩

/-- Of three spellings that are left of five writes, the smallest counts, with its last value. -/
theorem written_determines_case_variants :
    Written
      [("Limit", "1"), ("limiT", "2"), ("LIMIT", "3"), ("limiT", " "), ("LIMIT", "4")]
      (((ofList [("Limit", "1"), ("limiT", "2")]).insert "LIMIT" "3").merge
        (ofList [("limiT", " "), ("LIMIT", "4")])) ∧
    (((ofList [("Limit", "1"), ("limiT", "2")]).insert "LIMIT" "3").merge
      (ofList [("limiT", " "), ("LIMIT", "4")])).get? "limit" = some "4" := by
  have hwritten := ((Written.ofList [("Limit", "1"), ("limiT", "2")]).insert "LIMIT" "3").merge
    (.ofList [("limiT", " "), ("LIMIT", "4")])
  refine ⟨hwritten, ?_⟩
  obtain ⟨hget, -⟩ := written_determines hwritten
  rw [hget "limit" "LIMIT" (.variant (by decide) (by decide) (by decide) (by decide))]
  decide

end Criteria.Params
