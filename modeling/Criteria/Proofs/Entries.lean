import Criteria.Datum
import Mathlib.Data.List.Induction

/-!
# What entries hold

Where no key occurs twice, a look-up gives what is stored under the key in whatever order the
entries are stored (`get?_eq_some_iff`, `get?_of_perm`). A sequence of writes leaves the value that
was written last under each key (`get?_putAll`), and the keys in the order in which they were
written first (`keys_putAll_nil`).
-/

namespace Criteria.Entries

variable {α : Type} {es es' : List (String × α)} {key other : String} {value : α}

/-- The value that is written last under a key. -/
def last? (writes : List (String × α)) (key : String) : Option α := get? writes.reverse key

/-- The entries under other keys. -/
def erase (es : List (String × α)) (key : String) : List (String × α) :=
  es.filter fun e => e.1 ≠ key

/-! ## Looking up -/

theorem keys_cons (e : String × α) (es : List (String × α)) : keys (e :: es) = e.1 :: keys es := rfl

theorem get?_cons (e : String × α) (es : List (String × α)) (key : String) :
    get? (e :: es) key = if e.1 = key then some e.2 else get? es key := rfl

theorem mem_keys_of_mem (h : (key, value) ∈ es) : key ∈ keys es := List.mem_map.2 ⟨_, h, rfl⟩

theorem get?_eq_none_iff : get? es key = none ↔ key ∉ keys es := by
  induction es with
  | nil => exact ⟨fun _ => List.not_mem_nil, fun _ => rfl⟩
  | cons e es ih =>
    rw [get?_cons, keys_cons, List.mem_cons, not_or]
    by_cases h : e.1 = key
    · rw [if_pos h]
      exact ⟨nofun, fun hkey => absurd h.symm hkey.1⟩
    · rw [if_neg h, ih]
      exact ⟨fun hkey => ⟨Ne.symm h, hkey⟩, And.right⟩

theorem exists_get?_iff : (∃ value, get? es key = some value) ↔ key ∈ keys es := by
  rw [← Option.isSome_iff_exists, Option.isSome_iff_ne_none, ne_eq, get?_eq_none_iff, not_not]

theorem get?_eq_find? (es : List (String × α)) (key : String) :
    get? es key = (es.find? fun e => e.1 = key).map Prod.snd := by
  induction es with
  | nil => rfl
  | cons e es ih =>
    rw [get?_cons, List.find?_cons, ih]
    by_cases h : e.1 = key
    · rw [if_pos h, decide_eq_true h, Option.map_some]
    · rw [if_neg h, decide_eq_false h]

/-- Where no key occurs twice, a look-up gives what is stored under the key. -/
theorem get?_eq_some_iff (h : (keys es).Nodup) : get? es key = some value ↔ (key, value) ∈ es := by
  induction es with
  | nil => exact ⟨nofun, nofun⟩
  | cons e es ih =>
    obtain ⟨hhead, htail⟩ := List.nodup_cons.1 h
    rw [get?_cons, List.mem_cons]
    by_cases hkey : e.1 = key
    · rw [if_pos hkey, Option.some.injEq]
      constructor
      · rintro rfl
        exact .inl (Prod.ext hkey.symm rfl)
      · rintro (rfl | hmem)
        · rfl
        · exact absurd (mem_keys_of_mem hmem) (hkey ▸ hhead)
    · rw [if_neg hkey, ih htail, or_iff_right]
      rintro rfl
      exact hkey rfl

/-- The order in which entries are stored has no part in a look-up. -/
theorem get?_of_perm (h : (keys es).Nodup) (hperm : es'.Perm es) (key : String) :
    get? es' key = get? es key := by
  have h' : (keys es').Nodup := (hperm.map Prod.fst).nodup_iff.2 h
  apply Option.ext
  intro value
  rw [get?_eq_some_iff h', get?_eq_some_iff h, hperm.mem_iff]

theorem get?_append (es es' : List (String × α)) (key : String) :
    get? (es ++ es') key = (get? es key).or (get? es' key) := by
  induction es with
  | nil => rfl
  | cons e es ih =>
    rw [List.cons_append, get?_cons, get?_cons]
    split
    · rfl
    · exact ih

/-- Entries are known by their keys and by what is among them. -/
theorem eq_of_keys_eq (h : (keys es).Nodup) (hkeys : keys es = keys es')
    (hmem : ∀ e ∈ es, e ∈ es') : es = es' := by
  induction es generalizing es' with
  | nil => exact (List.map_eq_nil_iff.1 hkeys.symm).symm
  | cons e es ih =>
    cases es' with
    | nil => exact nomatch hkeys
    | cons e' es' =>
      obtain ⟨hhead, htail⟩ := List.nodup_cons.1 h
      obtain ⟨-, hrest⟩ := List.cons.inj hkeys
      obtain rfl : e = e' := by
        rcases List.mem_cons.1 (hmem e List.mem_cons_self) with heq | hin
        · exact heq
        · exact absurd (hrest ▸ mem_keys_of_mem hin) hhead
      refine congrArg (e :: ·) (ih htail hrest fun x hx => ?_)
      rcases List.mem_cons.1 (hmem x (List.mem_cons_of_mem e hx)) with rfl | hin
      · exact absurd (mem_keys_of_mem hx) hhead
      · exact hin

/-! ## Writing -/

theorem last?_append (writes writes' : List (String × α)) (key : String) :
    last? (writes ++ writes') key = (last? writes' key).or (last? writes key) := by
  rw [last?, List.reverse_append, get?_append, last?, last?]

theorem last?_concat (writes : List (String × α)) (key other : String) (value : α) :
    last? (writes ++ [(key, value)]) other =
      if key = other then some value else last? writes other := by
  rw [last?_append]
  show (if key = other then some value else none).or _ = _
  split <;> rfl

theorem last?_eq_none_iff {writes : List (String × α)} :
    last? writes key = none ↔ key ∉ keys writes := by
  rw [last?, get?_eq_none_iff, keys, List.map_reverse, List.mem_reverse, keys]

/-- The last value under a key is the one behind which the key is not written again. -/
theorem last?_eq_some_iff {writes : List (String × α)} :
    last? writes key = some value ↔
      ∃ before after, writes = before ++ (key, value) :: after ∧ key ∉ keys after := by
  rw [last?, get?_eq_find?, Option.map_eq_some_iff]
  simp only [List.find?_eq_some_iff_append]
  constructor
  · rintro ⟨⟨k, v⟩, ⟨hk, front, back, heq, hfront⟩, rfl⟩
    obtain rfl : k = key := of_decide_eq_true hk
    refine ⟨back.reverse, front.reverse, ?_, fun hmem => ?_⟩
    · rw [List.reverse_eq_iff.1 heq, List.reverse_append, List.reverse_cons, List.append_assoc,
        List.singleton_append]
    · obtain ⟨e, he, hkey⟩ := List.mem_map.1 hmem
      have hne := hfront e (List.mem_reverse.1 he)
      simp [hkey] at hne
  · rintro ⟨before, after, rfl, hafter⟩
    refine ⟨(key, value), ⟨decide_eq_true rfl, after.reverse, before.reverse, ?_, ?_⟩, rfl⟩
    · rw [List.reverse_append, List.reverse_cons, List.append_assoc, List.singleton_append]
    · intro e he
      have hne : e.1 ≠ key := by
        rintro rfl
        exact hafter (List.mem_map.2 ⟨e, List.mem_reverse.1 he, rfl⟩)
      simpa using hne

/-- Where no key occurs twice, the last value under a key is the only one. -/
theorem last?_eq_get? (h : (keys es).Nodup) (key : String) : last? es key = get? es key :=
  get?_of_perm h es.reverse_perm key

theorem putAll_concat (es pairs : List (String × α)) (p : String × α) :
    putAll es (pairs ++ [p]) = put (putAll es pairs) p.1 p.2 := by
  rw [putAll, List.foldl_append, List.foldl_cons, List.foldl_nil, putAll]

/-- Each key that is written stands where it was written first. -/
theorem keys_putAll_nil (pairs : List (String × α)) :
    keys (putAll [] pairs) = (keys pairs).eraseDups := by
  induction pairs using List.reverseRecOn with
  | nil => rfl
  | append_singleton pairs p ih =>
    have hkeys : keys (pairs ++ [p]) = keys pairs ++ [p.1] := List.map_append
    rw [putAll_concat, keys_put, ih, hkeys, List.eraseDups_append, List.cons_removeAll,
      List.nil_removeAll]
    by_cases h : p.1 ∈ keys pairs
    · rw [if_pos (List.mem_eraseDups.2 h), if_neg (by simpa using h), List.eraseDups_nil,
        List.append_nil]
    · rw [if_neg (mt List.mem_eraseDups.1 h), if_pos (by simpa using h)]
      rfl

theorem nodup_keys_putAll_nil (pairs : List (String × α)) : (keys (putAll [] pairs)).Nodup := by
  have hnil : (keys ([] : List (String × α))).Nodup := List.nodup_nil
  exact nodup_keys_putAll hnil pairs

theorem eraseDups_of_nodup {keys : List String} (h : keys.Nodup) : keys.eraseDups = keys := by
  induction keys with
  | nil => rfl
  | cons key keys ih =>
    obtain ⟨hkey, hkeys⟩ := List.nodup_cons.1 h
    have hfilter : keys.filter (fun other => !other == key) = keys := by
      refine List.filter_eq_self.2 fun other hother => ?_
      simpa using fun heq : other = key => hkey (heq ▸ hother)
    rw [List.eraseDups_cons, hfilter, ih hkeys]

/-- Pairs without a repeated key are kept as they are. -/
theorem putAll_nil_of_nodup {pairs : List (String × α)} (h : (keys pairs).Nodup) :
    putAll [] pairs = pairs := by
  refine eq_of_keys_eq (nodup_keys_putAll_nil pairs) ?_ fun e he => ?_
  · rw [keys_putAll_nil, eraseDups_of_nodup h]
  · exact (mem_putAll he).resolve_left List.not_mem_nil

/-- Written pairs are found as they were written last, and nothing else changes. -/
theorem get?_putAll (es pairs : List (String × α)) (key : String) :
    get? (putAll es pairs) key = (last? pairs key).or (get? es key) := by
  induction pairs using List.reverseRecOn with
  | nil => rfl
  | append_singleton pairs p ih =>
    rw [putAll_concat, get?_put, last?_concat]
    split
    · rfl
    · exact ih

/-! ## Erasing -/

theorem keys_erase (es : List (String × α)) (key : String) :
    keys (erase es key) = (keys es).filter (· ≠ key) := by
  rw [keys, keys, List.filter_map]
  rfl

theorem nodup_keys_erase (h : (keys es).Nodup) (key : String) : (keys (erase es key)).Nodup := by
  rw [keys_erase]
  exact h.filter _

theorem get?_erase (h : other ≠ key) (es : List (String × α)) :
    get? (erase es key) other = get? es other := by
  induction es with
  | nil => rfl
  | cons e es ih =>
    rw [erase] at ih ⊢
    by_cases hkey : e.1 = key
    · rw [List.filter_cons_of_neg (by simpa using hkey), ih, get?_cons,
        if_neg (fun hother => h (hother.symm.trans hkey))]
    · rw [List.filter_cons_of_pos (by simpa using hkey), get?_cons, get?_cons, ih]

end Criteria.Entries
