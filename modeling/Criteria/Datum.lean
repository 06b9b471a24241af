import Criteria.Binary64

/-!
# Data trees

What the text formats for structured data have in common: truth values, numbers, texts, arrays and
objects, whose entries keep their order.
-/

namespace Criteria.Entries

/-! ## Entries

Lists of keys with values, in the order in which the keys first came. Writing a key that is there
already keeps its place and replaces its value, so the list holds no key twice, and a look-up gives
what was written last. -/

variable {α : Type}

/-- The keys in order. -/
def keys (es : List (String × α)) : List String := es.map Prod.fst

/-- Writes a value under a key. -/
def put (es : List (String × α)) (key : String) (value : α) : List (String × α) :=
  match es with
  | [] => [(key, value)]
  | e :: rest => if e.1 = key then (key, value) :: rest else e :: put rest key value

/-- The value under exactly a key. -/
def get? (es : List (String × α)) (key : String) : Option α :=
  match es with
  | [] => none
  | e :: rest => if e.1 = key then some e.2 else get? rest key

/-- Writes pairs in order, later ones over earlier ones. -/
def putAll (es pairs : List (String × α)) : List (String × α) :=
  pairs.foldl (fun es p => put es p.1 p.2) es

/-- Writing adds a key at the end unless it is there already. -/
theorem keys_put (es : List (String × α)) (key : String) (value : α) :
    keys (put es key value) = if key ∈ keys es then keys es else keys es ++ [key] := by
  induction es with
  | nil => simp [keys, put]
  | cons e rest ih =>
    simp only [keys] at ih ⊢
    by_cases h : e.1 = key
    · simp [put, h]
    · have hne : key ≠ e.1 := fun hk => h hk.symm
      by_cases hm : key ∈ rest.map Prod.fst
      · simp only [put, h, if_false, List.map_cons, ih, hm, if_true, List.mem_cons, or_true]
      · simp only [put, h, if_false, List.map_cons, ih, hm, List.mem_cons, hne, or_self,
          List.cons_append]

theorem nodup_keys_put {es : List (String × α)} (h : (keys es).Nodup) (key : String) (value : α) :
    (keys (put es key value)).Nodup := by
  rw [keys_put]
  split
  · exact h
  · next hk =>
    rw [List.nodup_append]
    refine ⟨h, List.nodup_cons.2 ⟨by simp, List.nodup_nil⟩, ?_⟩
    rintro a ha b hb rfl
    exact hk (by simpa [List.mem_singleton.1 hb] using ha)

theorem nodup_keys_putAll {es : List (String × α)} (h : (keys es).Nodup)
    (pairs : List (String × α)) : (keys (putAll es pairs)).Nodup := by
  induction pairs generalizing es with
  | nil => exact h
  | cons p rest ih => exact ih (nodup_keys_put h p.1 p.2)

/-- What an entry holds has been there or has been written. -/
theorem mem_put {es : List (String × α)} {key : String} {value : α} {e : String × α}
    (h : e ∈ put es key value) : e = (key, value) ∨ e ∈ es := by
  induction es with
  | nil => exact .inl (List.mem_singleton.1 h)
  | cons e' rest ih =>
    rw [put] at h
    split at h
    · exact (List.mem_cons.1 h).imp_right (List.mem_cons_of_mem e')
    · rcases List.mem_cons.1 h with rfl | hrest
      · exact .inr List.mem_cons_self
      · exact (ih hrest).imp_right (List.mem_cons_of_mem e')

theorem mem_putAll {es pairs : List (String × α)} {e : String × α} (h : e ∈ putAll es pairs) :
    e ∈ es ∨ e ∈ pairs := by
  induction pairs generalizing es with
  | nil => exact .inl h
  | cons p rest ih =>
    rcases ih h with hput | hrest
    · rcases mem_put hput with rfl | hes
      · exact .inr List.mem_cons_self
      · exact .inl hes
    · exact .inr (List.mem_cons_of_mem p hrest)

/-- A look-up gives what was written last. -/
theorem get?_put (es : List (String × α)) (key other : String) (value : α) :
    get? (put es key value) other = if key = other then some value else get? es other := by
  induction es with
  | nil => simp [put, get?]
  | cons e rest ih =>
    by_cases h : e.1 = key
    · by_cases ho : key = other <;> simp [put, get?, h, ho]
    · by_cases ho : e.1 = other
      · subst ho
        simp [put, get?, h, Ne.symm h]
      · simp [put, get?, h, ho, ih]

end Criteria.Entries

/-! ## Trees -/

namespace Criteria

/-- A tree of plain data. -/
inductive Datum where
  | null
  | boolean (value : Bool)
  | integer (value : Int)
  | number (value : Binary64)
  | text (value : String)
  | array (items : List Datum)
  | object (entries : List (String × Datum))
deriving Inhabited

/-- An integer that 64 binary digits hold, one of them for the sign. -/
def fitsWord (n : Int) : Bool := -0x8000000000000000 ≤ n && n < 0x8000000000000000

end Criteria
