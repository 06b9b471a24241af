import Criteria.Proofs.Query

/-!
# Sort documents

A document has each key once, so the sort document of an order resolves repeated fields: a field
stands where it occurs first and has the direction that it has last. Main statement
(`sort_resolved`): this determines the sort document, and it is how the sort orders that the two
backends take from one value differ.
-/

namespace Criteria

/-- The number that stands for a direction. -/
def Direction.sign : Direction → Int
  | .ascending => 1
  | .descending => -1

/-- The entry of a sort document for a key. -/
def SortKey.entry (k : SortKey) : String × Native := (k.field, .integer k.direction.sign)

namespace SortOrder

/-- A field has this direction where it occurs last. -/
def LastDirection (order : SortOrder) (field : String) (d : Direction) : Prop :=
  ∃ before after, order = before ++ ⟨field, d⟩ :: after ∧ ∀ k ∈ after, k.field ≠ field

/-- A document has the fields of an order by first occurrence, each with its last direction. -/
structure Resolves (order : SortOrder) (doc : Document) : Prop where
  fields : Entries.keys doc = (order.map SortKey.field).eraseDups
  directions : ∀ field value, (field, value) ∈ doc ↔
    ∃ d, order.LastDirection field d ∧ value = .integer d.sign

variable {order : SortOrder} {doc : Document} {field : String} {value : Native}

theorem toDocument_eq (order : SortOrder) :
    order.toDocument = Entries.putAll [] (order.map SortKey.entry) := rfl

theorem keys_map_entry (order : SortOrder) :
    Entries.keys (order.map SortKey.entry) = order.map SortKey.field := by
  rw [Entries.keys, List.map_map]
  rfl

theorem nodup_keys_toDocument (order : SortOrder) : (Entries.keys order.toDocument).Nodup :=
  Entries.nodup_keys_putAll_nil _

/-- The last entry for a field has its last direction. -/
theorem last?_map_entry_iff :
    Entries.last? (order.map SortKey.entry) field = some value ↔
      ∃ d, order.LastDirection field d ∧ value = .integer d.sign := by
  rw [Entries.last?_eq_some_iff]
  constructor
  · rintro ⟨front, back, heq, hback⟩
    obtain ⟨before, rest, rfl, -, hrest⟩ := List.map_eq_append_iff.1 heq
    obtain ⟨k, after, rfl, hk, rfl⟩ := List.map_eq_cons_iff.1 hrest
    obtain ⟨rfl, rfl⟩ := Prod.mk.inj hk
    rw [keys_map_entry] at hback
    refine ⟨k.direction, ⟨before, after, rfl, ?_⟩, rfl⟩
    intro k' hk' hfield
    exact hback (List.mem_map.2 ⟨k', hk', hfield⟩)
  · rintro ⟨d, ⟨before, after, rfl, hafter⟩, rfl⟩
    refine ⟨before.map SortKey.entry, after.map SortKey.entry, List.map_append, ?_⟩
    rw [keys_map_entry]
    intro hmem
    obtain ⟨k, hk, hfield⟩ := List.mem_map.1 hmem
    exact hafter k hk hfield

theorem resolves_toDocument (order : SortOrder) : order.Resolves order.toDocument where
  fields := by rw [toDocument_eq, Entries.keys_putAll_nil, keys_map_entry]
  directions field value := by
    rw [← Entries.get?_eq_some_iff order.nodup_keys_toDocument, toDocument_eq,
      Entries.get?_putAll, ← last?_map_entry_iff]
    exact Iff.of_eq (congrArg (· = some value) Option.or_none)

/-- An order is resolved in one way only. -/
theorem Resolves.eq_toDocument (h : order.Resolves doc) : doc = order.toDocument := by
  have hresolves := order.resolves_toDocument
  have hkeys : Entries.keys doc = Entries.keys order.toDocument :=
    h.fields.trans hresolves.fields.symm
  refine Entries.eq_of_keys_eq (hkeys ▸ order.nodup_keys_toDocument) hkeys ?_
  rintro ⟨field, value⟩ he
  exact (hresolves.directions field value).2 ((h.directions field value).1 he)

theorem toDocument_of_nodup (h : (order.map SortKey.field).Nodup) :
    order.toDocument = order.map SortKey.entry := by
  rw [toDocument_eq, Entries.putAll_nil_of_nodup]
  rwa [keys_map_entry]

/-- The fields of the sort document are those of the order, in its order, unless one repeats. -/
theorem keys_toDocument_iff :
    Entries.keys order.toDocument = order.map SortKey.field ↔ (order.map SortKey.field).Nodup := by
  constructor
  · intro h
    rw [← h]
    exact order.nodup_keys_toDocument
  · intro h
    rw [toDocument_of_nodup h, keys_map_entry]

end SortOrder

namespace Query

/-- **A sort document keeps first places and last directions.** The sort document of an order is the
one that has the distinct fields of the order by first occurrence, each with 1 or -1 for the
direction of its last occurrence. Where the same value of `sort` is accepted on both backends, the
tokens of the search query are the words of the value, and the sort document of the query document
resolves them in this way. The two list the same fields in the same order exactly where no field
repeats, and then every field has the direction of its only token. -/
theorem sort_resolved :
    (∀ (order : SortOrder) (doc : Document), doc = order.toDocument ↔ order.Resolves doc) ∧
    (∀ p p' q q' log log', p.get? Parameter.sort.name = p'.get? Parameter.sort.name →
      ofParams .search p = (.ok q, log) → ofParams .document p' = (.ok q', log') →
      ∃ s d, q = search s ∧ q' = document d ∧
        s.sort.map SortKey.display =
          Text.wordsOf ((p.get? Parameter.sort.name).getD "") ∧
        s.sort.Resolves d.sort ∧
        (Entries.keys d.sort = s.sort.map SortKey.field ↔
          (s.sort.map SortKey.field).Nodup) ∧
        ((s.sort.map SortKey.field).Nodup → d.sort = s.sort.map SortKey.entry)) := by
  constructor
  · intro order doc
    constructor
    · rintro rfl
      exact order.resolves_toDocument
    · exact SortOrder.Resolves.eq_toDocument
  · intro p p' q q' log log' hget hq hq'
    obtain ⟨s, hs, rfl, -⟩ := ofParams_search_eq_ok_iff.1 hq
    obtain ⟨d, hd, rfl, -⟩ := ofParams_document_eq_ok_iff.1 hq'
    obtain ⟨o, terms, ho, -, rfl, -⟩ := SearchQuery.outcome_read_eq_ok_iff.1 hs
    obtain ⟨o', f, ho', -, rfl, -⟩ := DocumentQuery.outcome_read_eq_ok_iff.1 hd
    -- both orders are read from the same text
    have hsort : o'.sort = o.sort := by
      obtain ⟨-, -, hread, -⟩ := Options.outcome_read_eq_ok_iff.1 ho
      obtain ⟨-, -, hread', -⟩ := Options.outcome_read_eq_ok_iff.1 ho'
      rw [Options.readSort_congr hget] at hread
      exact Except.ok.inj (Prod.mk.inj (hread'.symm.trans hread)).1
    refine ⟨_, _, rfl, rfl, (Options.wordsOf_sort_eq ho).1.symm, ?_⟩
    simp only [hsort]
    exact ⟨o.sort.resolves_toDocument, SortOrder.keys_toDocument_iff,
      SortOrder.toDocument_of_nodup⟩

/-- Of three tokens for two fields the document has the first places and the last directions. -/
theorem sort_resolved_repeated_field :
    ∃ (p : Params) (s : SearchQuery) (d : DocumentQuery),
      p = Params.ofList [("sort", "name:asc age:asc name:desc")] ∧
      ofParams .search p = (.ok (search s), []) ∧ ofParams .document p = (.ok (document d), []) ∧
      s.sort.Resolves d.sort ∧ d.sort = [("name", .integer (-1)), ("age", .integer 1)] := by
  have hoptions :
      (Options.read (Params.ofList [("sort", "name:asc age:asc name:desc")])).outcome =
        (.ok ⟨0, 50, [⟨"name", .ascending⟩, ⟨"age", .ascending⟩, ⟨"name", .descending⟩], [], .and⟩,
          []) := rfl
  have hsearch := ofParams_search_eq_ok_iff.2
    ⟨_, SearchQuery.outcome_read_eq_ok_iff.2 ⟨_, _, hoptions, rfl, rfl, rfl⟩, rfl, rfl⟩
  have hdocument := ofParams_document_eq_ok_iff.2
    ⟨_, DocumentQuery.outcome_read_eq_ok_iff.2 ⟨_, _, hoptions, rfl, rfl, rfl⟩, rfl, rfl⟩
  obtain ⟨s, d, hs, hd, -, hresolves, -⟩ := sort_resolved.2 _ _ _ _ _ _ rfl hsearch hdocument
  cases hs
  cases hd
  exact ⟨_, _, _, rfl, hsearch, hdocument, hresolves, rfl⟩

end Query

end Criteria
