import Criteria.Program
import Criteria.Proofs.Calendar.Rfc3339
import Criteria.Proofs.Datum.Json
import Criteria.Proofs.Document.Shape
import Criteria.Proofs.Filter.Leaves
import Criteria.Proofs.Query

/-!
# Query documents in JSON

A value is writable when its dates are plain and its numbers are finite. Such a value has data
without a null (`Native.Writable.exists_toDatum`), and the values that literals denote are such
(`Filter.PlainLeaves.writable_toDocument`). Main statement (`Query.json_of_ofParams`): a query for a
document database has a text in JSON, and a null in it only where fields would stand.
-/

namespace Criteria

/-- Every date in a value is plain, and every number is finite. -/
structure Native.Writable (v : Native) : Prop where
  dates : ∀ t, Native.Inside (.date t) v → t.Plain
  doubles : ∀ x, Native.Inside (.double x) v → x.isFinite = true

/-! ## Writable values -/

namespace Native

variable {items : List Native} {entries : List (String × Native)}

theorem Writable.of_item (h : (array items).Writable) : ∀ item ∈ items, item.Writable :=
  fun _ hmem => ⟨fun t ht => h.dates t (.item hmem ht), fun x hx => h.doubles x (.item hmem hx)⟩

theorem Writable.of_entry (h : (document entries).Writable) : ∀ e ∈ entries, e.2.Writable :=
  fun _ hmem => ⟨fun t ht => h.dates t (.entry hmem ht), fun x hx => h.doubles x (.entry hmem hx)⟩

theorem writable_array (h : ∀ item ∈ items, item.Writable) : (array items).Writable where
  dates t ht := by
    cases ht with
    | item hmem hinside => exact (h _ hmem).dates t hinside
  doubles x hx := by
    cases hx with
    | item hmem hinside => exact (h _ hmem).doubles x hinside

theorem writable_document (h : ∀ e ∈ entries, e.2.Writable) : (document entries).Writable where
  dates t ht := by
    cases ht with
    | entry hmem hinside => exact (h _ hmem).dates t hinside
  doubles x hx := by
    cases hx with
    | entry hmem hinside => exact (h _ hmem).doubles x hinside

theorem writable_single {key : String} {value : Native} (h : value.Writable) :
    (single key value).Writable :=
  writable_document fun e he => by
    rw [List.mem_singleton.1 he]
    exact h

theorem writable_integer (n : Int) : (integer n).Writable :=
  ⟨fun _ h => (nomatch h), fun _ h => (nomatch h)⟩

theorem writable_text (s : String) : (text s).Writable :=
  ⟨fun _ h => (nomatch h), fun _ h => (nomatch h)⟩

theorem writable_ofLiteral {value : Literal} (h : value.Plain) : (ofLiteral value).Writable := by
  cases value with
  | date t => exact ⟨fun _ ht => by cases ht; exact h, fun _ hx => (nomatch hx)⟩
  | number x => exact ⟨fun _ ht => (nomatch ht), fun _ hx => by cases hx; exact h⟩
  | boolean b => exact ⟨fun _ ht => (nomatch ht), fun _ hx => (nomatch hx)⟩
  | pattern source => exact ⟨fun _ ht => (nomatch ht), fun _ hx => (nomatch hx)⟩

mutual

/-- A writable value has data, and no null in them. -/
theorem Writable.exists_toDatum : ∀ {v : Native}, v.Writable →
    ∃ d, v.toDatum = .ok d ∧ d.nullPaths = []
  | .boolean b, _ => ⟨_, rfl, rfl⟩
  | .integer n, _ => ⟨_, rfl, rfl⟩
  | .double x, h => ⟨_, rfl, by rw [Datum.nullPaths, if_pos (h.doubles x .self)]⟩
  | .text s, _ => ⟨_, rfl, rfl⟩
  | .date t, h => by
    obtain ⟨s, hs⟩ := (h.dates t .self).exists_rfc3339
    exact ⟨.object [("$date", .text s)], by rw [toDatum, hs]; rfl, rfl⟩
  | .regex pattern options, _ => ⟨_, rfl, rfl⟩
  | .array items, h => by
    obtain ⟨ds, hds, hnull⟩ := exists_itemsToData h.of_item []
    exact ⟨.array ds, by rw [toDatum, hds]; rfl, hnull⟩
  | .document entries, h => by
    obtain ⟨ds, hds, hnull⟩ := exists_entriesToData h.of_entry []
    exact ⟨.object ds, by rw [toDatum, hds]; rfl, hnull⟩

theorem exists_itemsToData : ∀ {items : List Native}, (∀ item ∈ items, item.Writable) →
    ∀ done, ∃ ds, itemsToData done items = .ok (done.reverse ++ ds) ∧
      Datum.itemNullPaths ds = []
  | [], _, done => ⟨[], by rw [itemsToData, List.append_nil], rfl⟩
  | item :: items, h, done => by
    obtain ⟨d, hd, hnull⟩ := Writable.exists_toDatum (h item List.mem_cons_self)
    obtain ⟨ds, hds, hnulls⟩ :=
      exists_itemsToData (fun x hx => h x (List.mem_cons_of_mem item hx)) (d :: done)
    refine ⟨d :: ds, ?_, ?_⟩
    · rw [itemsToData, hd]
      simpa using hds
    · rw [Datum.itemNullPaths, hnull, hnulls]
      rfl

theorem exists_entriesToData : ∀ {entries : List (String × Native)},
    (∀ e ∈ entries, e.2.Writable) →
      ∀ done, ∃ ds, entriesToData done entries = .ok (done.reverse ++ ds) ∧
        Datum.entryNullPaths ds = []
  | [], _, done => ⟨[], by rw [entriesToData, List.append_nil], rfl⟩
  | (key, value) :: entries, h, done => by
    obtain ⟨d, hd, hnull⟩ := Writable.exists_toDatum (h (key, value) List.mem_cons_self)
    obtain ⟨ds, hds, hnulls⟩ :=
      exists_entriesToData (fun e he => h e (List.mem_cons_of_mem _ he)) ((key, d) :: done)
    refine ⟨(key, d) :: ds, ?_, ?_⟩
    · rw [entriesToData, hd]
      simpa using hds
    · rw [Datum.entryNullPaths, hnull, hnulls]
      rfl

end

end Native

/-! ## The documents of a query -/

namespace Filter

open Native

theorem writable_textClause (words : String) : (document (textClause words)).Writable :=
  writable_single (writable_single (writable_text words))

theorem writable_comparisonClause (field : String) (c : Comparator) {value : Literal}
    (h : value.Plain) : (document (comparisonClause field c value)).Writable := by
  have hvalue := writable_ofLiteral h
  unfold comparisonClause
  split
  · exact writable_single hvalue
  · exact writable_single (writable_single hvalue)

/-- A document says no more than the leaves of its filter do. -/
theorem PlainLeaves.writable_toDocument {f : Filter} (hf : f.PlainLeaves) :
    (document f.toDocument).Writable := by
  induction hf with
  | comparison h =>
    rw [toDocument]
    exact writable_comparisonClause _ _ h.2
  | text =>
    rw [toDocument]
    exact writable_textClause _
  | @node c operands _ ih =>
    have hclause : ∀ ds, HasClauses operands ds → ∀ d ∈ ds, (document d).Writable := by
      intro ds hds d hd
      rcases hds.of_mem hd with ⟨words, rfl⟩ | ⟨f, hf, rfl⟩
      · exact writable_textClause words
      · exact ih f hf
    rcases toDocument_node_cases c operands with ⟨d, hds, hone⟩ | ⟨ds, hds, -, hmany⟩
    · rw [hone]
      exact hclause [d] hds d (List.mem_singleton_self d)
    · rw [hmany]
      refine writable_single (writable_array fun item hitem => ?_)
      obtain ⟨d, hd, rfl⟩ := List.mem_map.1 hitem
      exact hclause ds hds d hd

theorem writable_documentOf {text : String} {r : Option Filter} (h : parse text = .ok r) :
    (document (documentOf r)).Writable := by
  cases r with
  | none => exact writable_document fun _ he => (nomatch he)
  | some f =>
    obtain ⟨chain, hspells, -, -, rfl⟩ := parse_eq_some_iff_denotes.1 h
    exact hspells.plainLeaves.writable_toDocument

end Filter

theorem SortOrder.writable_toDocument (order : SortOrder) :
    (Native.document order.toDocument).Writable := by
  refine Native.writable_document fun e he => ?_
  rcases Entries.mem_putAll he with hnil | hmem
  · exact absurd hnil List.not_mem_nil
  · obtain ⟨k, -, rfl⟩ := List.mem_map.1 hmem
    exact Native.writable_integer _

namespace DocumentQuery

theorem writable_of_read {p : Params} {d : DocumentQuery} {log : List Warning}
    (h : (read p).outcome = (.ok d, log)) :
    (Native.document d.filter).Writable ∧ (Native.document d.sort).Writable := by
  obtain ⟨o, r, -, hparse, rfl, -⟩ := outcome_read_eq_ok_iff.1 h
  exact ⟨Filter.writable_documentOf hparse, o.sort.writable_toDocument⟩

/-- The data of a query have a null for the fields, if all of them are asked for, and no other. -/
theorem exists_toDatum {d : DocumentQuery} (hsort : (Native.document d.sort).Writable)
    {filter : Datum} (hfilter : (Native.document d.filter).toDatum = .ok filter)
    (hnull : filter.nullPaths = []) :
    ∃ data, d.toDatum = .ok data ∧
      data.nullPaths = if d.projection = none then [["projection"]] else [] := by
  obtain ⟨sort, hdata, hsortNull⟩ := hsort.exists_toDatum
  have htexts : ∀ fields : List String, Datum.itemNullPaths (fields.map .text) = [] := by
    intro fields
    induction fields with
    | nil => rfl
    | cons field fields ih => exact ih
  rw [toDatum, hdata, hfilter]
  refine ⟨_, rfl, ?_⟩
  cases d.projection with
  | none => simp [Datum.nullPaths, Datum.entryNullPaths, hsortNull, hnull]
  | some fields => simp [Datum.nullPaths, Datum.entryNullPaths, hsortNull, hnull, htexts]

end DocumentQuery

namespace Query

/-- **A translated query always has a text in JSON, and its filter has no null there.** In the
filter of a query for a document database every date is shown in universal time and in a year from 0
to 9999, so that it has a text, and every number is finite. So the text in JSON exists. In either
layout the part of the filter holds no null, and the whole holds one where the fields would stand,
if all of them are asked for, and no other. -/
theorem json_of_ofParams {p : Params} {q : Query} {log : List Warning}
    (h : ofParams .document p = (.ok q, log)) :
    ∃ (d : DocumentQuery) (filter data : Datum), q = document d ∧
      (Native.document d.filter).Writable ∧
      (∀ t, Native.Inside (.date t) (.document d.filter) → ∃ s, t.rfc3339 = .ok s) ∧
      (Native.document d.filter).toDatum = .ok filter ∧
      (∀ layout, Json.nullCount (Json.write layout filter) = 0) ∧
      d.toDatum = .ok data ∧
      data.nullPaths = (if d.projection = none then [["projection"]] else []) ∧
      (∀ layout, Json.nullCount (Json.write layout data) = if d.projection = none then 1 else 0) ∧
      Program.text .json q = .ok (Json.write .indented data ++ "\n") := by
  obtain ⟨d, hd, rfl, -⟩ := ofParams_document_eq_ok_iff.1 h
  obtain ⟨hwritable, hsort⟩ := DocumentQuery.writable_of_read hd
  obtain ⟨filter, hfilter, hnull⟩ := hwritable.exists_toDatum
  obtain ⟨data, hdata, hpaths⟩ := DocumentQuery.exists_toDatum hsort hfilter hnull
  refine ⟨d, filter, data, rfl, hwritable, fun t ht => (hwritable.dates t ht).exists_rfc3339,
    hfilter, fun layout => ?_, hdata, hpaths, fun layout => ?_, ?_⟩
  · rw [Json.nullCount_write, hnull]
    rfl
  · rw [Json.nullCount_write, hpaths]
    split <;> rfl
  · rw [Program.text, hdata]
    rfl

/-- The theorem at a date and a search for the word `null`, which is a text and no null. -/
theorem json_of_ofParams_date_and_word :
    ∃ (p : Params) (q : Query),
      p = Params.ofList [("filter", "born:>=1990-05-01 AND null")] ∧
      ofParams .document p = (.ok q, []) ∧
      ∃ (d : DocumentQuery) (filter data : Datum), q = document d ∧
        (Native.document d.filter).Writable ∧
        (∀ t, Native.Inside (.date t) (.document d.filter) → ∃ s, t.rfc3339 = .ok s) ∧
        (Native.document d.filter).toDatum = .ok filter ∧
        (∀ layout, Json.nullCount (Json.write layout filter) = 0) ∧
        d.toDatum = .ok data ∧
        data.nullPaths = (if d.projection = none then [["projection"]] else []) ∧
        (∀ layout, Json.nullCount (Json.write layout data) = if d.projection = none then 1 else 0) ∧
        Program.text .json q = .ok (Json.write .indented data ++ "\n") := by
  have hgap : Filter.IsGap [' '] := ⟨List.cons_ne_nil _ _, rfl⟩
  have hkey : ∀ name ∈ ["born", "null"], Text.IsKey name.toList := by
    simp only [Text.isKey_iff]
    decide
  have hvalue : Filter.IsValue "1990-05-01".toList :=
    .bare ((Text.isBareValue_iff _).2 (by decide))
  have hspells : Filter.Chain.Spells _ "born:>=1990-05-01 AND null".toList :=
    .more (c := .and) (.single (.comparison (c := .greaterEqual) (hkey "born" (by decide)) hvalue))
      hgap hgap (.word (hkey "null" (by decide)))
  have hparse := hspells.parse_eq (by decide) (by decide)
  have hoptions :
      (Options.read (Params.ofList [("filter", "born:>=1990-05-01 AND null")])).outcome =
        (.ok ⟨0, 50, [], [], .and⟩, []) := rfl
  have hread := ofParams_document_eq_ok_iff.2
    ⟨_, DocumentQuery.outcome_read_eq_ok_iff.2 ⟨_, _, hoptions, hparse, rfl, rfl⟩, rfl, rfl⟩
  exact ⟨_, _, rfl, hread, json_of_ofParams hread⟩

end Query

end Criteria
