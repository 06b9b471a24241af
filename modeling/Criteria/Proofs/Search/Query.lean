import Criteria.Proofs.Flat.Rendering
import Criteria.Proofs.Options
import Criteria.Proofs.Search.QueryString
import Criteria.Query

/-!
# What a search query says

The query string of a search query is assembled from pairs of names and values
(`rawText_eq_assemble`). Options and filters are checked against alphabets without the characters
that end a value; only the fields to give are not checked. Main statement
(`pairs_text_eq_requested_iff`): the query string that parameters come to says what they ask for
exactly when no field has a `&` or a `#`.
-/

namespace Criteria

namespace QueryString

theorem contained_append {s t : List Char} : Contained (s ++ t) ↔ Contained s ∧ Contained t := by
  simp only [Contained, List.mem_append, not_or]
  exact and_and_and_comm

/-- Texts over a class without the two characters are contained. -/
theorem contained_of_all {p : Char → Bool} (hand : p '&' = false) (hhash : p '#' = false)
    {s : List Char} (h : s.all p = true) : Contained s :=
  ⟨Text.not_mem_of_class h hand, Text.not_mem_of_class h hhash⟩

theorem contained_of_isKey {s : List Char} (h : Text.IsKey s) : Contained s :=
  contained_of_all rfl rfl ((Text.isKey_iff s).1 h).2

theorem contained_of_isBareValue {s : List Char} (h : Text.IsBareValue s) : Contained s :=
  contained_of_all rfl rfl ((Text.isBareValue_iff s).1 h).2

theorem contained_toString (n : Nat) : Contained (toString n).toList :=
  contained_of_all rfl rfl (Text.all_isDigit_toString n)

/-- A joined text is contained exactly when its parts are, since blanks may join them. -/
theorem contained_intercalate {parts : List String} :
    Contained (" ".intercalate parts).toList ↔ ∀ s ∈ parts, Contained s.toList := by
  have hblank : Contained " ".toList := ⟨by decide, by decide⟩
  induction parts with
  | nil => exact ⟨fun _ => nofun, fun _ => ⟨List.not_mem_nil, List.not_mem_nil⟩⟩
  | cons s parts ih =>
    cases parts with
    | nil => rw [String.intercalate_singleton, List.forall_mem_singleton]
    | cons t parts =>
      rw [String.intercalate_cons_cons, String.toList_append, String.toList_append,
        contained_append, contained_append, List.forall_mem_cons]
      constructor
      · intro h
        exact ⟨h.1.1, ih.1 h.2⟩
      · intro h
        exact ⟨⟨h.1, hblank⟩, ih.2 h.2⟩

end QueryString

namespace SearchQuery

open QueryString

/-- The names and values of a query string; without a filter it has no connector either. -/
def pairs (q : SearchQuery) : List (String × String) :=
  [("from", toString q.start.toNat), ("size", toString q.size.toNat), ("sort", q.sort.display),
    ("_source", " ".intercalate q.source)] ++
    if q.filter = "" then []
    else [("default_operator", q.defaultOperator.word), ("q", q.filter)]

theorem rawText_eq_assemble (q : SearchQuery) :
    q.rawText = String.ofList ('?' :: assemble q.pairs) := by
  refine String.toList_inj.1 ?_
  unfold rawText pairs
  split
  · simp [assemble, piece]
  · simp [assemble, piece]

theorem isName_of_mem_pairs {q : SearchQuery} : ∀ p ∈ q.pairs, IsName p.1.toList := by
  have hnames : ∀ p ∈ q.pairs,
      p.1 ∈ ["from", "size", "sort", "_source", "default_operator", "q"] := by
    unfold pairs
    split <;> simp
  have hname : ∀ name ∈ ["from", "size", "sort", "_source", "default_operator", "q"],
      IsName name.toList := by
    unfold IsName Contained
    decide
  exact fun p hp => hname p.1 (hnames p hp)

/-- A query string is read as the pairs of its query exactly when no value has a `&` or a `#`. -/
theorem pairs_text_eq_iff (q : SearchQuery) :
    QueryString.pairs q.text = q.pairs.map (fun p => (p.1, some p.2)) ↔
      ∀ p ∈ q.pairs, Contained p.2.toList := by
  rw [text, rawText_eq_assemble]
  exact pairs_encodeUri_assemble isName_of_mem_pairs

/-! ## Accepted parameters -/

theorem contained_display {k : SortKey} (h : k.Valid) : Contained k.display.toList := by
  have hdirection : Contained (':' :: k.direction.word.toList) := by
    unfold Contained
    cases k.direction <;> decide
  rw [SortKey.toList_display, contained_append]
  exact ⟨contained_of_isKey h, hdirection⟩

theorem contained_render {term : Flat.Term} (h : term.Valid) :
    Contained term.render.toList := by
  cases h with
  | @text mark word hword _ =>
    rw [Flat.Term.render, Flat.toList_display_text, contained_append]
    refine ⟨?_, contained_of_isKey hword⟩
    unfold Contained
    rcases mark with _ | _ | _ <;> decide
  | @comparison field value c hfield hvalue =>
    have hfield := contained_of_isKey hfield
    have hvalue := contained_of_isBareValue hvalue
    unfold Contained at hfield hvalue ⊢
    cases c <;> simp [Flat.Term.render, hfield, hvalue]

theorem readFilter_eq (p : Params) : readFilter p =
    Validation.ofFilter Flat.Reason.message
      (Flat.parse ((p.get? Parameter.filter.name).getD "")) := by
  unfold readFilter
  dsimp only
  cases Flat.parse ((p.get? Parameter.filter.name).getD "") <;> rfl

theorem settled_readFilter (p : Params) : Validation.Settled (readFilter p) := by
  rw [readFilter_eq]
  exact Validation.settled_ofFilter

theorem outcome_readFilter_eq_ok_iff {p : Params} {terms : List Flat.Term} {log : List Warning} :
    (readFilter p).outcome = (.ok terms, log) ↔
      Flat.parse ((p.get? Parameter.filter.name).getD "") = .ok terms ∧ log = [] := by
  rw [readFilter_eq, Validation.outcome_ofFilter_eq_ok_iff]

/-- Parameters are accepted exactly when the options and the filter are. -/
theorem outcome_read_eq_ok_iff {p : Params} {q : SearchQuery} {log : List Warning} :
    (read p).outcome = (.ok q, log) ↔
      ∃ o terms, (Options.read p).outcome = (.ok o, []) ∧
        Flat.parse ((p.get? Parameter.filter.name).getD "") = .ok terms ∧
          q = ⟨o.skip, o.limit, o.sort, o.fields, o.defaultOperator, Flat.render terms⟩ ∧
            log = [] := by
  unfold read
  rw [Validation.outcome_bind_eq_ok_iff (Options.settled_read p)]
  simp only [Validation.outcome_bind_eq_ok_iff (settled_readFilter p),
    outcome_readFilter_eq_ok_iff, Validation.outcome_pure_eq_ok_iff]
  constructor
  · rintro ⟨o, ho, terms, ⟨hterms, -⟩, rfl, hlog⟩
    exact ⟨o, terms, ho, hterms, rfl, hlog⟩
  · rintro ⟨o, terms, ho, hterms, rfl, hlog⟩
    exact ⟨o, ho, terms, ⟨hterms, trivial⟩, rfl, hlog⟩

/-- The words of a parameter as they were given. -/
def givenWords (p : Params) (q : Parameter) : List String :=
  Text.wordsOf ((p.get? q.name).getD "")

/-- Fields are not checked: they are the words that were given. -/
theorem readFields_eq_givenWords (p : Params) : Options.readFields p = givenWords p .fields := by
  rw [Options.readFields, Params.getTrimmed, givenWords]
  cases p.get? Parameter.fields.name with
  | none => rfl
  | some value => exact Text.wordsOf_trim value

/-- The pairs that parameters ask for, given the checked options and the terms of the filter: sort
tokens and fields as they were given, and a connector only where a filter was given. -/
def requested (p : Params) (o : Options) (terms : List Flat.Term) : List (String × String) :=
  [("from", toString o.skip.toNat), ("size", toString o.limit.toNat),
    ("sort", " ".intercalate (givenWords p .sort)),
    ("_source", " ".intercalate (givenWords p .fields))] ++
    if (p.get? Parameter.filter.name).isSome then
      [("default_operator", o.defaultOperator.word), ("q", Flat.render terms)]
    else []

theorem blank_eq_false_of_get? {p : Params} {key value : String} (h : p.get? key = some value) :
    Text.blank value.toList = false := by
  have hkept := (Option.filter_eq_some_iff.1 h).2
  rwa [Bool.not_eq_true'] at hkept

/-- A filter is rendered as the empty text exactly when it is absent. -/
theorem render_eq_empty_iff {p : Params} {terms : List Flat.Term}
    (h : Flat.parse ((p.get? Parameter.filter.name).getD "") = .ok terms) :
    Flat.render terms = "" ↔ (p.get? Parameter.filter.name).isSome = false := by
  obtain ⟨hwords, hvalid⟩ := Flat.parse_eq_ok_iff.1 h
  rw [Flat.render_eq_empty_iff hvalid, ← List.map_eq_nil_iff, ← hwords,
    Text.wordsOf_eq_nil_iff]
  cases hget : p.get? Parameter.filter.name with
  | none => exact ⟨fun _ => rfl, fun _ => rfl⟩
  | some value =>
    rw [Option.getD_some, blank_eq_false_of_get? hget]
    exact ⟨nofun, nofun⟩

/-- The pairs of an accepted query are those that its parameters ask for. -/
theorem pairs_eq_requested {p : Params} {o : Options} {terms : List Flat.Term}
    (ho : (Options.read p).outcome = (.ok o, []))
    (hterms : Flat.parse ((p.get? Parameter.filter.name).getD "") = .ok terms) :
    pairs ⟨o.skip, o.limit, o.sort, o.fields, o.defaultOperator, Flat.render terms⟩ =
      requested p o terms := by
  obtain ⟨hsort, -⟩ := Options.wordsOf_sort_eq ho
  obtain ⟨-, -, -, hfields, -⟩ := Options.outcome_read_eq_ok_iff.1 ho
  have hempty := render_eq_empty_iff hterms
  rw [pairs, requested, givenWords, hsort, hfields, readFields_eq_givenWords]
  cases hget : (p.get? Parameter.filter.name).isSome with
  | false => rw [if_pos (hempty.2 hget), if_neg Bool.false_ne_true, SortOrder.display]
  | true =>
    have hne : Flat.render terms ≠ "" := by
      intro h
      rw [hempty.1 h] at hget
      exact Bool.false_ne_true hget
    rw [if_neg hne, if_pos rfl, SortOrder.display]

/-- Of the values that are asked for only the fields may hold a character that ends one. -/
theorem contained_requested_iff {p : Params} {o : Options} {terms : List Flat.Term}
    (ho : (Options.read p).outcome = (.ok o, []))
    (hterms : Flat.parse ((p.get? Parameter.filter.name).getD "") = .ok terms) :
    (∀ pair ∈ requested p o terms, Contained pair.2.toList) ↔
      ∀ token ∈ givenWords p .fields, Contained token.toList := by
  obtain ⟨hwords, hkeys⟩ := Options.wordsOf_sort_eq ho
  rw [← givenWords.eq_def p .sort] at hwords
  have hsort : Contained (" ".intercalate (o.sort.map SortKey.display)).toList := by
    refine contained_intercalate.2 ?_
    intro s hs
    obtain ⟨k, hk, rfl⟩ := List.mem_map.1 hs
    exact contained_display (hkeys k hk)
  have hfilter : Contained (Flat.render terms).toList := by
    refine contained_intercalate.2 ?_
    intro s hs
    obtain ⟨term, hterm, rfl⟩ := List.mem_map.1 hs
    exact contained_render ((Flat.parse_eq_ok_iff.1 hterms).2 term hterm)
  have hoperator : Contained o.defaultOperator.word.toList := by
    unfold Contained
    cases o.defaultOperator <;> decide
  constructor
  · intro h
    have hmem : ("_source", " ".intercalate (givenWords p .fields)) ∈ requested p o terms :=
      List.mem_append_left _ (by simp)
    have hsource := h _ hmem
    exact contained_intercalate.1 hsource
  · intro h pair hpair
    rcases List.mem_append.1 hpair with hpair | hpair
    · rw [hwords] at hpair
      simp only [List.mem_cons, List.not_mem_nil, or_false] at hpair
      rcases hpair with rfl | rfl | rfl | rfl
      · exact contained_toString _
      · exact contained_toString _
      · exact hsort
      · exact contained_intercalate.2 h
    · split at hpair
      · simp only [List.mem_cons, List.not_mem_nil, or_false] at hpair
        rcases hpair with rfl | rfl
        · exact hoperator
        · exact hfilter
      · exact absurd hpair List.not_mem_nil

/-- **A query string says what its parameters ask for, unless a field breaks it up.** For all
parameters that are accepted, the query string is read as the pairs that they ask for exactly when
no field has a `&` or a `#`; no other parameter can add, hide or change a pair. -/
theorem pairs_text_eq_requested_iff (p : Params) (q : SearchQuery) (log : List Warning)
    (h : (read p).outcome = (.ok q, log)) :
    ∃ (o : Options) (terms : List Flat.Term),
      (Options.read p).outcome = (.ok o, []) ∧
      Flat.parse ((p.get? Parameter.filter.name).getD "") = .ok terms ∧
      (QueryString.pairs q.text = (requested p o terms).map (fun pair => (pair.1, some pair.2)) ↔
        ∀ token ∈ givenWords p .fields, '&' ∉ token.toList ∧ '#' ∉ token.toList) := by
  obtain ⟨o, terms, ho, hterms, rfl, -⟩ := outcome_read_eq_ok_iff.1 h
  refine ⟨o, terms, ho, hterms, ?_⟩
  have hiff := pairs_text_eq_iff
    ⟨o.skip, o.limit, o.sort, o.fields, o.defaultOperator, Flat.render terms⟩
  rw [pairs_eq_requested ho hterms] at hiff
  exact hiff.trans (contained_requested_iff ho hterms)

/-- The theorem at a field that sets a size of its own: the query string has another pair than
those that are asked for. -/
theorem pairs_text_eq_requested_iff_field_with_size :
    ∃ (p : Params) (q : SearchQuery) (o : Options) (terms : List Flat.Term),
      p = Params.ofList [("fields", "name a&size=9"), ("sort", "year:desc"),
        ("filter", "state:==open +peace")] ∧
      (read p).outcome = (.ok q, []) ∧
      (Options.read p).outcome = (.ok o, []) ∧
      Flat.parse ((p.get? Parameter.filter.name).getD "") = .ok terms ∧
      QueryString.pairs q.text = [("from", some "0"), ("size", some "50"),
        ("sort", some "year:desc"), ("_source", some "name a"), ("size", some "9"),
        ("default_operator", some "AND"), ("q", some "state:open +peace")] ∧
      requested p o terms = [("from", "0"), ("size", "50"), ("sort", "year:desc"),
        ("_source", "name a&size=9"), ("default_operator", "AND"), ("q", "state:open +peace")] ∧
      ¬ (QueryString.pairs q.text = (requested p o terms).map (fun pair => (pair.1, some pair.2))) ∧
      ∃ token ∈ givenWords p .fields, '&' ∈ token.toList := by
  obtain ⟨p, hp⟩ : ∃ p, p = Params.ofList [("fields", "name a&size=9"), ("sort", "year:desc"),
    ("filter", "state:==open +peace")] := ⟨_, rfl⟩
  have hread : (read p).outcome = (.ok ⟨0, 50, [⟨"year", .descending⟩], ["name", "a&size=9"], .and,
      "state:open +peace"⟩, []) := by
    rw [hp]
    rfl
  have hoptions : (Options.read p).outcome =
      (.ok ⟨0, 50, [⟨"year", .descending⟩], ["name", "a&size=9"], .and⟩, []) := by
    rw [hp]
    rfl
  have hfilter : Flat.parse ((p.get? Parameter.filter.name).getD "") =
      .ok [.comparison "state" .equal "open", .text (some .required) "peace"] := by
    rw [hp]
    rfl
  have hfield : "a&size=9" ∈ givenWords p .fields := by
    rw [hp]
    decide +kernel
  have hmark : '&' ∈ "a&size=9".toList := by decide
  obtain ⟨o, terms, ho, hterms, hiff⟩ := pairs_text_eq_requested_iff p _ [] hread
  obtain rfl := Except.ok.inj (congrArg Prod.fst (ho.symm.trans hoptions))
  obtain rfl := Except.ok.inj (hterms.symm.trans hfilter)
  refine ⟨p, _, _, _, hp, hread, hoptions, hfilter, by decide +kernel, ?_, ?_, _, hfield,
    hmark⟩
  · rw [hp]
    decide +kernel
  · intro heq
    exact (hiff.1 heq _ hfield).1 hmark

end SearchQuery

end Criteria
