import Criteria.Proofs.Params.Acceptance
import Criteria.Proofs.Params.Lookup
import Criteria.Proofs.Search.Query

/-!
# What parameters come to

On either backend the parameters are checked in one order, the filter last (`checks_read`). Main
statements: parameters come to a query without a warning, or to the first of them that is not
acceptable with one warning about it, and the backends differ in the filter only
(`ofParams_outcome`); and texts under names that are no parameter's have no bearing on anything, the
default connector has none on a query document beyond being acceptable, and the filter has none on
the options of a search query (`ofParams_noninterference`).
-/

namespace Criteria.DocumentQuery

/-! ## Accepted queries for document databases -/

theorem readFilter_eq (p : Params) : readFilter p =
    Validation.ofFilter Filter.Reason.message
      (Filter.parse ((p.get? Parameter.filter.name).getD "")) := by
  unfold readFilter
  dsimp only
  cases Filter.parse ((p.get? Parameter.filter.name).getD "") <;> rfl

theorem settled_readFilter (p : Params) : Validation.Settled (readFilter p) := by
  rw [readFilter_eq]
  exact Validation.settled_ofFilter

theorem outcome_readFilter_eq_ok_iff {p : Params} {f : Option Filter} {log : List Warning} :
    (readFilter p).outcome = (.ok f, log) ↔
      Filter.parse ((p.get? Parameter.filter.name).getD "") = .ok f ∧ log = [] := by
  rw [readFilter_eq, Validation.outcome_ofFilter_eq_ok_iff]

/-- Parameters are accepted exactly when the options and the filter are. -/
theorem outcome_read_eq_ok_iff {p : Params} {q : DocumentQuery} {log : List Warning} :
    (read p).outcome = (.ok q, log) ↔
      ∃ o f, (Options.read p).outcome = (.ok o, []) ∧
        Filter.parse ((p.get? Parameter.filter.name).getD "") = .ok f ∧
          q = { skip := o.skip
                limit := o.limit
                sort := o.sort.toDocument
                projection := if o.fields.isEmpty then none else some o.fields
                filter := Filter.documentOf f } ∧ log = [] := by
  unfold read
  rw [Validation.outcome_bind_eq_ok_iff (Options.settled_read p)]
  simp only [Validation.outcome_bind_eq_ok_iff (settled_readFilter p),
    outcome_readFilter_eq_ok_iff, Validation.outcome_pure_eq_ok_iff]
  constructor
  · rintro ⟨o, ho, f, ⟨hf, -⟩, rfl, hlog⟩
    exact ⟨o, f, ho, hf, rfl, hlog⟩
  · rintro ⟨o, f, ho, hf, rfl, hlog⟩
    exact ⟨o, ho, f, ⟨hf, trivial⟩, rfl, hlog⟩

end Criteria.DocumentQuery

/-! ## The first bad parameter -/

namespace Criteria

/-- The order in which options are checked; fields are never rejected. -/
def Options.checkOrder : List Parameter := [.skip, .limit, .sort, .defaultOperator]

/-- The order in which parameters are checked. -/
def Query.checkOrder : List Parameter := Options.checkOrder ++ [.filter]

/-! ### Options -/

namespace Options

variable {b : Backend} {p : Params}

theorem checks_readCount {q : Parameter} {default : UInt64}
    (haccepts : ∀ value, q.Accepts b value ↔ ∃ n, IsCount value n)
    (hreason : ∀ value, q.reason? b value = none) :
    Checks b p [q] (readCount p q default) := by
  unfold readCount
  cases hget : p.get? q.name with
  | none => exact Checks.of_absent hget default
  | some value =>
    refine Checks.orReject hget ?_ (hreason value)
    simp only [haccepts, readCount?_eq_some_iff]

theorem checks_readSort : Checks b p [.sort] (readSort p) := by
  unfold readSort
  cases hget : p.get? Parameter.sort.name with
  | none => exact Checks.of_absent hget []
  | some value => exact Checks.orReject hget exists_readSortOrder?_eq_some_iff rfl

theorem checks_readDefaultOperator : Checks b p [.defaultOperator] (readDefaultOperator p) := by
  unfold readDefaultOperator
  cases hget : p.get? Parameter.defaultOperator.name with
  | none => exact Checks.of_absent hget Connector.and
  | some value =>
    refine Checks.orReject hget ?_ rfl
    simp only [readConnector?_eq_some_iff, Parameter.Accepts]

/-- Options are checked in their order, whatever the backend. -/
theorem checks_read (b : Backend) (p : Params) : Checks b p checkOrder (read p) := by
  unfold read
  have hskip : Checks b p [.skip] (readSkip p) :=
    checks_readCount (fun _ => Iff.rfl) fun _ => rfl
  have hlimit : Checks b p [.limit] (readLimit p) :=
    checks_readCount (fun _ => Iff.rfl) fun _ => rfl
  exact hskip.bind fun _ => hlimit.bind fun _ => checks_readSort.bind fun _ =>
    checks_readDefaultOperator.bind fun _ => Checks.nil _

end Options

/-! ### Filters -/

/-- A filter is checked by the grammar of the backend; an absent one is read as an empty text. -/
theorem Checks.of_filter {ρ τ : Type} {b : Backend} {p : Params}
    (parse : String → Except (Filter.Refusal ρ) τ) (message : ρ → String)
    (hempty : ∃ r, parse "" = .ok r)
    (haccepts : ∀ text, (∃ r, parse text = .ok r) ↔ b.AcceptsFilter text)
    (hrefuses : ∀ {text refusal}, parse text = .error refusal →
      refusal.filter = text ∧ b.filterReason? text = some (message refusal.reason)) :
    Checks b p [.filter]
      (Validation.ofFilter message (parse ((p.get? Parameter.filter.name).getD ""))) := by
  cases hget : p.get? Parameter.filter.name with
  | none =>
    obtain ⟨r, hr⟩ := hempty
    rw [Option.getD_none, hr]
    exact Checks.of_absent hget r
  | some value =>
    rw [Option.getD_some]
    cases hparse : parse value with
    | ok r => exact Checks.of_accepts hget ((haccepts value).1 ⟨r, hparse⟩) r
    | error refusal =>
      have hrejects : ¬ Parameter.filter.Accepts b value := by
        intro h
        obtain ⟨r, hr⟩ := (haccepts value).2 h
        exact nomatch hr.symm.trans hparse
      obtain ⟨hfilter, hreason⟩ := hrefuses hparse
      rw [Validation.ofFilter, hfilter, ← hreason]
      exact Checks.of_rejects hget hrejects

theorem SearchQuery.checks_readFilter (p : Params) : Checks .search p [.filter] (readFilter p) := by
  rw [readFilter_eq]
  refine Checks.of_filter Flat.parse Flat.Reason.message ⟨[], rfl⟩ (fun text => ?_)
    (fun {text refusal} h => ?_)
  · simp only [Flat.exists_parse_eq_ok_iff, Flat.Term.exists_parse_eq_ok_iff]
    exact Iff.rfl
  · refine ⟨(Flat.parse_eq_error_iff.1 h).1, ?_⟩
    rw [Backend.filterReason?, h]

theorem DocumentQuery.checks_readFilter (p : Params) :
    Checks .document p [.filter] (readFilter p) := by
  rw [readFilter_eq]
  refine Checks.of_filter Filter.parse Filter.Reason.message ⟨none, rfl⟩ (fun text => ?_)
    (fun {text refusal} h => ?_)
  · exact Filter.exists_parse_eq_ok_iff
  · refine ⟨Filter.filter_of_parse_eq_error h, ?_⟩
    rw [Backend.filterReason?, h]

/-! ### Queries -/

theorem SearchQuery.checks_read (p : Params) : Checks .search p Query.checkOrder (read p) :=
  (Options.checks_read .search p).bind fun _ => (checks_readFilter p).map _

theorem DocumentQuery.checks_read (p : Params) : Checks .document p Query.checkOrder (read p) :=
  (Options.checks_read .document p).bind fun _ => (checks_readFilter p).map _

namespace Query

/-- All parameters are checked in one order, on the search engine and on the database alike. -/
theorem checks_read (b : Backend) (p : Params) : Checks b p checkOrder (read b p) := by
  cases b with
  | search => exact (SearchQuery.checks_read p).map search
  | document => exact (DocumentQuery.checks_read p).map document

/-- What rejects the options rejects a query on either backend. -/
theorem ofParams_eq_of_options {p : Params} {e : InvalidParameter} {log : List Warning}
    (h : (Options.read p).outcome = (.error e, log)) (b : Backend) :
    ofParams b p = (.error e, log) := by
  have hoptions := Options.settled_read p
  cases b with
  | search =>
    rw [ofParams, read, Validation.outcome_map_eq_error_iff (SearchQuery.checks_read p).settled]
    exact (Validation.outcome_bind_eq_error_iff hoptions).2 (.inl h)
  | document =>
    rw [ofParams, read, Validation.outcome_map_eq_error_iff (DocumentQuery.checks_read p).settled]
    exact (Validation.outcome_bind_eq_error_iff hoptions).2 (.inl h)

/-- An option that is not acceptable is rejected in the same way on both backends. -/
theorem exists_ofParams_eq_of_not_acceptable {p : Params} {q : Parameter}
    (hq : q ∈ Options.checkOrder) {b : Backend} (h : ¬ p.Acceptable b q) :
    ∃ e log, ∀ b', ofParams b' p = (.error e, log) := by
  have hchecks := Options.checks_read b p
  cases houtcome : (Options.read p).outcome with
  | mk result log =>
    cases result with
    | error e => exact ⟨e, log, ofParams_eq_of_options houtcome⟩
    | ok o =>
      obtain rfl := hchecks.settled.eq_nil_of_outcome_eq_ok houtcome
      exact absurd (hchecks.accepts.1 ⟨o, houtcome⟩ q hq) h

theorem ofParams_search_eq_ok_iff {p : Params} {q : Query} {log : List Warning} :
    ofParams .search p = (.ok q, log) ↔
      ∃ s, (SearchQuery.read p).outcome = (.ok s, []) ∧ search s = q ∧ log = [] :=
  Validation.outcome_map_eq_ok_iff (SearchQuery.checks_read p).settled

theorem ofParams_document_eq_ok_iff {p : Params} {q : Query} {log : List Warning} :
    ofParams .document p = (.ok q, log) ↔
      ∃ d, (DocumentQuery.read p).outcome = (.ok d, []) ∧ document d = q ∧ log = [] :=
  Validation.outcome_map_eq_ok_iff (DocumentQuery.checks_read p).settled

/-- Two queries for either backend agree on what to skip, how much to give and which fields. -/
structure SameOptions (s : SearchQuery) (d : DocumentQuery) : Prop where
  skip : s.start = d.skip
  limit : s.size = d.limit
  /-- The fields are the same, and a query document has none exactly where there are none. -/
  fields : d.projection = if s.source = [] then none else some s.source

/-- The queries of both backends come from the same options. -/
theorem sameOptions_of_read {p : Params} {s : SearchQuery} {d : DocumentQuery}
    {log log' : List Warning} (hs : (SearchQuery.read p).outcome = (.ok s, log))
    (hd : (DocumentQuery.read p).outcome = (.ok d, log')) : SameOptions s d := by
  obtain ⟨o, terms, ho, -, rfl, -⟩ := SearchQuery.outcome_read_eq_ok_iff.1 hs
  obtain ⟨o', f, ho', -, rfl, -⟩ := DocumentQuery.outcome_read_eq_ok_iff.1 hd
  obtain rfl : o = o' := Except.ok.inj (Prod.mk.inj (ho.symm.trans ho')).1
  refine ⟨rfl, rfl, ?_⟩
  simp only [List.isEmpty_iff]

/-- **Translation stops at the first bad parameter, and logs that one.** Parameters come to a query,
and to no warning, exactly when all of them are acceptable. Otherwise the first that is not, the
filter last, is named with its value as it was given, and the log holds one line that says so, with
the reason of the grammar if it is the filter. An option that is not acceptable gives the same error
on both backends, and where both come to queries these have the same options. -/
theorem ofParams_outcome (p : Params) :
    (∀ b, (∃ q log, ofParams b p = (.ok q, log)) ↔ ∀ q ∈ checkOrder, p.Acceptable b q) ∧
    (∀ b q log, ofParams b p = (.ok q, log) → log = []) ∧
    (∀ b e log, ofParams b p = (.error e, log) ↔
      ∃ w, p.FirstFault b checkOrder w ∧ e = ⟨w.parameter, w.value⟩ ∧ log = [w]) ∧
    (∀ b e log, ofParams b p = (.error e, log) → log.map Warning.message =
      ["Rejected parameter '" ++ e.parameter.name ++ "': '" ++ e.value ++ "'" ++
        (e.parameter.reason? b e.value).elim "" (": " ++ ·)]) ∧
    (∀ q ∈ Options.checkOrder, ∀ b, ¬ p.Acceptable b q →
      ∃ e log, ∀ b', ofParams b' p = (.error e, log)) ∧
    (∀ q q' log log', ofParams .search p = (.ok q, log) → ofParams .document p = (.ok q', log') →
      ∃ s d, q = search s ∧ q' = document d ∧ SameOptions s d) := by
  refine ⟨?_, ?_, ?_, ?_, ?_, ?_⟩
  · intro b
    have hchecks := checks_read b p
    rw [← hchecks.accepts]
    constructor
    · rintro ⟨q, log, h⟩
      obtain rfl := hchecks.settled.eq_nil_of_outcome_eq_ok h
      exact ⟨q, h⟩
    · rintro ⟨q, h⟩
      exact ⟨q, [], h⟩
  · intro b q log h
    exact (checks_read b p).settled.eq_nil_of_outcome_eq_ok h
  · intro b e log
    exact (checks_read b p).rejects e log
  · intro b e log h
    obtain ⟨w, hw, rfl, rfl⟩ := ((checks_read b p).rejects e log).1 h
    rw [List.map_singleton, hw.faulty.message]
  · intro q hq b h
    exact exists_ofParams_eq_of_not_acceptable hq h
  · intro q q' log log' hq hq'
    obtain ⟨s, hs, rfl, -⟩ := ofParams_search_eq_ok_iff.1 hq
    obtain ⟨d, hd, rfl, -⟩ := ofParams_document_eq_ok_iff.1 hq'
    exact ⟨s, d, rfl, rfl, sameOptions_of_read hs hd⟩

end Query

/-! ## What a parameter has no bearing on

A look-up sees the names that are variants of its key, each option sees its own parameter, and the
filter sees none of the options. So two sets of parameters may differ where nothing looks. -/

variable {p p' : Params}

namespace Options

/-- An acceptable default connector is read without a trace. -/
theorem exists_readDefaultOperator_eq_pure {b : Backend} (h : p.Acceptable b .defaultOperator) :
    ∃ c, readDefaultOperator p = pure c := by
  have hchecks : Checks b p [.defaultOperator] (readDefaultOperator p) := checks_readDefaultOperator
  obtain ⟨c, hc⟩ := hchecks.accepts.2 (List.forall_mem_singleton.2 h)
  exact ⟨c, hchecks.settled.eq_pure_of_outcome_eq_ok hc⟩

/-- Parameters that agree but for acceptable default connectors come to the same options but for the
connector. -/
theorem read_eq_map {c c' : Connector}
    (h : ∀ q : Parameter, q ≠ .defaultOperator → p.get? q.name = p'.get? q.name)
    (hc : readDefaultOperator p = pure c) (hc' : readDefaultOperator p' = pure c') :
    read p' = (fun o => { o with defaultOperator := c' }) <$> read p := by
  have hskip : readSkip p = readSkip p' := readCount_congr (h .skip nofun) _
  have hlimit : readLimit p = readLimit p' := readCount_congr (h .limit nofun) _
  unfold read
  rw [hskip, hlimit, readSort_congr (h .sort nofun), readFields_congr (h .fields nofun), hc, hc']
  simp only [map_bind, pure_bind, map_pure]

end Options

/-- The default connector has no bearing on a query document, as long as it is acceptable. -/
theorem DocumentQuery.read_congr
    (h : ∀ q : Parameter, q ≠ .defaultOperator → p.get? q.name = p'.get? q.name)
    (hp : p.Acceptable .document .defaultOperator)
    (hp' : p'.Acceptable .document .defaultOperator) : read p = read p' := by
  obtain ⟨c, hc⟩ := Options.exists_readDefaultOperator_eq_pure hp
  obtain ⟨c', hc'⟩ := Options.exists_readDefaultOperator_eq_pure hp'
  unfold read
  -- the query takes everything but the connector from the options
  rw [Options.read_eq_map h hc hc', bind_map_left, readFilter_congr (h .filter nofun)]

/-- Accepted queries of search engines differ in the filter at most where the parameters do. -/
theorem SearchQuery.eq_with_filter {s s' : SearchQuery} {log log' : List Warning}
    (h : ∀ q : Parameter, q ≠ .filter → p.get? q.name = p'.get? q.name)
    (hs : (read p).outcome = (.ok s, log)) (hs' : (read p').outcome = (.ok s', log')) :
    s' = { s with filter := s'.filter } := by
  obtain ⟨o, terms, ho, -, rfl, -⟩ := outcome_read_eq_ok_iff.1 hs
  obtain ⟨o', terms', ho', -, rfl, -⟩ := outcome_read_eq_ok_iff.1 hs'
  rw [Options.read_congr h] at ho
  obtain rfl : o = o' := Except.ok.inj (Prod.mk.inj (ho.symm.trans ho')).1
  rfl

namespace Query

/-- A text under a name that is a variant of no parameter's name changes nothing. -/
theorem ofParams_insert {name : String}
    (h : ∀ q : Parameter, Params.sameName name q.name = false) (p : Params) (value : String)
    (b : Backend) : ofParams b (p.insert name value) = ofParams b p :=
  ofParams_congr (fun q => Params.get?_insert_of_not_same (h q) p value) b

/-- **Parameters do not interfere.** A text under a name that is a variant of no parameter's name
changes nothing on either backend, warnings included. Parameters that agree in all look-ups but
that of the default connector, which is acceptable in both, come to the same on the document
database, whether to a query or to a rejection. Parameters that agree in all look-ups but that of
the filter, and are accepted for the search engine, come to queries that agree in all but the
filter. -/
theorem ofParams_noninterference (p : Params) :
    (∀ b name value, (∀ q : Parameter, Params.sameName name q.name = false) →
      ofParams b (p.insert name value) = ofParams b p) ∧
    (∀ p', (∀ q : Parameter, q ≠ .defaultOperator → p.get? q.name = p'.get? q.name) →
      p.Acceptable .document .defaultOperator → p'.Acceptable .document .defaultOperator →
      ofParams .document p = ofParams .document p') ∧
    (∀ p' q q' log log', (∀ q : Parameter, q ≠ .filter → p.get? q.name = p'.get? q.name) →
      ofParams .search p = (.ok q, log) → ofParams .search p' = (.ok q', log') →
      ∃ s s', q = search s ∧ q' = search s' ∧ s'.start = s.start ∧ s'.size = s.size ∧
        s'.sort = s.sort ∧ s'.source = s.source ∧ s'.defaultOperator = s.defaultOperator) := by
  refine ⟨?_, ?_, ?_⟩
  · intro b name value hname
    exact ofParams_insert hname p value b
  · intro p' hget hp hp'
    unfold ofParams read
    rw [DocumentQuery.read_congr hget hp hp']
  · intro p' q q' log log' hget hq hq'
    obtain ⟨s, hs, rfl, -⟩ := ofParams_search_eq_ok_iff.1 hq
    obtain ⟨s', hs', rfl, -⟩ := ofParams_search_eq_ok_iff.1 hq'
    have heq : s' = { s with filter := s'.filter } := SearchQuery.eq_with_filter hget hs hs'
    refine ⟨s, s', rfl, rfl, ?_⟩
    rw [heq]
    exact ⟨rfl, rfl, rfl, rfl, rfl⟩

/-- Under either connector a filter that names its own comes to the same document. -/
theorem ofParams_noninterference_connectors :
    let p := Params.ofList [("filter", "a:1 OR b"), ("defaultOperator", "or")]
    let p' := Params.ofList [("DEFAULTOPERATOR", " AND "), ("filter", "a:1 OR b")]
    (∀ q : Parameter, q ≠ .defaultOperator → p.get? q.name = p'.get? q.name) ∧
      p.Acceptable .document .defaultOperator ∧ p'.Acceptable .document .defaultOperator ∧
      ofParams .document p = ofParams .document p' := by
  intro p p'
  have hget : ∀ q : Parameter, q ≠ .defaultOperator → p.get? q.name = p'.get? q.name := by
    intro q hq
    cases q with
    | defaultOperator => exact absurd rfl hq
    | filter | sort | skip | limit | fields => decide
  have hor : p.get? Parameter.defaultOperator.name = some "or" := by decide
  have hand : p'.get? Parameter.defaultOperator.name = some " AND " := by decide
  have hp : p.Acceptable .document .defaultOperator :=
    Params.acceptable_of_accepts hor ⟨.or, by decide⟩
  have hp' : p'.Acceptable .document .defaultOperator :=
    Params.acceptable_of_accepts hand ⟨.and, by decide⟩
  exact ⟨hget, hp, hp', (ofParams_noninterference p).2.1 p' hget hp hp'⟩

end Query

end Criteria
