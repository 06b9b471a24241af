import Criteria.Proofs.Filter.Acceptance
import Criteria.Proofs.Flat.Grammar
import Criteria.Proofs.Options
import Criteria.Query

/-!
# Acceptable parameters

`Parameter.Accepts` says by grammars which values of a parameter are acceptable on a backend, and
`Params.FirstFault` which of some parameters is the first without such a value. A validation that
`Checks` parameters in an order accepts when all of them are acceptable, and otherwise rejects the
first that is not, with one warning. Checks in sequence check one list after the other
(`Checks.bind`).
-/

namespace Criteria

/-- The texts in the grammar of filters on a backend; a blank one is in both grammars. -/
def Backend.AcceptsFilter : Backend → String → Prop
  | .search, text =>
    ∀ token ∈ Text.wordsOf text, token ≠ "AND" ∧ token ≠ "OR" ∧ Flat.IsTerm token.toList
  | .document, text =>
    Text.blank text.toList = true ∨ ∃ f, Filter.Denotes (Text.trim text.toList) f

/-- Why a text is no filter on a backend, if it is none. -/
def Backend.filterReason? : Backend → String → Option String
  | .search, text =>
    match Flat.parse text with
    | .ok _ => none
    | .error refusal => some refusal.reason.message
  | .document, text =>
    match Filter.parse text with
    | .ok _ => none
    | .error refusal => some refusal.reason.message

namespace Parameter

/-- The values that are acceptable for a parameter on a backend. -/
def Accepts (b : Backend) : Parameter → String → Prop
  | .skip, value => ∃ n, Options.IsCount value n
  | .limit, value => ∃ n, Options.IsCount value n
  | .sort, value => ∀ word ∈ Text.wordsOf value, ∃ k : SortKey, word = k.display ∧ k.Valid
  | .fields, _ => True
  | .defaultOperator, value =>
    ∃ c : Connector, (Text.trim value.toList).map Char.toUpper = c.word.toList
  | .filter, value => b.AcceptsFilter value

/-- What the log says about a rejected value: a filter has a reason. -/
def reason? (b : Backend) : Parameter → String → Option String
  | .filter, value => b.filterReason? value
  | _, _ => none

end Parameter

namespace Params

/-- A parameter is missing or blank, or has an acceptable value. -/
def Acceptable (b : Backend) (p : Params) (q : Parameter) : Prop :=
  ∀ value, p.get? q.name = some value → q.Accepts b value

/-- A warning names a parameter whose value, as it was given, is not acceptable. -/
structure Faulty (b : Backend) (p : Params) (w : Warning) : Prop where
  given : p.get? w.parameter.name = some w.value
  rejected : ¬ w.parameter.Accepts b w.value
  reason : w.reason = w.parameter.reason? b w.value

/-- A warning names the first of some parameters that is not acceptable. -/
inductive FirstFault (b : Backend) (p : Params) : List Parameter → Warning → Prop where
  | head {w : Warning} {rest : List Parameter} :
      p.Faulty b w → FirstFault b p (w.parameter :: rest) w
  | tail {q : Parameter} {rest : List Parameter} {w : Warning} :
      p.Acceptable b q → FirstFault b p rest w → FirstFault b p (q :: rest) w

section Faults

variable {b : Backend} {p : Params}

theorem acceptable_of_accepts {q : Parameter} {value : String} (hget : p.get? q.name = some value)
    (h : q.Accepts b value) : p.Acceptable b q := by
  intro value' hvalue
  obtain rfl := Option.some.inj (hget.symm.trans hvalue)
  exact h

theorem not_firstFault_nil {w : Warning} : ¬ p.FirstFault b [] w := nofun

theorem firstFault_cons_iff {q : Parameter} {rest : List Parameter} {w : Warning} :
    p.FirstFault b (q :: rest) w ↔
      (w.parameter = q ∧ p.Faulty b w) ∨ (p.Acceptable b q ∧ p.FirstFault b rest w) := by
  constructor
  · intro h
    cases h with
    | head hfaulty => exact .inl ⟨rfl, hfaulty⟩
    | tail hq hrest => exact .inr ⟨hq, hrest⟩
  · rintro (⟨rfl, hfaulty⟩ | ⟨hq, hrest⟩)
    · exact .head hfaulty
    · exact .tail hq hrest

/-- In two lists one after the other the first fault is in the first list, or behind it. -/
theorem firstFault_append_iff {order order' : List Parameter} {w : Warning} :
    p.FirstFault b (order ++ order') w ↔
      p.FirstFault b order w ∨
        ((∀ q ∈ order, p.Acceptable b q) ∧ p.FirstFault b order' w) := by
  induction order with
  | nil => simp [not_firstFault_nil]
  | cons q rest ih =>
    rw [List.cons_append, firstFault_cons_iff, ih, firstFault_cons_iff, List.forall_mem_cons]
    constructor
    · rintro (hq | ⟨hq, hrest | ⟨hall, hw⟩⟩)
      · exact .inl (.inl hq)
      · exact .inl (.inr ⟨hq, hrest⟩)
      · exact .inr ⟨⟨hq, hall⟩, hw⟩
    · rintro ((hq | ⟨hq, hrest⟩) | ⟨⟨hq, hall⟩, hw⟩)
      · exact .inl hq
      · exact .inr ⟨hq, .inl hrest⟩
      · exact .inr ⟨hq, .inr ⟨hall, hw⟩⟩

theorem FirstFault.faulty {order : List Parameter} {w : Warning} (h : p.FirstFault b order w) :
    p.Faulty b w := by
  induction h with
  | head hfaulty => exact hfaulty
  | tail _ _ ih => exact ih

/-- The line in the log about a faulty value: a filter has its reason behind it. -/
theorem Faulty.message {w : Warning} (h : p.Faulty b w) :
    w.message = "Rejected parameter '" ++ w.parameter.name ++ "': '" ++ w.value ++ "'" ++
      (w.parameter.reason? b w.value).elim "" (": " ++ ·) := by
  rw [Warning.message_eq, h.reason]

theorem Faulty.not_acceptable {w : Warning} (h : p.Faulty b w) : ¬ p.Acceptable b w.parameter :=
  fun hall => h.rejected (hall _ h.given)

/-- A given parameter has at most one fault. -/
theorem faulty_iff {q : Parameter} {value : String} (hget : p.get? q.name = some value)
    (hrejected : ¬ q.Accepts b value) {w : Warning} :
    (w.parameter = q ∧ p.Faulty b w) ↔ w = ⟨q, value, q.reason? b value⟩ := by
  constructor
  · obtain ⟨q', value', reason⟩ := w
    rintro ⟨rfl, hgiven, -, hreason⟩
    obtain rfl := Option.some.inj (hget.symm.trans hgiven)
    rw [show reason = _ from hreason]
  · rintro rfl
    exact ⟨rfl, hget, hrejected, rfl⟩

end Faults

end Params

/-! ## Checks in an order -/

/-- A validation accepts when some parameters are acceptable, and otherwise rejects the first that
is not, with the one warning that names it. -/
structure Checks {α : Type} (b : Backend) (p : Params) (order : List Parameter)
    (v : Validation α) : Prop where
  settled : v.Settled
  accepts : (∃ a, v.outcome = (.ok a, [])) ↔ ∀ q ∈ order, p.Acceptable b q
  rejects : ∀ e log, v.outcome = (.error e, log) ↔
    ∃ w, p.FirstFault b order w ∧ e = ⟨w.parameter, w.value⟩ ∧ log = [w]

namespace Checks

open Validation

variable {α β : Type} {b : Backend} {p : Params}

theorem nil (a : α) : Checks b p [] (pure a : Validation α) where
  settled := settled_pure a
  accepts := ⟨fun _ _ h => absurd h List.not_mem_nil, fun _ => ⟨a, rfl⟩⟩
  rejects e log := by
    constructor
    · intro h
      exact nomatch (Prod.mk.inj h).1
    · rintro ⟨w, hw, -⟩
      exact absurd hw Params.not_firstFault_nil

/-- Checks in sequence check one list after the other. -/
theorem bind {order order' : List Parameter} {v : Validation α} {f : α → Validation β}
    (hv : Checks b p order v) (hf : ∀ a, Checks b p order' (f a)) :
    Checks b p (order ++ order') (v >>= f) where
  settled := hv.settled.bind fun a => (hf a).settled
  accepts := by
    simp only [outcome_bind_eq_ok_iff hv.settled, List.forall_mem_append, ← hv.accepts]
    constructor
    · rintro ⟨c, a, ha, hc⟩
      exact ⟨⟨a, ha⟩, (hf a).accepts.1 ⟨c, hc⟩⟩
    · rintro ⟨⟨a, ha⟩, hall⟩
      obtain ⟨c, hc⟩ := (hf a).accepts.2 hall
      exact ⟨c, a, ha, hc⟩
  rejects e log := by
    rw [outcome_bind_eq_error_iff hv.settled, hv.rejects]
    simp only [Params.firstFault_append_iff, ← hv.accepts]
    constructor
    · rintro (⟨w, hw, hlog⟩ | ⟨a, ha, hreject⟩)
      · exact ⟨w, .inl hw, hlog⟩
      · obtain ⟨w, hw, hlog⟩ := ((hf a).rejects e log).1 hreject
        exact ⟨w, .inr ⟨⟨a, ha⟩, hw⟩, hlog⟩
    · rintro ⟨w, hw | ⟨⟨a, ha⟩, hw⟩, hlog⟩
      · exact .inl ⟨w, hw, hlog⟩
      · exact .inr ⟨a, ha, ((hf a).rejects e log).2 ⟨w, hw, hlog⟩⟩

theorem map {order : List Parameter} {v : Validation α} (hv : Checks b p order v) (f : α → β) :
    Checks b p order (f <$> v) := by
  rw [map_eq_pure_bind, ← List.append_nil order]
  exact hv.bind fun a => nil (f a)

theorem of_acceptable {q : Parameter} (h : p.Acceptable b q) (a : α) :
    Checks b p [q] (pure a : Validation α) where
  settled := settled_pure a
  accepts := ⟨fun _ => List.forall_mem_singleton.2 h, fun _ => ⟨a, rfl⟩⟩
  rejects e log := by
    constructor
    · intro heq
      exact nomatch (Prod.mk.inj heq).1
    · rintro ⟨w, hw, -⟩
      rcases Params.firstFault_cons_iff.1 hw with ⟨rfl, hfaulty⟩ | ⟨-, hnil⟩
      · exact absurd h hfaulty.not_acceptable
      · exact absurd hnil Params.not_firstFault_nil

theorem of_absent {q : Parameter} (h : p.get? q.name = none) (a : α) :
    Checks b p [q] (pure a : Validation α) := by
  refine of_acceptable (fun value hvalue => ?_) a
  rw [h] at hvalue
  exact nomatch hvalue

theorem of_accepts {q : Parameter} {value : String} (hget : p.get? q.name = some value)
    (h : q.Accepts b value) (a : α) : Checks b p [q] (pure a : Validation α) :=
  of_acceptable (Params.acceptable_of_accepts hget h) a

theorem of_rejects {q : Parameter} {value : String} (hget : p.get? q.name = some value)
    (h : ¬ q.Accepts b value) :
    Checks b p [q] (reject q value (q.reason? b value) : Validation α) where
  settled := settled_reject q value _
  accepts := by
    constructor
    · rintro ⟨a, ha⟩
      exact nomatch (Prod.mk.inj ha).1
    · intro hall
      exact absurd (hall q List.mem_cons_self value hget) h
  rejects e log := by
    simp only [Params.firstFault_cons_iff, Params.not_firstFault_nil, and_false, or_false,
      Params.faulty_iff hget h, exists_eq_left]
    constructor
    · intro heq
      obtain ⟨he, hlog⟩ := Prod.mk.inj heq
      exact ⟨(Except.error.inj he).symm, hlog.symm⟩
    · rintro ⟨rfl, rfl⟩
      rfl

/-- A value that is read where it is acceptable, and rejected without a reason where it is not. -/
theorem orReject {q : Parameter} {value : String} (hget : p.get? q.name = some value)
    {result : Option α} (hresult : (∃ a, result = some a) ↔ q.Accepts b value)
    (hreason : q.reason? b value = none) : Checks b p [q] (orReject q value result) := by
  cases result with
  | some a => exact of_accepts hget (hresult.1 ⟨a, rfl⟩) a
  | none =>
    have hrejects : ¬ q.Accepts b value := by
      intro h
      obtain ⟨a, ha⟩ := hresult.2 h
      exact nomatch ha
    have hchecks : Checks b p [q] (reject q value (q.reason? b value) : Validation α) :=
      of_rejects hget hrejects
    rwa [hreason] at hchecks

end Checks

end Criteria
