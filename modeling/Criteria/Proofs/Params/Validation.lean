import Criteria.Filter.Token
import Criteria.Params

/-!
# Results of validations

A settled validation either accepts without a warning or rejects with the one warning that names
the parameter it rejects, whatever was logged before. Settled validations are closed under
sequencing, and `outcome_bind` says what a sequence of them comes to.
-/

namespace Criteria

/-- A line in the log is about a value, with the reason behind it where there is one. -/
theorem Warning.message_eq (w : Warning) :
    w.message = "Rejected parameter '" ++ w.parameter.name ++ "': '" ++ w.value ++ "'" ++
      w.reason.elim "" (": " ++ ·) := by
  unfold Warning.message
  cases w.reason with
  | none => rw [Option.elim_none]
  | some reason => rw [Option.elim_some]

namespace Validation

variable {α β : Type}

/-- The result from a log of what is acceptable, or else of a rejection with a warning. -/
def settle (log : List Warning) : Except Warning α → Except InvalidParameter α × List Warning
  | .ok a => (.ok a, log)
  | .error w => (.error ⟨w.parameter, w.value⟩, log ++ [w])

/-- The log before has no part in what a validation comes to, and grows with a rejection only. -/
def Settled (v : Validation α) : Prop :=
  ∃ r : Except Warning α, ∀ log, v.run.run log = settle log r

theorem settled_pure (a : α) : Settled (pure a : Validation α) := ⟨.ok a, fun _ => rfl⟩

theorem settled_reject (parameter : Parameter) (value : String) (reason : Option String) :
    Settled (reject parameter value reason : Validation α) :=
  ⟨.error ⟨parameter, value, reason⟩, fun _ => rfl⟩

theorem settled_orReject (parameter : Parameter) (value : String) (result : Option α) :
    Settled (orReject parameter value result) := by
  cases result with
  | none => exact settled_reject parameter value none
  | some a => exact settled_pure a

theorem run_bind (v : Validation α) (f : α → Validation β) (log : List Warning) :
    (v >>= f).run.run log =
      match v.run.run log with
      | (.ok a, log) => (f a).run.run log
      | (.error e, log) => (.error e, log) := by
  rw [ExceptT.run_bind, StateT.run_bind]
  rcases v.run.run log with ⟨_ | a, log⟩ <;> rfl

theorem Settled.bind {v : Validation α} {f : α → Validation β} (hv : Settled v)
    (hf : ∀ a, Settled (f a)) : Settled (v >>= f) := by
  obtain ⟨r, hr⟩ := hv
  cases r with
  | error w =>
    -- the second part is never run
    refine ⟨.error w, ?_⟩
    intro log
    rw [run_bind, hr, settle]
    rfl
  | ok a =>
    obtain ⟨r, hr'⟩ := hf a
    refine ⟨r, ?_⟩
    intro log
    rw [run_bind, hr, settle]
    exact hr' log

/-- A sequence goes on, with nothing logged, where its first part accepts. -/
theorem outcome_bind {v : Validation α} (hv : Settled v) (f : α → Validation β) :
    (v >>= f).outcome =
      match v.outcome with
      | (.ok a, _) => (f a).outcome
      | (.error e, log) => (.error e, log) := by
  obtain ⟨r, hr⟩ := hv
  rw [outcome, run_bind, outcome, hr]
  cases r <;> rfl

theorem outcome_bind_eq_ok_iff {v : Validation α} (hv : Settled v) {f : α → Validation β} {b : β}
    {log : List Warning} :
    (v >>= f).outcome = (.ok b, log) ↔
      ∃ a, v.outcome = (.ok a, []) ∧ (f a).outcome = (.ok b, log) := by
  obtain ⟨r, hr⟩ := id hv
  rw [outcome_bind hv, show v.outcome = settle [] r from hr []]
  cases r with
  | error w => simp [settle]
  | ok a => simp [settle]

/-- A sequence rejects as its first part does, or else as the part behind it. -/
theorem outcome_bind_eq_error_iff {v : Validation α} (hv : Settled v) {f : α → Validation β}
    {e : InvalidParameter} {log : List Warning} :
    (v >>= f).outcome = (.error e, log) ↔
      v.outcome = (.error e, log) ∨
        ∃ a, v.outcome = (.ok a, []) ∧ (f a).outcome = (.error e, log) := by
  obtain ⟨r, hr⟩ := id hv
  rw [outcome_bind hv, show v.outcome = settle [] r from hr []]
  cases r with
  | error w => simp [settle]
  | ok a => simp [settle]

theorem outcome_pure_eq_ok_iff {a b : α} {log : List Warning} :
    (pure a : Validation α).outcome = (.ok b, log) ↔ a = b ∧ log = [] := by
  show ((Except.ok a : Except InvalidParameter α), ([] : List Warning)) = (.ok b, log) ↔ _
  rw [Prod.mk.injEq, Except.ok.injEq, eq_comm (a := [])]

/-- A settled validation accepts with nothing logged. -/
theorem Settled.eq_nil_of_outcome_eq_ok {v : Validation α} (hv : Settled v) {a : α}
    {log : List Warning} (h : v.outcome = (.ok a, log)) : log = [] := by
  obtain ⟨r, hr⟩ := hv
  rw [show v.outcome = settle [] r from hr []] at h
  cases r with
  | error w => exact nomatch (Prod.mk.inj h).1
  | ok a => exact (Prod.mk.inj h).2.symm

/-- A settled validation that accepts does nothing else. -/
theorem Settled.eq_pure_of_outcome_eq_ok {v : Validation α} (hv : Settled v) {a : α}
    {log : List Warning} (h : v.outcome = (.ok a, log)) : v = pure a := by
  obtain ⟨r, hr⟩ := hv
  rw [show v.outcome = settle [] r from hr []] at h
  cases r with
  | error w => exact nomatch (Prod.mk.inj h).1
  | ok b =>
    obtain rfl := Except.ok.inj (Prod.mk.inj h).1
    exact funext hr

theorem outcome_orReject_eq_ok_iff {parameter : Parameter} {value : String} {result : Option α}
    {a : α} {log : List Warning} :
    (orReject parameter value result).outcome = (.ok a, log) ↔ result = some a ∧ log = [] := by
  cases result with
  | none =>
    refine ⟨fun h => ?_, nofun⟩
    exact nomatch (Prod.mk.inj h).1
  | some b => rw [orReject, outcome_pure_eq_ok_iff, Option.some.injEq]

theorem outcome_orReject_eq_error_iff {parameter : Parameter} {value : String} {result : Option α}
    {e : InvalidParameter} {log : List Warning} :
    (orReject parameter value result).outcome = (.error e, log) ↔
      result = none ∧ e = ⟨parameter, value⟩ ∧ log = [⟨parameter, value, none⟩] := by
  cases result with
  | none =>
    show ((Except.error ⟨parameter, value⟩ : Except InvalidParameter α),
      [(⟨parameter, value, none⟩ : Warning)]) = (.error e, log) ↔ _
    rw [Prod.mk.injEq, Except.error.injEq, eq_comm (b := e), eq_comm (b := log)]
    exact (and_iff_right rfl).symm
  | some b =>
    refine ⟨fun h => ?_, nofun⟩
    exact nomatch (Prod.mk.inj h).1

theorem outcome_map_eq_ok_iff {v : Validation α} (hv : Settled v) {f : α → β} {b : β}
    {log : List Warning} :
    (f <$> v).outcome = (.ok b, log) ↔ ∃ a, v.outcome = (.ok a, []) ∧ f a = b ∧ log = [] := by
  rw [map_eq_pure_bind, outcome_bind_eq_ok_iff hv]
  simp only [outcome_pure_eq_ok_iff]

theorem outcome_map_eq_error_iff {v : Validation α} (hv : Settled v) {f : α → β}
    {e : InvalidParameter} {log : List Warning} :
    (f <$> v).outcome = (.error e, log) ↔ v.outcome = (.error e, log) := by
  rw [map_eq_pure_bind, outcome_bind_eq_error_iff hv, or_iff_left]
  rintro ⟨a, -, h⟩
  exact nomatch (Prod.mk.inj h).1

/-! ## Refused filters

What a filter comes to in the validation of parameters, whichever grammar reads or refuses it: the
search engine and the document database differ in the grammar only. -/

variable {ρ : Type} {message : ρ → String} {result : Except (Filter.Refusal ρ) α}

/-- What a grammar reads, or else a rejection of the filter with the reason of the refusal. -/
def ofFilter (message : ρ → String) : Except (Filter.Refusal ρ) α → Validation α
  | .ok a => pure a
  | .error refusal => reject .filter refusal.filter (some (message refusal.reason))

theorem settled_ofFilter : Settled (ofFilter message result) := by
  cases result with
  | ok a => exact settled_pure a
  | error refusal => exact settled_reject .filter _ _

theorem outcome_ofFilter_eq_ok_iff {a : α} {log : List Warning} :
    (ofFilter message result).outcome = (.ok a, log) ↔ result = .ok a ∧ log = [] := by
  cases result with
  | ok b => rw [ofFilter, outcome_pure_eq_ok_iff, Except.ok.injEq]
  | error refusal => exact ⟨fun h => (nomatch (Prod.mk.inj h).1), nofun⟩

end Validation

end Criteria
