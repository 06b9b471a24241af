import Criteria.Proofs.Filter.Reading
import Mathlib.Logic.Relation

/-!
# Reading by position

A reader that does not take its tokens off a list: it keeps the whole list and counts, in
registers, how many tokens it has passed and how many groups it has opened. Its limit on
parentheses asks the count, and what it hands to `nest` it hands there in one place (`handed`).
Its steps are those of `State` (`progress_step`), so both readers agree (`exists_reaches_ofTokens`);
`does_step` says all that a step can do.
-/

namespace Criteria.Filter

/-! ## The reader that takes tokens off, step by step -/

theorem eq_cons_of_peek {ts : List Token} {t : Token} (h : peek ts = t) (ht : t ≠ .endOfInput) :
    ∃ us, ts = t :: us := by
  cases ts with
  | nil => exact absurd h.symm ht
  | cons u us => exact ⟨us, congrArg (· :: us) h⟩

namespace State

variable (outer : List (Option Run)) (run run' : Option Run) (operand : Option Filter) (f : Filter)
  (ts : List Token)

theorem readOperand_openParen :
    readOperand ⟨outer, run, operand, .openParen :: ts⟩ =
      if maxDepth ≤ outer.length then .error .parenthesesTooDeep
      else .ok ⟨run :: outer, none, none, Filter.skipSpace ts⟩ := rfl

theorem readEnd_outside :
    readEnd ⟨[], run, operand, ts⟩ f =
      if peek ts = .endOfInput then .ok (.finished f) else .error (.trailing (peek ts)) := rfl

theorem readEnd_inside :
    readEnd ⟨run' :: outer, run, operand, ts⟩ f =
      match Filter.skipSpace ts with
      | .closeParen :: rest => .ok (.further ⟨outer, run', some f, rest⟩)
      | us => .error (.expectedClose (peek us)) := rfl

theorem step_operand :
    step ⟨outer, run, some f, ts⟩ =
      match readConnector? ts with
      | some (c, rest) =>
        (extendRun run f c).map fun next => .further ⟨outer, some next, none, rest⟩
      | none => closeRun run f >>= readEnd ⟨outer, run, some f, ts⟩ := rfl

end State

/-! ## The reader by position -/

/-- A place in a list of tokens, with the registers of the reader. -/
structure Cursor where
  tokens : List Token
  /-- The count of tokens that have been passed. -/
  position : Nat
  /-- The count of groups that are open. -/
  depth : Nat
  /-- For each open group, innermost first, the run before it in the group around it. -/
  outer : List (Option Run)
  run : Option Run
  operand : Option Filter

namespace Cursor

/-- The operands of a run, none where there is no run. -/
def operandsOf (run : Option Run) : List Filter := (run.map Run.operands).getD []

/-- How a step ends. -/
inductive Outcome where
  | further
  | finished (f : Filter)
  | refused (reason : Reason)

/-- The last outcome of a reading with this result. -/
def Outcome.ofResult : Except Reason Filter → Outcome
  | .ok f => .finished f
  | .error reason => .refused reason

def start (ts : List Token) : Cursor := ⟨ts, 0, 0, [], none, none⟩

/-- The token so many places ahead; past the last one the input has ended. -/
def token (r : Cursor) (ahead : Nat) : Token :=
  r.tokens[r.position + ahead]?.getD .endOfInput

def advance (r : Cursor) (count : Nat) : Cursor := { r with position := r.position + count }

def skipSpace (r : Cursor) : Cursor := r.advance (if r.token 0 = .space then 1 else 0)

/-- The connector ahead, between two blank runs. -/
def connector? (r : Cursor) : Option Connector :=
  match r.token 0, r.token 1, r.token 2 with
  | .space, .key word, .space => Connector.ofWord? word
  | _, _, _ => none

/-- A group counts as open before the limit is checked. -/
def openGroup (r : Cursor) : Cursor :=
  { r.advance 1 with depth := r.depth + 1, outer := r.run :: r.outer, run := none }

/-- Reads the opening of a group, a comparison or a search word. A token that is refused has been
passed as well. -/
def readOperand (r : Cursor) : Cursor × Outcome :=
  match r.token 0 with
  | .openParen =>
    if maxDepth < r.openGroup.depth then (r.openGroup, .refused .parenthesesTooDeep)
    else (r.openGroup.skipSpace, .further)
  | .key name =>
    match r.token 1 with
    | .comparator c =>
      match r.token 2 with
      | .value raw =>
        ({ r.advance 3 with operand := some (.comparison name c (Literal.infer raw)) }, .further)
      | got => (r.advance 3, .refused (.expectedValue c got))
    | _ => ({ r.advance 1 with operand := some (.text name) }, .further)
  | got => (r.advance 1, .refused (.unexpected got))

/-- Leaves the innermost group with the operand `f`, or ends the reading when none is open. -/
def readEnd (r : Cursor) (f : Filter) : Cursor × Outcome :=
  match r.outer with
  | [] =>
    if r.token 0 = .endOfInput then (r, .finished f) else (r, .refused (.trailing (r.token 0)))
  | run :: outer =>
    if r.skipSpace.token 0 = .closeParen then
      ({ r.skipSpace.advance 1 with
        depth := r.depth - 1, outer := outer, run := run, operand := some f }, .further)
    else (r.skipSpace.advance 1, .refused (.expectedClose (r.skipSpace.token 0)))

/-- What is handed to `nest` behind the operand `f`: the operands of the run with `f`, unless the
run goes on. -/
def handed (r : Cursor) (f : Filter) : Option (Connector × List Filter) :=
  match r.run with
  | none => none
  | some q =>
    if r.connector? = some q.connector then none
    else some (q.connector, (f :: q.operands).reverse)

/-- The place behind the connector ahead, if there is one. -/
def passConnector (r : Cursor) : Cursor := r.advance (if r.connector?.isSome then 3 else 0)

/-- Goes on behind the operand `f`, which belongs to the run if there is one. -/
def goOn (r : Cursor) (f : Filter) : Cursor × Outcome :=
  match r.connector? with
  | some c =>
    ({ r.advance 3 with
      run := some ⟨c, f :: operandsOf r.run⟩, operand := none }, .further)
  | none => r.readEnd f

/-- Reads one operand, one connector or one end. -/
def step (r : Cursor) : Cursor × Outcome :=
  match r.operand with
  | none => r.readOperand
  | some f =>
    match r.handed f with
    | none => r.goOn f
    | some (c, fs) =>
      match nest c fs with
      | .error reason => (r.passConnector, .refused reason)
      | .ok g => goOn { r with run := none } g

/-- One step leads from a cursor to another. -/
def Next (r r' : Cursor) : Prop := r.step = (r', .further)

/-- Steps lead from a cursor to another. -/
def Reaches : Cursor → Cursor → Prop := Relation.ReflTransGen Next

/-! ## Positions and lists -/

/-- The tokens that are still ahead. -/
def rest (r : Cursor) : List Token := r.tokens.drop r.position

/-- The place without its registers. -/
def toState (r : Cursor) : State := ⟨r.outer, r.run, r.operand, r.rest⟩

theorem rest_advance (r : Cursor) (count : Nat) : (r.advance count).rest = r.rest.drop count := by
  rw [rest, rest, List.drop_drop, advance]

theorem token_eq_peek (r : Cursor) (ahead : Nat) : r.token ahead = peek (r.rest.drop ahead) := by
  rw [token, peek, rest, List.drop_drop, List.headD_eq_head?_getD, List.head?_drop]

theorem rest_skipSpace (r : Cursor) : r.skipSpace.rest = Filter.skipSpace r.rest := by
  rw [skipSpace, token_eq_peek, rest_advance]
  generalize r.rest = ts
  cases ts with
  | nil => rfl
  | cons t ts => cases t <;> rfl

theorem toState_skipSpace (r : Cursor) :
    r.skipSpace.toState = ⟨r.outer, r.run, r.operand, Filter.skipSpace r.rest⟩ := by
  rw [toState, rest_skipSpace]
  rfl

theorem connector?_eq (r : Cursor) : r.connector? = (readConnector? r.rest).map Prod.fst := by
  simp only [connector?, token_eq_peek]
  generalize r.rest = ts
  unfold readConnector?
  split
  · next word h0 h1 h2 =>
    obtain ⟨us, rfl⟩ := eq_cons_of_peek h0 nofun
    obtain ⟨vs, rfl⟩ := eq_cons_of_peek h1 nofun
    obtain ⟨ws, rfl⟩ := eq_cons_of_peek h2 nofun
    simp [Function.comp_def]
  · next hnone =>
    split
    · next word rest => exact absurd rfl (hnone word rfl rfl)
    · rfl

theorem rest_of_connector {r : Cursor} {c : Connector} {ts : List Token}
    (h : readConnector? r.rest = some (c, ts)) : (r.advance 3).rest = ts := by
  rw [rest_advance, eq_of_readConnector? h]
  rfl

/-! ## Both readers step alike -/

/-- What a step by position comes to, as a step of the other reader. -/
def progress (result : Cursor × Outcome) : Except Reason Progress :=
  match result.2 with
  | .further => .ok (.further result.1.toState)
  | .finished f => .ok (.finished f)
  | .refused reason => .error reason

theorem progress_readOperand {r : Cursor} (hdepth : r.depth = r.outer.length)
    (hoperand : r.operand = none) :
    progress r.readOperand = r.toState.readOperand.map .further := by
  simp only [readOperand, toState, token_eq_peek]
  have h1 := rest_advance r 1
  have h3 := rest_advance r 3
  cases hrest : r.rest with
  | nil => rfl
  | cons t ts =>
    rw [hrest] at h1 h3
    cases t with
    | openParen =>
      have hcount : r.openGroup.depth = r.outer.length + 1 := congrArg (· + 1) hdepth
      have hopen : r.openGroup.rest = ts := h1
      have hstate : r.openGroup.skipSpace.toState =
          ⟨r.run :: r.outer, none, none, Filter.skipSpace ts⟩ := by
        rw [toState_skipSpace, hopen, ← hoperand]
        rfl
      rw [State.readOperand_openParen]
      show progress (if maxDepth < r.openGroup.depth then _ else _) = _
      by_cases hdeep : maxDepth ≤ r.outer.length
      · rw [if_pos hdeep, if_pos (by omega)]
        rfl
      · rw [if_neg hdeep, if_neg (by omega), progress, hstate]
        rfl
    | key name =>
      have hword : Except.ok (Progress.further ⟨r.outer, r.run, some (.text name),
            (r.advance 1).rest⟩) =
          Except.map (ε := Reason) Progress.further
            (.ok ⟨r.outer, r.run, some (.text name), ts⟩) := by
        rw [h1]
        rfl
      cases ts with
      | nil => exact hword
      | cons u us =>
        cases u with
        | comparator c =>
          cases us with
          | nil => rfl
          | cons v vs =>
            cases v with
            | value raw =>
              show Except.ok (Progress.further ⟨r.outer, r.run, _, (r.advance 3).rest⟩) = _
              rw [h3]
              rfl
            | _ => rfl
        | _ => exact hword
    | _ => rfl

theorem progress_readEnd (r : Cursor) (f : Filter) :
    progress (r.readEnd f) = r.toState.readEnd f := by
  rw [readEnd, toState]
  cases r.outer with
  | nil =>
    have htoken : r.token 0 = peek r.rest := token_eq_peek r 0
    rw [State.readEnd_outside, ← htoken]
    by_cases hend : r.token 0 = .endOfInput
    · rw [if_pos hend]
      simp only [hend, if_true]
      rfl
    · rw [if_neg hend]
      simp only [hend, if_false]
      rfl
  | cons run outer =>
    have hspace := rest_skipSpace r
    have htoken : r.skipSpace.token 0 = peek (Filter.skipSpace r.rest) := by
      rw [token_eq_peek, hspace, List.drop_zero]
    have h1 := rest_advance r.skipSpace 1
    rw [hspace] at h1
    rw [State.readEnd_inside]
    dsimp only
    rw [htoken]
    generalize Filter.skipSpace r.rest = ts at h1
    split
    · next hclose =>
      obtain ⟨us, rfl⟩ := eq_cons_of_peek hclose nofun
      show Except.ok (Progress.further ⟨outer, run, some f, (r.skipSpace.advance 1).rest⟩) = _
      rw [h1]
      rfl
    · next hclose =>
      split
      · exact absurd rfl hclose
      · rfl

theorem progress_goOn (r : Cursor) (f : Filter) :
    progress (r.goOn f) =
      match readConnector? r.rest with
      | some (c, ts) =>
        .ok (.further ⟨r.outer, some ⟨c, f :: operandsOf r.run⟩, none, ts⟩)
      | none => r.toState.readEnd f := by
  unfold goOn
  rw [connector?_eq]
  cases hc : readConnector? r.rest with
  | none => exact progress_readEnd r f
  | some cts =>
    obtain ⟨c, ts⟩ := cts
    rw [← rest_of_connector hc]
    rfl

section Operand

variable {r : Cursor} {f g : Filter} {q : Run} {c : Connector} {fs : List Filter} {reason : Reason}

theorem handed_of_run (hrun : r.run = some q) :
    r.handed f =
      if r.connector? = some q.connector then none
      else some (q.connector, (f :: q.operands).reverse) := by
  rw [handed, hrun]

theorem step_of_handed_none (hoperand : r.operand = some f) (h : r.handed f = none) :
    r.step = r.goOn f := by
  rw [step, hoperand]
  dsimp only
  rw [h]

theorem step_of_nest_error (hoperand : r.operand = some f) (h : r.handed f = some (c, fs))
    (hnest : nest c fs = .error reason) : r.step = (r.passConnector, .refused reason) := by
  rw [step, hoperand]
  dsimp only
  rw [h]
  dsimp only
  rw [hnest]

theorem step_of_nest_ok (hoperand : r.operand = some f) (h : r.handed f = some (c, fs))
    (hnest : nest c fs = .ok g) : r.step = goOn { r with run := none } g := by
  rw [step, hoperand]
  dsimp only
  rw [h]
  dsimp only
  rw [hnest]

end Operand

/-- A step by position is a step of the reader that takes tokens off, as long as the count is that
of the groups that are open. -/
theorem progress_step {r : Cursor} (hdepth : r.depth = r.outer.length) :
    progress r.step = r.toState.step := by
  cases hoperand : r.operand with
  | none =>
    rw [step, hoperand]
    refine (progress_readOperand hdepth hoperand).trans ?_
    rw [toState, hoperand]
    rfl
  | some f =>
    rw [toState, hoperand, State.step_operand]
    cases hrun : r.run with
    | none =>
      have hnone : r.handed f = none := by rw [handed, hrun]
      rw [step_of_handed_none hoperand hnone, progress_goOn, hrun]
      cases readConnector? r.rest with
      | none => rfl
      | some cts => rfl
    | some q =>
      have hhanded := handed_of_run (f := f) hrun
      cases hc : readConnector? r.rest with
      | none =>
        have hconnector : r.connector? = none := by
          rw [connector?_eq, hc]
          rfl
        rw [hconnector, if_neg nofun] at hhanded
        simp only [closeRun]
        cases hnest : nest q.connector (f :: q.operands).reverse with
        | error reason =>
          rw [step_of_nest_error hoperand hhanded hnest]
          rfl
        | ok g =>
          have hrest : readConnector? (rest { r with run := none }) = none := hc
          rw [step_of_nest_ok hoperand hhanded hnest, progress_goOn, hrest]
          rfl
      | some cts =>
        obtain ⟨c, ts⟩ := cts
        have hconnector : r.connector? = some c := by
          rw [connector?_eq, hc]
          rfl
        rw [hconnector] at hhanded
        simp only [extendRun]
        by_cases hsame : q.connector = c
        · rw [if_pos (congrArg some hsame.symm)] at hhanded
          rw [if_pos hsame, step_of_handed_none hoperand hhanded, progress_goOn, hc, hrun]
          rfl
        · rw [if_neg fun h => hsame (Option.some.inj h).symm] at hhanded
          rw [if_neg hsame]
          cases hnest : nest q.connector (f :: q.operands).reverse with
          | error reason =>
            rw [step_of_nest_error hoperand hhanded hnest]
            rfl
          | ok g =>
            have hrest : readConnector? (rest { r with run := none }) = some (c, ts) := hc
            rw [step_of_nest_ok hoperand hhanded hnest, progress_goOn, hrest]
            rfl

/-! ## What a step does -/

/-- Opens or closes a group. -/
def IsParen (t : Token) : Prop := t = .openParen ∨ t = .closeParen

/-- Opens no group, closes none, and is not the end mark. -/
def Steady (t : Token) : Prop := ¬ IsParen t ∧ t ≠ .endOfInput

/-- A filter that is at hand: the operand, an operand of the run before it, or a node that has been
found not to be too deep. -/
def Provides (r : Cursor) (f : Filter) : Prop :=
  r.operand = some f ∨ f ∈ operandsOf r.run ∨ ∃ c fs, nest c fs = .ok f

/-- What a step does. -/
inductive Does (r : Cursor) : Cursor → Outcome → Prop where
  | opens : r.operand = none → r.token 0 = .openParen → r.depth < maxDepth →
      Does r r.openGroup.skipSpace .further
  | reads {count : Nat} {f : Filter} : r.operand = none → 0 < count →
      (∀ k < count, Steady (r.token k)) → f.depth = 0 →
      Does r { r.advance count with operand := some f } .further
  | joins {c : Connector} {fs : List Filter} : r.connector? = some c → (∀ f ∈ fs, r.Provides f) →
      Does r { r.advance 3 with run := some ⟨c, fs⟩, operand := none } .further
  | closes {run : Option Run} {outer : List (Option Run)} {f : Filter} : r.Provides f →
      r.outer = run :: outer → r.skipSpace.token 0 = .closeParen →
      Does r { r.skipSpace.advance 1 with
        depth := r.depth - 1, outer := outer, run := run, operand := some f } .further
  | ends {run : Option Run} {f : Filter} : r.Provides f → r.outer = [] →
      r.token 0 = .endOfInput → Does r { r with run := run } (.finished f)
  | tooDeep : r.token 0 = .openParen → maxDepth ≤ r.depth →
      Does r r.openGroup (.refused .parenthesesTooDeep)
  /-- The last token that has been passed may be any one. -/
  | stops {count : Nat} {run : Option Run} {reason : Reason} :
      (∀ k, k + 1 < count → r.token k ≠ .endOfInput) →
      Does r { r.advance count with run := run } (.refused reason)

theorem steady_of_connector? {r : Cursor} (h : r.connector?.isSome) :
    ∀ k < 3, Steady (r.token k) := by
  unfold connector? at h
  split at h
  · next word h0 h1 h2 =>
    intro k hk
    obtain rfl | rfl | rfl : k = 0 ∨ k = 1 ∨ k = 2 := by omega
    · simp [h0, Steady, IsParen]
    · simp [h1, Steady, IsParen]
    · simp [h2, Steady, IsParen]
  · exact nomatch h

theorem does_readOperand {r : Cursor} (hoperand : r.operand = none) :
    Does r r.readOperand.1 r.readOperand.2 := by
  unfold readOperand
  split
  · next htoken =>
    split
    · next hdeep => exact .tooDeep htoken (Nat.le_of_lt_succ hdeep)
    · next hdeep => exact .opens hoperand htoken (Nat.not_lt.1 hdeep)
  · next name htoken =>
    have hname : Steady (r.token 0) := by simp [htoken, Steady, IsParen]
    split
    · next c hcomparator =>
      have hc : Steady (r.token 1) := by simp [hcomparator, Steady, IsParen]
      split
      · next raw hvalue =>
        refine .reads hoperand (Nat.succ_pos 2) (fun k hk => ?_) rfl
        obtain rfl | rfl | rfl : k = 0 ∨ k = 1 ∨ k = 2 := by omega
        · exact hname
        · exact hc
        · simp [hvalue, Steady, IsParen]
      · refine .stops fun k hk => ?_
        obtain rfl | rfl : k = 0 ∨ k = 1 := by omega
        · exact hname.2
        · exact hc.2
    · refine .reads hoperand (Nat.succ_pos 0) (fun k hk => ?_) rfl
      obtain rfl : k = 0 := by omega
      exact hname
  · exact .stops fun k hk => absurd hk (by omega)

theorem does_readEnd {r : Cursor} {f : Filter} (run : Option Run) (hf : r.Provides f) :
    Does r (readEnd { r with run := run } f).1 (readEnd { r with run := run } f).2 := by
  unfold readEnd
  dsimp only
  split
  · next houter =>
    split
    · next hend => exact .ends hf houter hend
    · exact @Does.stops r 0 run _ fun k hk => absurd hk (by omega)
  · next run' outer houter =>
    split
    · next hclose => exact .closes hf houter hclose
    · refine @Does.stops r ((if r.token 0 = .space then 1 else 0) + 1) run _ fun k hk => ?_
      -- only a blank run stands before the token that is no `)`
      by_cases hspace : r.token 0 = .space
      · rw [if_pos hspace] at hk
        obtain rfl : k = 0 := by omega
        rw [hspace]
        exact nofun
      · rw [if_neg hspace] at hk
        omega

theorem does_goOn {r : Cursor} {f : Filter} {run : Option Run} (hf : r.Provides f)
    (hrun : ∀ g ∈ operandsOf run, r.Provides g) :
    Does r (goOn { r with run := run } f).1 (goOn { r with run := run } f).2 := by
  cases hc : r.connector? with
  | some c =>
    have hgo : goOn { r with run := run } f =
        ({ r.advance 3 with run := some ⟨c, f :: operandsOf run⟩, operand := none },
          .further) := by
      have hc' : connector? { r with run := run } = some c := hc
      rw [goOn, hc']
      rfl
    rw [hgo]
    exact .joins hc (List.forall_mem_cons.2 ⟨hf, hrun⟩)
  | none =>
    have hgo : goOn { r with run := run } f = readEnd { r with run := run } f := by
      have hc' : connector? { r with run := run } = none := hc
      rw [goOn, hc']
    rw [hgo]
    exact does_readEnd run hf

theorem does_step (r : Cursor) : Does r r.step.1 r.step.2 := by
  cases hoperand : r.operand with
  | none =>
    have hstep : r.step = r.readOperand := by rw [step, hoperand]
    rw [hstep]
    exact does_readOperand hoperand
  | some f =>
    cases hhanded : r.handed f with
    | none =>
      rw [step_of_handed_none hoperand hhanded]
      exact @does_goOn r f r.run (.inl hoperand) fun g hg => .inr (.inl hg)
    | some handed =>
      obtain ⟨c, fs⟩ := handed
      cases hnest : nest c fs with
      | error reason =>
        rw [step_of_nest_error hoperand hhanded hnest]
        refine @Does.stops r (if r.connector?.isSome then 3 else 0) r.run _ fun k hk => ?_
        by_cases hc : r.connector?.isSome
        · rw [if_pos hc] at hk
          exact (steady_of_connector? hc k (by omega)).2
        · rw [if_neg hc] at hk
          omega
      | ok g =>
        rw [step_of_nest_ok hoperand hhanded hnest]
        exact does_goOn (.inr (.inr ⟨c, fs, hnest⟩)) (List.forall_mem_nil _)

/-- The count is that of the groups that are open. -/
theorem Does.depth_eq {r r' : Cursor} {o : Outcome} (h : Does r r' o)
    (hdepth : r.depth = r.outer.length) : r'.depth = r'.outer.length := by
  cases h with
  | opens => exact congrArg (· + 1) hdepth
  | tooDeep => exact congrArg (· + 1) hdepth
  | closes _ houter =>
    rw [houter, List.length_cons] at hdepth
    exact (congrArg (· - 1) hdepth).trans (Nat.add_sub_cancel _ 1)
  | reads => exact hdepth
  | joins => exact hdepth
  | ends => exact hdepth
  | stops => exact hdepth

theorem Next.does {r r' : Cursor} (h : Next r r') : Does r r' .further := by
  have hdoes := does_step r
  rw [h] at hdoes
  exact hdoes

/-- A step passes a token at least, unless it ends the reading. -/
theorem Next.position_lt {r r' : Cursor} (h : Next r r') : r.position < r'.position := by
  cases h.does with
  | opens =>
    show r.position < r.position + 1 + _
    omega
  | reads _ hcount => exact Nat.lt_add_of_pos_right hcount
  | joins => exact Nat.lt_add_of_pos_right (Nat.succ_pos 2)
  | closes =>
    show r.position < r.position + _ + 1
    omega

/-- Where the count is right, steps lead to the result of the other reader. -/
theorem exists_reaches_finish {r : Cursor} (hdepth : r.depth = r.outer.length) :
    ∃ r', Reaches r r' ∧ r'.step.2 = .ofResult r.toState.finish := by
  -- on the tokens that are left
  induction hn : r.rest.length using Nat.strongRecOn generalizing r with
  | ind n ih =>
    have hstep := progress_step hdepth
    rw [State.finish_eq, ← hstep]
    cases hr : r.step with
    | mk r' o =>
      rw [hr] at hstep
      cases o with
      | refused reason => exact ⟨r, .refl, congrArg Prod.snd hr⟩
      | finished f => exact ⟨r, .refl, congrArg Prod.snd hr⟩
      | further =>
        have hnext : Next r r' := hr
        have hless : r'.rest.length < n := hn ▸ State.length_of_step hstep.symm
        obtain ⟨last, hlast, hresult⟩ := ih _ hless (hnext.does.depth_eq hdepth) rfl
        exact ⟨last, .head hnext hlast, hresult⟩

/-- Both readers agree. -/
theorem exists_reaches_ofTokens (ts : List Token) :
    ∃ r, Reaches (start ts) r ∧ r.step.2 = .ofResult (ofTokens ts) :=
  @exists_reaches_finish (start ts) rfl

end Cursor

end Criteria.Filter
