import Criteria.Filter.Token

/-!
# Reading filters

A filter text is a chain of terms joined by connectors, where a term is a search word, a
comparison, or a chain in parentheses. The connectors have one precedence and group to the left; a
run of one connector makes one node.

The tokens are read by steps from one `State` to the next. A state knows the groups that are still
open, so nothing is left to a call stack, and every step leaves fewer tokens.
-/

namespace Criteria.Filter

/-- Operands that one connector joins, latest first. -/
structure Run where
  connector : Connector
  operands : List Filter

/-- The node of some operands, unless it is too deep. -/
def nest (c : Connector) (operands : List Filter) : Except Reason Filter :=
  let node := join c operands
  if maxDepth < node.depth then .error .connectorsTooDeep else .ok node

/-- The filter that an operand makes up together with the run before it, if there is one. -/
def closeRun (run : Option Run) (f : Filter) : Except Reason Filter :=
  match run with
  | none => .ok f
  | some r => nest r.connector (f :: r.operands).reverse

/-- The run that an operand and a connector after it leave behind. Where the connector changes,
all that came before becomes the first operand. -/
def extendRun (run : Option Run) (f : Filter) (c : Connector) : Except Reason Run :=
  match run with
  | none => .ok ⟨c, [f]⟩
  | some r =>
    if r.connector = c then .ok ⟨c, f :: r.operands⟩
    else (nest r.connector (f :: r.operands).reverse).map fun group => ⟨c, [group]⟩

/-- A connector is a key `AND` or `OR` between two blank runs. -/
def readConnector? : List Token → Option (Connector × List Token)
  | .space :: .key word :: .space :: rest => (Connector.ofWord? word).map (·, rest)
  | _ => none

/-- The tokens without a blank run at their head. -/
def skipSpace : List Token → List Token
  | .space :: rest => rest
  | ts => ts

/-- The first token; past the last one the input has ended. -/
def peek (ts : List Token) : Token := ts.headD .endOfInput

/-- How far a filter has been read. -/
structure State where
  /-- For each open group, innermost first, the run before it in the group around it. -/
  outer : List (Option Run)
  /-- The run before the next operand in the innermost group. -/
  run : Option Run
  /-- The operand that has just been read; none where an operand has to follow. -/
  operand : Option Filter
  /-- The tokens that are still to be read. -/
  rest : List Token

/-- What a step leads to: a further state, or the filter that has been read. -/
inductive Progress where
  | further (s : State)
  | finished (f : Filter)

namespace State

/-- The state before the first token. -/
def start (ts : List Token) : State := ⟨[], none, none, ts⟩

/-- The state after the operand `f`, with `rest` still to be read. -/
def took (s : State) (f : Filter) (rest : List Token) : State :=
  { s with operand := some f, rest := rest }

/-- Reads the opening of a group, a comparison or a search word. -/
def readOperand (s : State) : Except Reason State :=
  match s.rest with
  | .openParen :: rest =>
    if maxDepth ≤ s.outer.length then .error .parenthesesTooDeep
    else .ok ⟨s.run :: s.outer, none, none, skipSpace rest⟩
  | .key field :: .comparator c :: .value raw :: rest =>
    .ok (s.took (.comparison field c (Literal.infer raw)) rest)
  | .key _ :: .comparator c :: rest => .error (.expectedValue c (peek rest))
  | .key word :: rest => .ok (s.took (.text word) rest)
  | ts => .error (.unexpected (peek ts))

/-- Reads the end of the innermost group, or of the text when none is open. -/
def readEnd (s : State) (f : Filter) : Except Reason Progress :=
  match s.outer with
  | [] =>
    if peek s.rest = .endOfInput then .ok (.finished f) else .error (.trailing (peek s.rest))
  | run :: outer =>
    match skipSpace s.rest with
    | .closeParen :: rest => .ok (.further ⟨outer, run, some f, rest⟩)
    | ts => .error (.expectedClose (peek ts))

/-- Reads one operand, one connector or one end. -/
def step (s : State) : Except Reason Progress :=
  match s.operand with
  | none => s.readOperand.map .further
  | some f =>
    match readConnector? s.rest with
    | some (c, rest) =>
      (extendRun s.run f c).map fun run => .further ⟨s.outer, some run, none, rest⟩
    | none => closeRun s.run f >>= s.readEnd

theorem length_of_readConnector? {ts rest : List Token} {c : Connector}
    (h : readConnector? ts = some (c, rest)) : rest.length < ts.length := by
  unfold readConnector? at h
  split at h
  · simp only [Option.map_eq_some_iff, Prod.mk.injEq] at h
    obtain ⟨_, -, -, rfl⟩ := h
    simp only [List.length_cons]
    omega
  · simp at h

theorem length_skipSpace_le (ts : List Token) : (skipSpace ts).length ≤ ts.length := by
  unfold skipSpace
  split
  · exact Nat.le_succ _
  · exact Nat.le_refl _

theorem length_of_readOperand {s t : State} (h : s.readOperand = .ok t) :
    t.rest.length < s.rest.length := by
  unfold readOperand at h
  split at h
  · next rest hr =>
    split at h
    · simp at h
    · simp only [Except.ok.injEq] at h
      subst h
      have := length_skipSpace_le rest
      simp only [hr, List.length_cons]
      omega
  · next hr =>
    simp only [Except.ok.injEq, took] at h
    subst h
    simp only [hr, List.length_cons]
    omega
  · simp at h
  · next hr =>
    simp only [Except.ok.injEq, took] at h
    subst h
    simp only [hr, List.length_cons]
    omega
  · simp at h

theorem length_of_readEnd {s t : State} {f : Filter} (h : s.readEnd f = .ok (.further t)) :
    t.rest.length < s.rest.length := by
  unfold readEnd at h
  split at h
  · split at h <;> simp at h
  · split at h
    · next rest hr =>
      simp only [Except.ok.injEq, Progress.further.injEq] at h
      subst h
      have := length_skipSpace_le s.rest
      rw [hr] at this
      exact this
    · simp at h

/-- Every step leaves fewer tokens. -/
theorem length_of_step {s t : State} (h : s.step = .ok (.further t)) :
    t.rest.length < s.rest.length := by
  unfold step at h
  split at h
  · cases hr : s.readOperand with
    | error e => rw [hr] at h; cases h
    | ok u =>
      rw [hr] at h
      cases h
      exact length_of_readOperand hr
  · split at h
    · next hc =>
      cases he : extendRun s.run _ _ with
      | error e => rw [he] at h; cases h
      | ok run =>
        rw [he] at h
        cases h
        exact length_of_readConnector? hc
    · cases hc : closeRun s.run _ with
      | error e => rw [hc] at h; cases h
      | ok g =>
        rw [hc] at h
        exact length_of_readEnd h

/-- Reads to the end. -/
def finish (s : State) : Except Reason Filter :=
  match _ : s.step with
  | .error r => .error r
  | .ok (.finished f) => .ok f
  | .ok (.further t) => t.finish
termination_by s.rest.length
decreasing_by exact length_of_step ‹_›

end State

/-- The filter that a list of tokens denotes. -/
def ofTokens (ts : List Token) : Except Reason Filter := (State.start ts).finish

/-- The filter that a text without blanks at its ends denotes. -/
def ofChars (s : List Char) : Except Reason Filter :=
  match tokenize s with
  | .error rest => .error (.unreadable (String.ofList rest))
  | .ok ts => ofTokens ts

/-- Reads a filter text. A blank text is no filter; all others denote one or are refused as a
whole. -/
def parse (text : String) : Except (Refusal Reason) (Option Filter) :=
  let s := Text.trim text.toList
  if s = [] then .ok none else
    match ofChars s with
    | .error reason => .error ⟨text, reason⟩
    | .ok f => .ok (some f)

end Criteria.Filter
