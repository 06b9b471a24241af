import Criteria.Filter

/-!
# Tokens of filters

A filter text is cut into parentheses, blank runs, keys, and, directly after a key, a comparator
with its value. `tokenize` cuts a whole text or gives back the rest that begins with the first
term that cannot be read. Tokens are named by the reasons why a text is no filter.
-/

namespace Criteria.Filter

open Criteria.Text

/-- A piece of a filter text. -/
inductive Token where
  /-- A field name, a search word, or one of the words `AND` and `OR`. -/
  | key (name : String)
  | comparator (comparator : Comparator)
  /-- The text of a value, with its quotes if it has them. -/
  | value (raw : String)
  | openParen
  | closeParen
  /-- A run of blank characters. -/
  | space
  | endOfInput
deriving Repr, DecidableEq

namespace Token

/-- How messages write a character of a value: quotes and backslashes behind a backslash, blanks
other than the space and control characters by a letter or by their numbers. -/
def escape (c : Char) : List Char :=
  if c = '"' ∨ c = '\\' then ['\\', c]
  else if c = '\x00' then ['\\', '0']
  else if c = '\t' then ['\\', 't']
  else if c = '\n' then ['\\', 'n']
  else if c = '\r' then ['\\', 'r']
  else if c ≠ ' ' ∧ isBlank c ∨ c.toNat < 32 ∨ 127 ≤ c.toNat ∧ c.toNat < 160 then
    "\\u\x7b".toList ++ Nat.toDigits 16 c.toNat ++ ['\x7d']
  else [c]

/-- How messages name a token. A key has no character that would have to be escaped. -/
def label : Token → String
  | .key name => "Key(\"" ++ name ++ "\")"
  | .comparator c => "Op(" ++ c.label ++ ")"
  | .value raw => "Value(\"" ++ String.ofList (raw.toList.flatMap escape) ++ "\")"
  | .openParen => "LParen"
  | .closeParen => "RParen"
  | .space => "Space"
  | .endOfInput => "Eof"

end Token

/-- A nonempty text between two of the given quotes, none of which it holds, at the head of a
text; the quotes belong to what is read. -/
def readQuoted? (quote : Char) : List Char → Option (List Char × List Char)
  | [] => none
  | c :: s =>
    if c = quote then
      match readRun? (· != quote) s with
      | some (inner, _ :: rest) => some (quote :: inner ++ [quote], rest)
      | _ => none
    else none

/-- A value at the head of a text: in single quotes, in double quotes, or bare. -/
def readValue? (s : List Char) : Option (List Char × List Char) :=
  (readQuoted? '\'' s).or ((readQuoted? '"' s).or (readBareValue? s))

/-- The comparator and value that must follow a key wherever a colon does. -/
def readOperand? (s : List Char) : Option (List Token × List Char) :=
  match Comparator.read? s with
  | none => none
  | some (c, s) =>
    match readValue? s with
    | none => none
    | some (raw, rest) => some ([.comparator c, .value (String.ofList raw)], rest)

/-- A key at the head of a text, with the comparator and the value if a colon follows it. -/
def readTerm? (s : List Char) : Option (List Token × List Char) :=
  match readKey? s with
  | none => none
  | some (key, ':' :: rest) =>
    match readOperand? (':' :: rest) with
    | none => none
    | some (operand, rest) => some (.key (String.ofList key) :: operand, rest)
  | some (key, rest) => some ([.key (String.ofList key)], rest)

/-- The tokens of the piece at the head of a text: a parenthesis, a blank run or a term. -/
def readPiece? : List Char → Option (List Token × List Char)
  | [] => none
  | c :: s =>
    if c = '(' then some ([.openParen], s)
    else if c = ')' then some ([.closeParen], s)
    else if isBlank c then some ([.space], s.dropWhile isBlank)
    else readTerm? (c :: s)

theorem length_of_readQuoted? {quote : Char} {s raw rest : List Char}
    (h : readQuoted? quote s = some (raw, rest)) : rest.length < s.length := by
  unfold readQuoted? at h
  split at h
  · simp at h
  · next c s =>
    split at h
    · split at h
      · next inner d rest' hrun =>
        have := length_of_readRun? hrun
        simp only [Option.some.injEq, Prod.mk.injEq] at h
        obtain ⟨-, rfl⟩ := h
        simp only [List.length_cons] at *
        omega
      · simp at h
    · simp at h

theorem length_of_readValue? {s raw rest : List Char}
    (h : readValue? s = some (raw, rest)) : rest.length < s.length := by
  unfold readValue? at h
  rcases Option.or_eq_some_iff.1 h with h | ⟨-, h⟩
  · exact length_of_readQuoted? h
  · rcases Option.or_eq_some_iff.1 h with h | ⟨-, h⟩
    · exact length_of_readQuoted? h
    · exact length_of_readRun? h

theorem length_of_readOperand? {s rest : List Char} {ts : List Token}
    (h : readOperand? s = some (ts, rest)) : rest.length < s.length := by
  unfold readOperand? at h
  split at h
  · simp at h
  · next hc =>
    split at h
    · simp at h
    · next hv =>
      have h1 := Comparator.length_of_read? hc
      have h2 := length_of_readValue? hv
      simp only [Option.some.injEq, Prod.mk.injEq] at h
      obtain ⟨-, rfl⟩ := h
      omega

theorem length_of_readTerm? {s rest : List Char} {ts : List Token}
    (h : readTerm? s = some (ts, rest)) : rest.length < s.length := by
  unfold readTerm? at h
  split at h
  · simp at h
  · next hk =>
    have h1 := length_of_readRun? hk
    split at h
    · simp at h
    · next ho =>
      have h2 := length_of_readOperand? ho
      simp only [Option.some.injEq, Prod.mk.injEq] at h
      obtain ⟨-, rfl⟩ := h
      omega
  · next hk =>
    have h1 := length_of_readRun? hk
    simp only [Option.some.injEq, Prod.mk.injEq] at h
    obtain ⟨-, rfl⟩ := h
    exact h1

theorem length_of_readPiece? {s rest : List Char} {ts : List Token}
    (h : readPiece? s = some (ts, rest)) : rest.length < s.length := by
  unfold readPiece? at h
  split at h
  · simp at h
  · next c s =>
    split at h
    · simp only [Option.some.injEq, Prod.mk.injEq] at h
      obtain ⟨-, rfl⟩ := h
      exact Nat.lt_succ_self _
    · split at h
      · simp only [Option.some.injEq, Prod.mk.injEq] at h
        obtain ⟨-, rfl⟩ := h
        exact Nat.lt_succ_self _
      · split at h
        · simp only [Option.some.injEq, Prod.mk.injEq] at h
          obtain ⟨-, rfl⟩ := h
          exact Nat.lt_succ_of_le (List.dropWhile_sublist _).length_le
        · exact length_of_readTerm? h

/-- The tokens of a text behind those already cut, which are given latest first. -/
def tokenizeFrom (cut : List Token) (s : List Char) : Except (List Char) (List Token) :=
  if s = [] then .ok (cut.reverse ++ [.endOfInput]) else
    match _ : readPiece? s with
    | none => .error s
    | some (ts, rest) => tokenizeFrom (ts.reverse ++ cut) rest
termination_by s.length
decreasing_by exact length_of_readPiece? ‹_›

/-- The tokens of a text, the last of which marks its end; or the rest of the text from the first
term that cannot be read. -/
def tokenize (s : List Char) : Except (List Char) (List Token) := tokenizeFrom [] s

/-! ## Refusals

Why a text is no filter. A refusal carries the text as it was given and one reason. -/

/-- The deepest nesting that is read: of parentheses in the text, and of nodes in the filter. -/
def maxDepth : Nat := 64

/-- Why a text is no filter. -/
inductive Reason where
  /-- No term can be read at the head of this rest of the text. -/
  | unreadable (rest : String)
  /-- A group has to end here. -/
  | expectedClose (got : Token)
  /-- A term has to begin here. -/
  | unexpected (got : Token)
  /-- A value has to follow the comparator. -/
  | expectedValue (comparator : Comparator) (got : Token)
  /-- The text has to end here. -/
  | trailing (got : Token)
  | parenthesesTooDeep
  | connectorsTooDeep
deriving Repr, DecidableEq

/-- The words that report a text in which nothing could be read. -/
def noAlternative : String := "Backtrack(ContextError \x7b context: [], cause: None \x7d)"

def Reason.message : Reason → String
  | .unreadable rest => "Lexer error at '" ++ rest ++ "': " ++ noAlternative
  | .expectedClose got => "Expected " ++ Token.closeParen.label ++ ", got " ++ got.label
  | .unexpected got => "Unexpected token: " ++ got.label
  | .expectedValue c got => "Expected value after " ++ c.symbol ++ ", got " ++ got.label
  | .trailing got => "Unexpected token after expression: " ++ got.label
  | .parenthesesTooDeep => "Parentheses nested deeper than " ++ toString maxDepth
  | .connectorsTooDeep => "Connectors nested deeper than " ++ toString maxDepth

/-- A filter text that is not accepted, with the words that say why. -/
structure Refusal (ρ : Type) where
  filter : String
  reason : ρ
deriving Repr, DecidableEq

/-- The message of a refusal, given the message of its reason. -/
def Refusal.message {ρ : Type} (reasonMessage : ρ → String) (r : Refusal ρ) : String :=
  "invalid filter '" ++ r.filter ++ "': " ++ reasonMessage r.reason

end Criteria.Filter
