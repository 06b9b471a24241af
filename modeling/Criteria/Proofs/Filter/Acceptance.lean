import Criteria.Proofs.Filter.Reading
import Mathlib.Data.List.Basic

/-!
# Accepted filters

Main statement (`parse_outcome`): a text that is not blank is read as the filter of its derivation
when the derivation nests at most 64 parentheses and the filter is at most 64 deep, and is refused
in all other cases.
-/

namespace Criteria.Filter

open Criteria.Text

/-! ## Whole texts -/

theorem Cut.endOfInput_not_mem {s : List Char} {ts : List Token} (h : Cut s ts) :
    Token.endOfInput ∉ ts := by
  induction h with
  | nil => exact List.not_mem_nil
  | piece hp _ ih =>
    obtain ⟨p, hpiece, -⟩ := readPiece?_eq_some_iff.1 hp
    rw [List.mem_append]
    rintro (hmem | hmem)
    · cases hpiece.piece <;> simp at hmem
    · exact ih hmem

mutual

theorem Term.Tokens.endOfInput_not_mem {term : Term} {ts : List Token} (h : term.Tokens ts) :
    Token.endOfInput ∉ ts := by
  cases h with
  | word => simp
  | comparison => simp
  | group hbefore hinner hafter =>
    have hinner := Chain.Tokens.endOfInput_not_mem hinner
    simp only [List.mem_cons, List.not_mem_nil, or_false] at hbefore hafter
    rcases hbefore with rfl | rfl <;> rcases hafter with rfl | rfl <;> simpa using hinner

theorem Chain.Tokens.endOfInput_not_mem {chain : Chain} {ts : List Token}
    (h : chain.Tokens ts) : Token.endOfInput ∉ ts := by
  cases h with
  | single hterm => exact Term.Tokens.endOfInput_not_mem hterm
  | more hinit hlast =>
    have hinit := Chain.Tokens.endOfInput_not_mem hinit
    have hlast := Term.Tokens.endOfInput_not_mem hlast
    simp [hinit, hlast]

end

theorem Chain.Spells.exists_cut {chain : Chain} {s : List Char} (h : chain.Spells s) :
    ∃ ts, chain.Tokens ts ∧ Cut s ts := by
  have hstops : Stops [] := by
    intro c hc
    exact nomatch hc
  obtain ⟨ts, hts, hcut⟩ := h.exists_tokens hstops .nil
  rw [List.append_nil, List.append_nil] at hcut
  exact ⟨ts, hts, hcut⟩

theorem Chain.Tokens.spells_of_cut {chain : Chain} {s : List Char} {ts : List Token}
    (h : chain.Tokens ts) (hcut : Cut s ts) : chain.Spells s := by
  rw [← List.append_nil ts] at hcut
  obtain ⟨p, rest, hp, rfl, hrest⟩ := h.exists_spells hcut (fun c hc => nomatch hc)
  rw [hrest.eq_nil, List.append_nil]
  exact hp

theorem follows_endOfInput : Follows [Token.endOfInput] := by
  intro c hc
  exact nomatch hc

theorem ofChars_of_cut {s : List Char} {ts : List Token} (h : Cut s ts) :
    ofChars s = (State.start (ts ++ [.endOfInput])).finish := by
  rw [ofChars, tokenize_eq_ok_iff.2 ⟨ts, h, rfl⟩]
  rfl

/-- Behind a last operand only the end mark is left, since it stands nowhere else. -/
theorem append_endOfInput_inj {ts us vs : List Token} (hts : Token.endOfInput ∉ ts)
    (hus : Token.endOfInput ∉ us) (hvs : peek vs = .endOfInput)
    (h : ts ++ [.endOfInput] = us ++ vs) : ts = us := by
  rcases List.append_eq_append_iff.1 h with ⟨mid, rfl, hmid⟩ | ⟨mid, rfl, rfl⟩
  · cases mid with
    | nil => rw [List.append_nil]
    | cons t mid =>
      obtain rfl := (List.cons.inj hmid).1
      exact absurd (List.mem_append_right ts List.mem_cons_self) hus
  · cases mid with
    | nil => rw [List.append_nil]
    | cons t mid =>
      obtain rfl : t = .endOfInput := hvs
      exact absurd (List.mem_append_right us List.mem_cons_self) hts

/-- A text that is read has a derivation. -/
theorem exists_spells_of_ofChars {s : List Char} {f : Filter} (h : ofChars s = .ok f) :
    ∃ chain : Chain, chain.Spells s := by
  cases htok : tokenize s with
  | error rest =>
    rw [ofChars, htok] at h
    exact nomatch h
  | ok ts =>
    obtain ⟨us, hcut, rfl⟩ := tokenize_eq_ok_iff.1 htok
    rw [ofChars_of_cut hcut] at h
    have houter : ([] : List (Option Run)).length ≤ maxDepth := Nat.zero_le maxDepth
    obtain ⟨chain, vs, ws, hsplit, hchain, hws, hend⟩ := exists_tokens_of_finish houter h
    rw [State.start, hsplit] at h
    obtain ⟨-, run, g, -, -, hg⟩ := hchain.of_finish hws houter h
    have hpeek := ((State.finish_end_iff hend).1 hg).2
    -- nothing but the end mark is behind the chain that was found
    have htokens :=
      append_endOfInput_inj hcut.endOfInput_not_mem hchain.endOfInput_not_mem hpeek hsplit
    subst htokens
    exact ⟨chain, hchain.spells_of_cut hcut⟩

/-- Every derivation of a text that is read is within the limits and denotes what is read. -/
theorem Chain.Spells.of_ofChars {chain : Chain} {s : List Char} {f : Filter}
    (hs : chain.Spells s) (h : ofChars s = .ok f) :
    chain.nesting ≤ maxDepth ∧ chain.toFilter.depth ≤ maxDepth ∧ chain.toFilter = f := by
  obtain ⟨ts, hts, hcut⟩ := hs.exists_cut
  rw [ofChars_of_cut hcut, State.start] at h
  have houter : ([] : List (Option Run)).length ≤ maxDepth := Nat.zero_le maxDepth
  obtain ⟨hnest, run, g, hg, hm, hf⟩ := hts.of_finish follows_endOfInput houter h
  have hclose := ((State.finish_end_iff rfl).1 hf).1
  obtain ⟨rfl, hdepth⟩ := (hm.closeRun_eq_ok_iff hg).1 hclose
  refine ⟨?_, hdepth, rfl⟩
  rw [List.length_nil, Nat.zero_add] at hnest
  exact hnest

/-- A text with a derivation within the limits is read. -/
theorem Chain.Spells.ofChars_eq {chain : Chain} {s : List Char} (hs : chain.Spells s)
    (hnest : chain.nesting ≤ maxDepth) (hdepth : chain.toFilter.depth ≤ maxDepth) :
    ofChars s = .ok chain.toFilter := by
  obtain ⟨ts, hts, hcut⟩ := hs.exists_cut
  rw [ofChars_of_cut hcut, State.start]
  refine hts.finish_of_fits follows_endOfInput ?_ hdepth ?_
  · rw [List.length_nil, Nat.zero_add]
    exact hnest
  · intro run g hg hm
    exact (State.finish_end_iff rfl).2 ⟨(hm.closeRun_eq_ok_iff hg).2 ⟨rfl, hdepth⟩, rfl⟩

/-! ## Texts as they are given -/

theorem Term.Spells.ne_nil {term : Term} {s : List Char} (h : term.Spells s) : s ≠ [] := by
  cases h with
  | word hkey => exact hkey.1
  | comparison hkey _ => simp [hkey.1]
  | group _ _ _ => exact List.cons_ne_nil _ _

theorem Chain.Spells.ne_nil {chain : Chain} {s : List Char} (h : chain.Spells s) : s ≠ [] := by
  cases h with
  | more _ hbefore _ _ => simp [hbefore.1]
  | single hterm => exact hterm.ne_nil

theorem parse_eq_none_iff {text : String} :
    parse text = .ok none ↔ blank text.toList = true := by
  rw [← trim_eq_nil_iff, parse]
  by_cases h : trim text.toList = []
  · simp [h]
  · simp only [h, if_false, iff_false]
    split <;> exact nofun

theorem parse_eq_some_iff {text : String} {f : Filter} :
    parse text = .ok (some f) ↔
      trim text.toList ≠ [] ∧ ofChars (trim text.toList) = .ok f := by
  rw [parse]
  by_cases h : trim text.toList = []
  · simp [h]
  · simp only [h, if_false, ne_eq, not_false_eq_true, true_and]
    split
    · next heq => simp [heq]
    · next heq => simp [heq]

/-- A text is refused as it was given. -/
theorem filter_of_parse_eq_error {text : String} {refusal : Refusal Reason}
    (h : parse text = .error refusal) : refusal.filter = text := by
  rw [parse] at h
  split at h
  · exact nomatch h
  · split at h
    · obtain rfl := Except.error.inj h
      rfl
    · exact nomatch h

/-- A text is refused, as it was given, when it is neither blank nor read. -/
theorem exists_parse_eq_error_iff {text : String} :
    (∃ reason, parse text = .error ⟨text, reason⟩) ↔
      blank text.toList = false ∧ ∀ f, parse text ≠ .ok (some f) := by
  rw [← Bool.not_eq_true, ← parse_eq_none_iff]
  constructor
  · rintro ⟨reason, h⟩
    rw [h]
    exact ⟨nofun, nofun⟩
  · rintro ⟨hnone, hsome⟩
    cases h : parse text with
    | ok f =>
      cases f with
      | none => exact absurd h hnone
      | some f => exact absurd h (hsome f)
    | error refusal =>
      obtain rfl := filter_of_parse_eq_error h
      exact ⟨refusal.reason, rfl⟩

/-- A text has a derivation within the limits, and the filter that it denotes is `f`. -/
def Denotes (s : List Char) (f : Filter) : Prop :=
  ∃ chain : Chain, chain.Spells s ∧ chain.nesting ≤ 64 ∧ chain.toFilter.depth ≤ 64 ∧
    chain.toFilter = f

theorem parse_eq_some_iff_denotes {text : String} {f : Filter} :
    parse text = .ok (some f) ↔ Denotes (trim text.toList) f := by
  rw [parse_eq_some_iff]
  constructor
  · rintro ⟨-, h⟩
    obtain ⟨chain, hs⟩ := exists_spells_of_ofChars h
    exact ⟨chain, hs, hs.of_ofChars h⟩
  · rintro ⟨chain, hs, hnest, hdepth, rfl⟩
    exact ⟨hs.ne_nil, hs.ofChars_eq hnest hdepth⟩

/-- A text is read when it is blank or has a derivation within the limits. -/
theorem exists_parse_eq_ok_iff {text : String} :
    (∃ r, parse text = .ok r) ↔
      blank text.toList = true ∨ ∃ f, Denotes (trim text.toList) f := by
  constructor
  · rintro ⟨r, hr⟩
    cases r with
    | none => exact .inl (parse_eq_none_iff.1 hr)
    | some f => exact .inr ⟨f, parse_eq_some_iff_denotes.1 hr⟩
  · rintro (hblank | ⟨f, hf⟩)
    · exact ⟨none, parse_eq_none_iff.2 hblank⟩
    · exact ⟨some f, parse_eq_some_iff_denotes.2 hf⟩

theorem IsValue.getLast?_not_blank {s : List Char} (h : IsValue s) :
    ∀ c ∈ s.getLast?, isBlank c = false := by
  intro c hc
  cases h with
  | bare hbare => exact hbare.not_blank c (List.mem_of_getLast? hc)
  | @quoted q inner hq _ _ =>
    rw [← List.cons_append, List.getLast?_concat] at hc
    obtain rfl := Option.some.inj hc
    rcases hq with rfl | rfl <;> decide

theorem IsValue.ne_nil {s : List Char} (h : IsValue s) : s ≠ [] := by
  cases h with
  | bare hbare => exact hbare.1
  | quoted _ _ _ => exact List.cons_ne_nil _ _

theorem Term.Spells.getLast?_not_blank {term : Term} {s : List Char} (h : term.Spells s) :
    ∀ c ∈ s.getLast?, isBlank c = false := by
  intro c hc
  cases h with
  | word hkey => exact hkey.not_blank c (List.mem_of_getLast? hc)
  | comparison _ hvalue =>
    rw [List.getLast?_append_of_ne_nil _ hvalue.ne_nil] at hc
    exact hvalue.getLast?_not_blank c hc
  | group _ _ _ =>
    rw [← List.cons_append, List.getLast?_concat] at hc
    obtain rfl := Option.some.inj hc
    decide

theorem Chain.Spells.getLast?_not_blank {chain : Chain} {s : List Char} (h : chain.Spells s) :
    ∀ c ∈ s.getLast?, isBlank c = false := by
  cases h with
  | single hterm => exact hterm.getLast?_not_blank
  | more _ _ _ hlast =>
    rw [List.getLast?_append_of_ne_nil _ hlast.ne_nil]
    exact hlast.getLast?_not_blank

/-- A text with a derivation has no blanks at its ends. -/
theorem Chain.Spells.trim_eq {chain : Chain} {s : List Char} (h : chain.Spells s) :
    trim s = s := by
  have hhead := h.head []
  rw [List.append_nil] at hhead
  exact trim_eq_self hhead h.getLast?_not_blank

/-- A text with a derivation within the limits is read as the filter of the derivation. -/
theorem Chain.Spells.parse_eq {chain : Chain} {text : String} (h : chain.Spells text.toList)
    (hnest : chain.nesting ≤ 64) (hdepth : chain.toFilter.depth ≤ 64) :
    parse text = .ok (some chain.toFilter) := by
  rw [parse_eq_some_iff_denotes, h.trim_eq]
  exact ⟨chain, h, hnest, hdepth, rfl⟩

/-- **Reading is the grammar.** A blank text is no filter; any other text is read as the filter
that its derivation within the limits denotes, and is refused when it has none. -/
theorem parse_outcome (text : String) :
    (parse text = .ok none ↔ blank text.toList = true) ∧
    (∀ f, parse text = .ok (some f) ↔ Denotes (trim text.toList) f) ∧
    ((∃ reason, parse text = .error ⟨text, reason⟩) ↔
      blank text.toList = false ∧ ¬ ∃ f, Denotes (trim text.toList) f) := by
  refine ⟨parse_eq_none_iff, fun f => parse_eq_some_iff_denotes, ?_⟩
  rw [exists_parse_eq_error_iff]
  simp only [ne_eq, parse_eq_some_iff_denotes, not_exists]

end Criteria.Filter
