import Criteria.Proofs.Filter.Lexemes

/-!
# Reasons of refusals

Which reasons a text can be refused for once it has been cut into tokens. Tokens stand in their
order (`MayPrecede`), and this tells at each place of a filter what may come next: `State.Placed`
holds of the first state, is kept by every step and leaves few reasons to stop
(`State.step_placed`). Main statement (`occurs_of_parse_eq_error`): the reasons of refusals and
their messages.
-/

namespace Criteria.Filter

open Criteria.Text

/-- The text that stands for a token in a message. It is written for the tokens that a piece may
begin with and for the end mark; a key needs no escapes. -/
inductive Named : Token → String → Prop where
  | key {name : String} : IsKey name.toList → Named (.key name) ("Key(\"" ++ name ++ "\")")
  | openParen : Named .openParen "LParen"
  | closeParen : Named .closeParen "RParen"
  | space : Named .space "Space"
  | endOfInput : Named .endOfInput "Eof"

/-- The reasons for which a text that has been cut into tokens is refused, with their messages. -/
inductive Occurs : Reason → String → Prop where
  | expectedClose {got : Token} {text : String} :
      (∃ name, got = .key name) ∨ got = .openParen ∨ got = .endOfInput → Named got text →
      Occurs (.expectedClose got) ("Expected RParen, got " ++ text)
  | unexpected {got : Token} {text : String} : got = .closeParen ∨ got = .endOfInput →
      Named got text → Occurs (.unexpected got) ("Unexpected token: " ++ text)
  | trailing {got : Token} {text : String} :
      (∃ name, got = .key name) ∨ got = .openParen ∨ got = .closeParen ∨ got = .space →
      Named got text → Occurs (.trailing got) ("Unexpected token after expression: " ++ text)
  | parenthesesTooDeep : Occurs .parenthesesTooDeep "Parentheses nested deeper than 64"
  | connectorsTooDeep : Occurs .connectorsTooDeep "Connectors nested deeper than 64"

/-- The token that a reason names. -/
def Reason.named : Reason → Option Token
  | .expectedClose got => some got
  | .unexpected got => some got
  | .expectedValue _ got => some got
  | .trailing got => some got
  | .unreadable _ => none
  | .parenthesesTooDeep => none
  | .connectorsTooDeep => none

theorem Named.isInitial {t : Token} {text : String} (h : Named t text) : IsInitial t := by
  cases h <;> exact ⟨nofun, nofun⟩

theorem Occurs.isInitial {reason : Reason} {message : String} (h : Occurs reason message) :
    ∀ got ∈ reason.named, IsInitial got := by
  intro got hgot
  cases h with
  | expectedClose _ hnamed =>
    cases hgot
    exact hnamed.isInitial
  | unexpected _ hnamed =>
    cases hgot
    exact hnamed.isInitial
  | trailing _ hnamed =>
    cases hgot
    exact hnamed.isInitial
  | parenthesesTooDeep => exact nomatch hgot
  | connectorsTooDeep => exact nomatch hgot

theorem Occurs.ne_expectedValue {reason : Reason} {message : String} (h : Occurs reason message)
    (c : Comparator) (got : Token) : reason ≠ .expectedValue c got := by
  rintro rfl
  cases h

/-! ## Tokens in order -/

/-- Tokens of a text in their order, with the end mark behind them. -/
structure Ordered (ts : List Token) : Prop where
  isChain : ts.IsChain MayPrecede
  isKey : ∀ name, .key name ∈ ts → IsKey name.toList
  ends : ts.getLast? = some .endOfInput

theorem Cut.isKey {s : List Char} {us : List Token} (h : Cut s us) {name : String}
    (hname : .key name ∈ us) : IsKey name.toList := by
  induction h with
  | nil => exact absurd hname List.not_mem_nil
  | piece hp _ ih =>
    obtain ⟨p, hpiece, -⟩ := readPiece?_eq_some_iff.1 hp
    rcases List.mem_append.1 hname with hname | hname
    · cases hpiece.piece with
      | key hkey =>
        obtain rfl : name = _ := by simpa using hname
        exact hkey
      | comparison hkey _ =>
        obtain rfl : name = _ := by simpa using hname
        exact hkey
      | _ => simp at hname
    · exact ih hname

theorem Cut.ordered {s : List Char} {us : List Token} (h : Cut s us) :
    Ordered (us ++ [Token.endOfInput]) where
  isChain := h.isChain
  isKey name hname := h.isKey (by simpa using hname)
  ends := List.getLast?_concat

/-- A token before the end mark has a next one. -/
theorem Ordered.exists_next {t : Token} {ts : List Token} (h : Ordered (t :: ts))
    (ht : t ≠ .endOfInput) : ∃ u us, ts = u :: us ∧ MayPrecede t u ∧ Ordered (u :: us) := by
  obtain ⟨hchain, hkey, hends⟩ := h
  cases ts with
  | nil =>
    rw [List.getLast?_singleton] at hends
    exact absurd (Option.some.inj hends) ht
  | cons u us =>
    rw [List.isChain_cons_cons] at hchain
    rw [List.getLast?_cons_cons] at hends
    refine ⟨u, us, rfl, hchain.1, hchain.2, ?_, hends⟩
    intro name hname
    exact hkey name (List.mem_cons_of_mem t hname)

/-- Behind a token that is neither a key nor a comparator a piece begins. -/
theorem MayPrecede.isInitial {a b : Token} (h : MayPrecede a b) (hkey : ∀ name, a ≠ .key name)
    (hcomparator : ∀ c, a ≠ .comparator c) : IsInitial b := by
  constructor
  · rintro c rfl
    obtain ⟨name, rfl⟩ := h.before_comparator c rfl
    exact hkey name rfl
  · rintro raw rfl
    obtain ⟨c, rfl⟩ := h.before_value raw rfl
    exact hcomparator c rfl

/-- Where a piece, or the end, comes next. -/
structure AtPiece (ts : List Token) : Prop where
  ordered : Ordered ts
  initial : ∀ t ∈ ts.head?, IsInitial t

/-- Where a piece that is no blank run, or the end, comes next. -/
structure AtOperand (ts : List Token) : Prop extends AtPiece ts where
  not_space : ∀ t ∈ ts.head?, t ≠ .space

theorem AtPiece.next {t : Token} {ts : List Token} (h : AtPiece (t :: ts))
    (ht : t ≠ .endOfInput) (hkey : ∀ name, t ≠ .key name) : AtPiece ts := by
  obtain ⟨u, us, rfl, hmeets, hordered⟩ := h.ordered.exists_next ht
  refine ⟨hordered, fun v hv => ?_⟩
  obtain rfl := Option.some.inj hv
  exact hmeets.isInitial hkey (h.initial t rfl).1

/-- Two blank runs never meet. -/
theorem AtPiece.behind_space {ts : List Token} (h : AtPiece (.space :: ts)) : AtOperand ts := by
  refine ⟨h.next nofun nofun, fun v hv => ?_⟩
  obtain ⟨u, us, rfl, hmeets, -⟩ := h.ordered.exists_next nofun
  obtain rfl := Option.some.inj hv
  exact hmeets.space rfl

theorem AtPiece.skipSpace {ts : List Token} (h : AtPiece ts) : AtOperand (skipSpace ts) := by
  unfold Filter.skipSpace
  split
  · exact h.behind_space
  · next hspace =>
    refine ⟨h, ?_⟩
    rintro t ht rfl
    obtain ⟨us, rfl⟩ := List.head?_eq_some_iff.1 ht
    exact hspace us rfl

theorem IsInitial.cases {t : Token} (h : IsInitial t) :
    (∃ name, t = .key name) ∨ t = .openParen ∨ t = .closeParen ∨ t = .space ∨
      t = .endOfInput := by
  cases t with
  | key name => exact .inl ⟨name, rfl⟩
  | comparator c => exact absurd rfl (h.1 c)
  | value raw => exact absurd rfl (h.2 raw)
  | openParen => exact .inr (.inl rfl)
  | closeParen => exact .inr (.inr (.inl rfl))
  | space => exact .inr (.inr (.inr (.inl rfl)))
  | endOfInput => exact .inr (.inr (.inr (.inr rfl)))

/-- Past the last token the end is seen, too. -/
theorem AtPiece.isInitial_peek {ts : List Token} (h : AtPiece ts) : IsInitial (peek ts) := by
  cases ts with
  | nil => exact ⟨nofun, nofun⟩
  | cons t ts => exact h.initial t rfl

/-- A message has a text for what comes next. -/
theorem AtPiece.named_peek {ts : List Token} (h : AtPiece ts) :
    Named (peek ts) (peek ts).label := by
  rcases h.isInitial_peek.cases with ⟨name, hname⟩ | hopen | hclose | hspace | hend
  · cases ts with
    | nil => exact nomatch hname
    | cons t ts =>
      obtain rfl : t = .key name := hname
      exact .key (h.ordered.isKey name List.mem_cons_self)
  · rw [hopen]
    exact .openParen
  · rw [hclose]
    exact .closeParen
  · rw [hspace]
    exact .space
  · rw [hend]
    exact .endOfInput

theorem AtOperand.peek_ne_space {ts : List Token} (h : AtOperand ts) : peek ts ≠ .space := by
  cases ts with
  | nil => exact nofun
  | cons t ts => exact h.not_space t rfl

/-- A connector's word is a key between two blank runs, and an operand begins behind them. -/
theorem AtPiece.behind_connector {ts rest : List Token} {c : Connector} (h : AtPiece ts)
    (hc : readConnector? ts = some (c, rest)) : AtOperand rest := by
  obtain rfl := eq_of_readConnector? hc
  obtain ⟨_, _, hts, -, hkey⟩ := h.ordered.exists_next nofun
  obtain ⟨rfl, rfl⟩ := List.cons.inj hts
  obtain ⟨_, _, hts, -, hspace⟩ := hkey.exists_next nofun
  obtain ⟨rfl, rfl⟩ := List.cons.inj hts
  have hpiece : AtPiece (.space :: rest) :=
    ⟨hspace, fun t ht => by cases ht; exact ⟨nofun, nofun⟩⟩
  exact hpiece.behind_space

/-! ## Steps -/

theorem nest_eq_error {c : Connector} {fs : List Filter} {reason : Reason}
    (h : nest c fs = .error reason) : reason = .connectorsTooDeep := by
  unfold nest at h
  by_cases hdeep : maxDepth < (join c fs).depth
  · rw [if_pos hdeep] at h
    exact (Except.error.inj h).symm
  · rw [if_neg hdeep] at h
    exact nomatch h

theorem closeRun_eq_error {run : Option Run} {f : Filter} {reason : Reason}
    (h : closeRun run f = .error reason) : reason = .connectorsTooDeep := by
  cases run with
  | none => exact nomatch h
  | some r => exact nest_eq_error h

theorem extendRun_eq_error {run : Option Run} {f : Filter} {c : Connector} {reason : Reason}
    (h : extendRun run f c = .error reason) : reason = .connectorsTooDeep := by
  unfold extendRun at h
  split at h
  · exact nomatch h
  · next r =>
    split at h
    · exact nomatch h
    · cases hnest : nest r.connector (f :: r.operands).reverse with
      | error e =>
        rw [hnest] at h
        rw [← Except.error.inj h]
        exact nest_eq_error hnest
      | ok g =>
        rw [hnest] at h
        exact nomatch h

namespace State

/-- What comes next in a state, as the order of tokens has it. -/
structure Placed (s : State) : Prop where
  atPiece : AtPiece s.rest
  atOperand : s.operand = none → AtOperand s.rest

theorem Placed.of_atOperand {s : State} (h : AtOperand s.rest) : s.Placed :=
  ⟨h.toAtPiece, fun _ => h⟩

theorem Placed.of_operand {s : State} {f : Filter} (hf : s.operand = some f)
    (h : AtPiece s.rest) : s.Placed :=
  ⟨h, fun hnone => nomatch hnone.symm.trans hf⟩

/-- Reading an operand leads to a place that the order of tokens knows, or fails for a reason that
occurs. -/
theorem readOperand_placed {s : State} (hs : AtOperand s.rest) :
    (∃ t, s.readOperand = .ok t ∧ t.Placed) ∨
      ∃ reason, s.readOperand = .error reason ∧ Occurs reason reason.message := by
  obtain ⟨outer, run, operand, rest⟩ := s
  cases rest with
  | nil => exact .inr ⟨_, rfl, .unexpected (.inr rfl) .endOfInput⟩
  | cons t rest =>
    cases t with
    | openParen =>
      by_cases hdeep : maxDepth ≤ outer.length
      · exact .inr ⟨_, if_pos hdeep, .parenthesesTooDeep⟩
      · exact .inl ⟨_, if_neg hdeep, .of_atOperand (hs.toAtPiece.next nofun nofun).skipSpace⟩
    | key name =>
      obtain ⟨u, us, rfl, hmeets, hordered⟩ := hs.ordered.exists_next nofun
      by_cases hu : ∃ c, u = .comparator c
      · -- a value stands behind the comparator, and a piece begins behind that
        obtain ⟨c, rfl⟩ := hu
        obtain ⟨v, vs, rfl, hmeets', hordered'⟩ := hordered.exists_next nofun
        obtain ⟨raw, rfl⟩ := hmeets'.behind_comparator c rfl
        obtain ⟨w, ws, rfl, hmeets'', hordered''⟩ := hordered'.exists_next nofun
        refine .inl ⟨_, rfl, .of_operand rfl ⟨hordered'', fun x hx => ?_⟩⟩
        obtain rfl := Option.some.inj hx
        exact hmeets''.isInitial nofun nofun
      · have hinitial : IsInitial u := by
          refine ⟨fun c hc => hu ⟨c, hc⟩, fun raw hraw => ?_⟩
          obtain ⟨c, hc⟩ := hmeets.before_value raw hraw
          exact nomatch hc
        have hfollows : Follows (u :: us) := by
          intro c hc
          exact hu ⟨c, Option.some.inj hc⟩
        refine .inl ⟨_, readOperand_word hfollows, .of_operand rfl ⟨hordered, fun x hx => ?_⟩⟩
        obtain rfl := Option.some.inj hx
        exact hinitial
    | closeParen => exact .inr ⟨_, rfl, .unexpected (.inl rfl) .closeParen⟩
    | endOfInput => exact .inr ⟨_, rfl, .unexpected (.inr rfl) .endOfInput⟩
    | comparator c => exact absurd rfl ((hs.initial _ rfl).1 c)
    | value raw => exact absurd rfl ((hs.initial _ rfl).2 raw)
    | space => exact absurd rfl (hs.not_space _ rfl)

/-- Reading an end leads to such a place, finishes, or fails for a reason that occurs. -/
theorem readEnd_placed {s : State} (hs : AtPiece s.rest) (f : Filter) :
    s.readEnd f = .ok (.finished f) ∨ (∃ t, s.readEnd f = .ok (.further t) ∧ t.Placed) ∨
      ∃ reason, s.readEnd f = .error reason ∧ Occurs reason reason.message := by
  obtain ⟨outer, run, operand, rest⟩ := s
  cases outer with
  | nil =>
    by_cases hend : peek rest = .endOfInput
    · exact .inl (if_pos hend)
    · refine .inr (.inr ⟨_, if_neg hend, .trailing ?_ hs.named_peek⟩)
      rcases hs.isInitial_peek.cases with hkey | hopen | hclose | hspace | hend'
      · exact .inl hkey
      · exact .inr (.inl hopen)
      · exact .inr (.inr (.inl hclose))
      · exact .inr (.inr (.inr hspace))
      · exact absurd hend' hend
  | cons run' outer =>
    have hoperand := hs.skipSpace
    unfold readEnd
    dsimp only at hoperand ⊢
    split
    · next rest' hrest =>
      rw [hrest] at hoperand
      exact .inr (.inl ⟨_, rfl, .of_operand rfl (hoperand.toAtPiece.next nofun nofun)⟩)
    · next hclose =>
      refine .inr (.inr ⟨_, rfl, .expectedClose ?_ hoperand.named_peek⟩)
      rcases hoperand.isInitial_peek.cases with hkey | hopen | hpeek | hspace | hend
      · exact .inl hkey
      · exact .inr (.inl hopen)
      · -- a closing parenthesis would have been read
        generalize skipSpace rest = ts at hclose hpeek
        cases ts with
        | nil => exact nomatch hpeek
        | cons t ts =>
          obtain rfl : t = .closeParen := hpeek
          exact absurd rfl (hclose ts)
      · exact absurd hspace hoperand.peek_ne_space
      · exact .inr (.inr hend)

/-- Every step from such a place leads to another, finishes, or fails for a reason that occurs. -/
theorem step_placed {s : State} (hs : s.Placed) :
    (∃ f, s.step = .ok (.finished f)) ∨ (∃ t, s.step = .ok (.further t) ∧ t.Placed) ∨
      ∃ reason, s.step = .error reason ∧ Occurs reason reason.message := by
  have hdeep : ∀ {reason : Reason}, reason = .connectorsTooDeep →
      Occurs reason reason.message := by
    rintro _ rfl
    exact .connectorsTooDeep
  unfold step
  cases hoperand : s.operand with
  | none =>
    rcases readOperand_placed (hs.atOperand hoperand) with ⟨t, ht, hplaced⟩ | ⟨reason, hr, hoccurs⟩
    · exact .inr (.inl ⟨t, by rw [ht]; rfl, hplaced⟩)
    · exact .inr (.inr ⟨reason, by rw [hr]; rfl, hoccurs⟩)
  | some f =>
    dsimp only
    cases hc : readConnector? s.rest with
    | some cr =>
      obtain ⟨c, rest⟩ := cr
      dsimp only
      cases hrun : extendRun s.run f c with
      | error e => exact .inr (.inr ⟨e, rfl, hdeep (extendRun_eq_error hrun)⟩)
      | ok r => exact .inr (.inl ⟨_, rfl, .of_atOperand (hs.atPiece.behind_connector hc)⟩)
    | none =>
      dsimp only
      cases hclose : closeRun s.run f with
      | error e => exact .inr (.inr ⟨e, rfl, hdeep (closeRun_eq_error hclose)⟩)
      | ok g =>
        rcases readEnd_placed hs.atPiece g with hfinished | hfurther | herror
        · exact .inl ⟨g, hfinished⟩
        · exact .inr (.inl hfurther)
        · exact .inr (.inr herror)

/-- Reading stops for a reason that occurs. -/
theorem Placed.occurs {s : State} (hs : s.Placed) {reason : Reason}
    (h : s.finish = .error reason) : Occurs reason reason.message := by
  -- on the steps, each of which leads from place to place
  fun_induction finish s with
  | case1 s e hstep =>
    obtain rfl := Except.error.inj h
    rcases step_placed hs with ⟨f, hf⟩ | ⟨t, ht, -⟩ | ⟨reason, hr, hoccurs⟩
    · exact nomatch hstep.symm.trans hf
    · exact nomatch hstep.symm.trans ht
    · obtain rfl := Except.error.inj (hstep.symm.trans hr)
      exact hoccurs
  | case2 => exact nomatch h
  | case3 s t hstep ih =>
    rcases step_placed hs with ⟨f, hf⟩ | ⟨u, hu, hplaced⟩ | ⟨reason, hr, -⟩
    · exact nomatch hstep.symm.trans hf
    · cases hstep.symm.trans hu
      exact ih hplaced h
    · exact nomatch hstep.symm.trans hr

end State

/-! ## Texts -/

/-- A text that does not begin with a blank is cut into tokens that begin with an operand. -/
theorem Cut.atOperand {s : List Char} {us : List Token} (h : Cut s us)
    (hs : ∀ c ∈ s.head?, isBlank c = false) : AtOperand (us ++ [Token.endOfInput]) := by
  refine ⟨⟨h.ordered, fun t ht => (h.head t ht).1⟩, ?_⟩
  intro t ht hspace
  obtain ⟨c, hc, hblank⟩ := (h.head t ht).2.1 hspace
  exact absurd hblank (Bool.eq_false_iff.1 (hs c hc))

/-- **Few reasons occur.** A text that is cut into tokens and refused is refused as it was given,
for one of five kinds of reason, of which none says that a value is missing and none names a
comparator or a value. -/
theorem occurs_of_parse_eq_error {text : String} {ts : List Token} {refusal : Refusal Reason}
    (htokens : tokenize (trim text.toList) = .ok ts) (h : parse text = .error refusal) :
    refusal.filter = text ∧ Occurs refusal.reason refusal.reason.message ∧
    (∀ c got, refusal.reason ≠ .expectedValue c got) ∧
    ∀ got ∈ refusal.reason.named, (∀ c, got ≠ .comparator c) ∧ ∀ raw, got ≠ .value raw := by
  have hoccurs : Occurs refusal.reason refusal.reason.message := by
    obtain ⟨us, hcut, rfl⟩ := tokenize_eq_ok_iff.1 htokens
    rw [parse, ofChars_of_cut hcut] at h
    split at h
    · cases h
    · split at h
      · next reason hfinish =>
        obtain rfl := Except.error.inj h
        have hplaced : (State.start (us ++ [Token.endOfInput])).Placed :=
          .of_atOperand (hcut.atOperand (head?_trim_not_blank _))
        exact hplaced.occurs hfinish
      · cases h
  exact ⟨filter_of_parse_eq_error h, hoccurs, hoccurs.ne_expectedValue, hoccurs.isInitial⟩

/-- The theorem at a group that goes on with a second word, a connector without an operand behind
it, and two words without a connector. -/
theorem occurs_of_parse_eq_error_misplaced :
    (∃ ts refusal, tokenize (trim " (a b".toList) = .ok ts ∧ parse " (a b" = .error refusal ∧
      refusal.filter = " (a b" ∧ Occurs refusal.reason refusal.reason.message ∧
      refusal.reason.message = "Expected RParen, got Key(\"b\")") ∧
    (∃ ts refusal, tokenize (trim "a AND )".toList) = .ok ts ∧ parse "a AND )" = .error refusal ∧
      refusal.filter = "a AND )" ∧ Occurs refusal.reason refusal.reason.message ∧
      refusal.reason.message = "Unexpected token: RParen") ∧
    ∃ ts refusal, tokenize (trim "a:'1' b".toList) = .ok ts ∧ parse "a:'1' b" = .error refusal ∧
      refusal.filter = "a:'1' b" ∧ Occurs refusal.reason refusal.reason.message ∧
      refusal.reason.message = "Unexpected token after expression: Space" := by
  have hrefused : ∀ {text : String} {refusal : Refusal Reason},
      (match parse text with | .error refusal => some refusal | .ok _ => none) = some refusal →
        parse text = .error refusal := by
    intro text refusal h
    cases hparse : parse text with
    | ok f =>
      rw [hparse] at h
      exact nomatch h
    | error r =>
      rw [hparse] at h
      rw [Option.some.inj h]
  have hgroup : tokenize (trim " (a b".toList) =
      .ok [.openParen, .key "a", .space, .key "b", .endOfInput] := by decide +kernel
  have hconnector : tokenize (trim "a AND )".toList) =
      .ok [.key "a", .space, .key "AND", .space, .closeParen, .endOfInput] := by decide +kernel
  have hwords : tokenize (trim "a:'1' b".toList) =
      .ok [.key "a", .comparator .like, .value "'1'", .space, .key "b", .endOfInput] := by
    decide +kernel
  have hgroup' := @hrefused " (a b" ⟨" (a b", .expectedClose (.key "b")⟩ (by decide +kernel)
  have hconnector' := @hrefused "a AND )" ⟨"a AND )", .unexpected .closeParen⟩ (by decide +kernel)
  have hwords' := @hrefused "a:'1' b" ⟨"a:'1' b", .trailing .space⟩ (by decide +kernel)
  obtain ⟨hfilter, hoccurs, -⟩ := occurs_of_parse_eq_error hgroup hgroup'
  obtain ⟨hfilter', hoccurs', -⟩ := occurs_of_parse_eq_error hconnector hconnector'
  obtain ⟨hfilter'', hoccurs'', -⟩ := occurs_of_parse_eq_error hwords hwords'
  refine ⟨⟨_, _, hgroup, hgroup', hfilter, hoccurs, ?_⟩,
    ⟨_, _, hconnector, hconnector', hfilter', hoccurs', ?_⟩,
    _, _, hwords, hwords', hfilter'', hoccurs'', ?_⟩
  all_goals decide +kernel

end Criteria.Filter
