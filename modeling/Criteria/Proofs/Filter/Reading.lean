import Criteria.Proofs.Filter.Canonical
import Criteria.Proofs.Filter.Tokens

/-!
# Reading follows derivations

The states that are passed while tokens are read hold runs of operands, not the filters of the
grammar. `Makes` relates the two: a run together with the operand behind it makes up the filter of
the chain read so far. With it,

* the tokens of a chain within the limits are read as that chain (`Chain.Tokens.finish_of_fits`);
* what is read from the tokens of a chain is within the limits (`Chain.Tokens.of_finish`);
* whatever is read has tokens of some chain (`exists_tokens_of_finish`).
-/

namespace Criteria.Filter

mutual

theorem Term.canonical_toFilter : ∀ term : Term, term.toFilter.Canonical
  | .word _ => .text
  | .comparison _ _ _ => .comparison
  | .group inner => Chain.canonical_toFilter inner

theorem Chain.canonical_toFilter : ∀ chain : Chain, chain.toFilter.Canonical
  | .single term => Term.canonical_toFilter term
  | .more init c last => by
    refine canonical_join ?_ (List.cons_ne_nil _ _)
    intro f hf
    simp only [List.mem_cons, List.not_mem_nil, or_false] at hf
    rcases hf with rfl | rfl
    · exact Chain.canonical_toFilter init
    · exact Term.canonical_toFilter last

end

theorem Chain.depth_init_le (init : Chain) (c : Connector) (last : Term) :
    init.toFilter.depth ≤ (Chain.more init c last).toFilter.depth :=
  depth_le_depth_join init.canonical_toFilter List.mem_cons_self

theorem Chain.depth_last_le (init : Chain) (c : Connector) (last : Term) :
    last.toFilter.depth ≤ (Chain.more init c last).toFilter.depth :=
  depth_le_depth_join last.canonical_toFilter (List.mem_cons_of_mem _ List.mem_cons_self)

/-! ## Runs -/

/-- The filter that a run and the operand behind it make up, deep or not. -/
def pending (run : Option Run) (f : Filter) : Filter :=
  match run with
  | none => f
  | some r => join r.connector (f :: r.operands).reverse

/-- A run and the operand behind it make up the filter `g`. -/
structure Makes (run : Option Run) (f g : Filter) : Prop where
  run_canonical : ∀ r ∈ run, ∀ h ∈ r.operands, h.Canonical
  operand_canonical : f.Canonical
  pending_eq : pending run f = g

theorem Makes.single {f : Filter} (hf : f.Canonical) : Makes none f f :=
  ⟨fun _ hr => (nomatch hr), hf, rfl⟩

theorem nest_eq_ok_iff {c : Connector} {fs : List Filter} {g : Filter} :
    nest c fs = .ok g ↔ g = join c fs ∧ (join c fs).depth ≤ maxDepth := by
  unfold nest
  by_cases h : maxDepth < (join c fs).depth
  · rw [if_pos h]
    exact ⟨nofun, fun hg => absurd hg.2 (Nat.not_le.2 h)⟩
  · rw [if_neg h]
    constructor
    · intro hg
      exact ⟨(Except.ok.inj hg).symm, Nat.not_lt.1 h⟩
    · rintro ⟨rfl, -⟩
      rfl

/-- A run is closed to the filter it makes up, unless that is too deep. -/
theorem Makes.closeRun_eq_ok_iff {run : Option Run} {f g h : Filter} (hm : Makes run f g)
    (hf : f.depth ≤ maxDepth) : closeRun run f = .ok h ↔ h = g ∧ g.depth ≤ maxDepth := by
  obtain ⟨-, -, rfl⟩ := hm
  cases run with
  | none =>
    constructor
    · intro hok
      exact ⟨(Except.ok.inj hok).symm, hf⟩
    · rintro ⟨rfl, -⟩
      rfl
  | some r => exact nest_eq_ok_iff

/-- A run goes on as long as what came before is not too deep. -/
theorem Makes.exists_extendRun {run : Option Run} {f g : Filter} (hm : Makes run f g)
    (hg : g.depth ≤ maxDepth) (c : Connector) : ∃ r, extendRun run f c = .ok r := by
  obtain ⟨-, -, rfl⟩ := hm
  unfold extendRun
  cases run with
  | none => exact ⟨_, rfl⟩
  | some r =>
    by_cases hc : r.connector = c
    · exact ⟨_, if_pos hc⟩
    · have hnest := nest_eq_ok_iff.2 ⟨rfl, hg⟩
      refine ⟨⟨c, [join r.connector (f :: r.operands).reverse]⟩, (if_neg hc).trans ?_⟩
      rw [hnest]
      rfl

/-- Going on with a connector and a further operand joins that operand to what came before. -/
theorem Makes.extend {run : Option Run} {f g h : Filter} (hm : Makes run f g) {c : Connector}
    {r : Run} (hr : extendRun run f c = .ok r) (hh : h.Canonical) :
    Makes (some r) h (join c [g, h]) := by
  obtain ⟨hrun, hf, rfl⟩ := hm
  unfold extendRun at hr
  cases run with
  | none =>
    -- the operand starts a run
    obtain rfl := Except.ok.inj hr
    refine ⟨?_, hh, rfl⟩
    intro r' hr' k hk
    obtain rfl := Option.some.inj hr'
    rw [List.mem_singleton.1 hk]
    exact hf
  | some r' =>
    have hall : ∀ k ∈ f :: r'.operands, k.Canonical := by
      intro k hk
      rcases List.mem_cons.1 hk with rfl | hk
      · exact hf
      · exact hrun r' rfl k hk
    have hall' : ∀ k ∈ (f :: r'.operands).reverse, k.Canonical :=
      fun k hk => hall k (List.mem_reverse.1 hk)
    dsimp only at hr
    by_cases hc : r'.connector = c
    · -- the run goes on, and joining is associative
      rw [if_pos hc] at hr
      obtain rfl := Except.ok.inj hr
      refine ⟨?_, hh, ?_⟩
      · intro r'' hr'' k hk
        obtain rfl := Option.some.inj hr''
        exact hall k hk
      · subst hc
        rw [pending, pending, List.reverse_cons, join_join_append hall']
    · -- the run is closed and is the first operand of the next one
      rw [if_neg hc] at hr
      cases hnest : nest r'.connector (f :: r'.operands).reverse with
      | error e =>
        rw [hnest] at hr
        exact nomatch hr
      | ok group =>
        rw [hnest] at hr
        obtain rfl := Except.ok.inj hr
        obtain ⟨rfl, -⟩ := nest_eq_ok_iff.1 hnest
        refine ⟨?_, hh, rfl⟩
        intro r'' hr'' k hk
        obtain rfl := Option.some.inj hr''
        rw [List.mem_singleton.1 hk]
        exact canonical_join hall' (by simp)

/-! ## Steps -/

namespace State

/-- Reading to the end is one step and the rest. -/
theorem finish_eq (s : State) :
    s.finish =
      match s.step with
      | .error reason => .error reason
      | .ok (.finished f) => .ok f
      | .ok (.further t) => t.finish := by
  rw [finish]
  split
  · next heq => rw [heq]
  · next heq => rw [heq]
  · next heq => rw [heq]

/-- A filter has been read when this step finishes it or a further state leads to it. -/
theorem finish_eq_ok_iff {s : State} {f : Filter} :
    s.finish = .ok f ↔
      s.step = .ok (.finished f) ∨ ∃ t, s.step = .ok (.further t) ∧ t.finish = .ok f := by
  rw [finish]
  split
  · next e heq => simp [heq]
  · next g heq => simp [heq]
  · next t heq => simp [heq]

/-- Where an operand has to follow, it is read. -/
theorem finish_operand_iff {outer : List (Option Run)} {run : Option Run} {ts : List Token}
    {f : Filter} :
    finish ⟨outer, run, none, ts⟩ = .ok f ↔
      ∃ t, readOperand ⟨outer, run, none, ts⟩ = .ok t ∧ t.finish = .ok f := by
  rw [finish_eq_ok_iff, step]
  cases readOperand ⟨outer, run, none, ts⟩ <;> simp [Except.map]

/-- Behind an operand a connector goes on with the run. -/
theorem finish_connector_iff {outer : List (Option Run)} {run : Option Run} {g f : Filter}
    {c : Connector} {ts rest : List Token} (h : readConnector? ts = some (c, rest)) :
    finish ⟨outer, run, some g, ts⟩ = .ok f ↔
      ∃ r, extendRun run g c = .ok r ∧ finish ⟨outer, some r, none, rest⟩ = .ok f := by
  rw [finish_eq_ok_iff, step]
  simp only [h]
  cases extendRun run g c <;> simp [Except.map]

/-- Without a connector behind an operand, a parenthesis closes the innermost group. -/
theorem finish_close_iff {outer : List (Option Run)} {run run' : Option Run} {g f : Filter}
    {ts : List Token} (h : readConnector? ts = none) :
    finish ⟨run' :: outer, run, some g, ts⟩ = .ok f ↔
      ∃ k rest, closeRun run g = .ok k ∧ skipSpace ts = .closeParen :: rest ∧
        finish ⟨outer, run', some k, rest⟩ = .ok f := by
  rw [finish_eq_ok_iff, step]
  simp only [h]
  cases closeRun run g with
  | error e => simp [bind, Except.bind]
  | ok k =>
    simp only [bind, Except.bind, readEnd]
    split
    · next rest hs => simp [hs]
    · next hs =>
      constructor
      · rintro (hk | ⟨t, hk, -⟩) <;> exact nomatch hk
      · rintro ⟨_, rest, -, hrest, -⟩
        exact absurd hrest (hs rest)

/-- Outside all groups the text has to end. -/
theorem finish_end_iff {run : Option Run} {g f : Filter} {ts : List Token}
    (h : readConnector? ts = none) :
    finish ⟨[], run, some g, ts⟩ = .ok f ↔ closeRun run g = .ok f ∧ peek ts = .endOfInput := by
  rw [finish_eq_ok_iff, step]
  simp only [h]
  cases closeRun run g with
  | error e => simp [bind, Except.bind]
  | ok k =>
    simp only [bind, Except.bind, readEnd]
    by_cases hp : peek ts = .endOfInput <;> simp [hp]

/-- A parenthesis opens a group unless too many are open. -/
theorem readOperand_openParen_eq_ok_iff {outer : List (Option Run)} {run : Option Run}
    {rest : List Token} {t : State} :
    readOperand ⟨outer, run, none, .openParen :: rest⟩ = .ok t ↔
      outer.length < maxDepth ∧ t = ⟨run :: outer, none, none, skipSpace rest⟩ := by
  rw [readOperand]
  by_cases h : maxDepth ≤ outer.length
  · simp only [h, if_true]
    exact ⟨nofun, fun ht => absurd h (Nat.not_le.2 ht.1)⟩
  · simp only [h, if_false]
    constructor
    · intro ht
      exact ⟨Nat.not_le.1 h, (Except.ok.inj ht).symm⟩
    · rintro ⟨-, rfl⟩
      rfl

theorem readOperand_word {outer : List (Option Run)} {run : Option Run} {name : String}
    {rest : List Token} (h : Follows rest) :
    readOperand ⟨outer, run, none, .key name :: rest⟩ =
      .ok ⟨outer, run, some (.text name), rest⟩ := by
  cases rest with
  | nil => rfl
  | cons t rest =>
    cases t with
    | comparator c => exact absurd rfl (h c)
    | _ => rfl

end State

theorem readConnector?_word (c : Connector) (rest : List Token) :
    readConnector? (.space :: .key c.word :: .space :: rest) = some (c, rest) := by
  rw [readConnector?, Connector.ofWord?_eq_some_iff.2 rfl]
  rfl

/-- Tokens in which a connector is read begin with a blank run, the connector's word and a blank
run. -/
theorem eq_of_readConnector? {ts rest : List Token} {c : Connector}
    (h : readConnector? ts = some (c, rest)) :
    ts = .space :: .key c.word :: .space :: rest := by
  unfold readConnector? at h
  split at h
  · next word rest' =>
    obtain ⟨d, hd, heq⟩ := Option.map_eq_some_iff.1 h
    obtain ⟨rfl, rfl⟩ := Prod.mk.inj heq
    rw [Connector.ofWord?_eq_some_iff.1 hd]
  · exact nomatch h

theorem readConnector?_close {after : List Token} (h : after ∈ [[], [Token.space]])
    (rest : List Token) : readConnector? (after ++ .closeParen :: rest) = none := by
  simp only [List.mem_cons, List.not_mem_nil, or_false] at h
  rcases h with rfl | rfl <;> rfl

theorem skipSpace_close {after : List Token} (h : after ∈ [[], [Token.space]])
    (rest : List Token) : skipSpace (after ++ .closeParen :: rest) = .closeParen :: rest := by
  simp only [List.mem_cons, List.not_mem_nil, or_false] at h
  rcases h with rfl | rfl <;> rfl

mutual

theorem Term.Tokens.skipSpace_append {term : Term} {ts : List Token} (h : term.Tokens ts)
    (us : List Token) : skipSpace (ts ++ us) = ts ++ us := by
  cases h <;> rfl

theorem Chain.Tokens.skipSpace_append {chain : Chain} {ts : List Token} (h : chain.Tokens ts)
    (us : List Token) : skipSpace (ts ++ us) = ts ++ us := by
  cases h with
  | single hterm => exact Term.Tokens.skipSpace_append hterm us
  | more hinit _ =>
    rw [List.append_assoc]
    exact Chain.Tokens.skipSpace_append hinit _

end

theorem Chain.Tokens.skipSpace_before {chain : Chain} {before ts : List Token}
    (hbefore : before ∈ [[], [Token.space]]) (h : chain.Tokens ts) (us : List Token) :
    skipSpace (before ++ (ts ++ us)) = ts ++ us := by
  simp only [List.mem_cons, List.not_mem_nil, or_false] at hbefore
  rcases hbefore with rfl | rfl
  · exact h.skipSpace_append us
  · rfl

/-! ## Derivations within the limits are read -/

mutual

/-- The tokens of a term within the limits are read as the filter of the term. -/
theorem Term.Tokens.finish_of_fits {term : Term} {ts : List Token} (h : term.Tokens ts)
    {outer : List (Option Run)} {us : List Token} {f : Filter} (hus : Follows us)
    (hnest : outer.length + term.nesting ≤ maxDepth) (hdepth : term.toFilter.depth ≤ maxDepth)
    (run : Option Run) (hf : State.finish ⟨outer, run, some term.toFilter, us⟩ = .ok f) :
    State.finish ⟨outer, run, none, ts ++ us⟩ = .ok f := by
  rw [State.finish_operand_iff]
  cases h with
  | word => exact ⟨_, State.readOperand_word hus, hf⟩
  | comparison => exact ⟨_, rfl, hf⟩
  | @group inner before ts after hbefore hinner hafter =>
    have hopen : outer.length < maxDepth := by
      rw [Term.nesting] at hnest
      omega
    refine ⟨_, State.readOperand_openParen_eq_ok_iff.2 ⟨hopen, rfl⟩, ?_⟩
    simp only [List.append_eq, List.append_assoc, List.cons_append, List.nil_append,
      hinner.skipSpace_before hbefore]
    refine Chain.Tokens.finish_of_fits hinner (follows_append_closeParen hafter) ?_ hdepth ?_
    · rw [Term.nesting] at hnest
      simp only [List.length_cons]
      omega
    · -- the group closes to the operand of the run that waits outside
      intro run' g hg hm
      rw [State.finish_close_iff (readConnector?_close hafter us)]
      exact ⟨_, us, (hm.closeRun_eq_ok_iff hg).2 ⟨rfl, hdepth⟩, skipSpace_close hafter us, hf⟩

/-- The tokens of a chain within the limits are read into a run and an operand that make up the
filter of the chain. -/
theorem Chain.Tokens.finish_of_fits {chain : Chain} {ts : List Token} (h : chain.Tokens ts)
    {outer : List (Option Run)} {us : List Token} {f : Filter} (hus : Follows us)
    (hnest : outer.length + chain.nesting ≤ maxDepth) (hdepth : chain.toFilter.depth ≤ maxDepth)
    (hf : ∀ run g, g.depth ≤ maxDepth → Makes run g chain.toFilter →
      State.finish ⟨outer, run, some g, us⟩ = .ok f) :
    State.finish ⟨outer, none, none, ts ++ us⟩ = .ok f := by
  cases h with
  | @single term _ hterm =>
    exact Term.Tokens.finish_of_fits hterm hus hnest hdepth none
      (hf none _ hdepth (.single term.canonical_toFilter))
  | @more init c last ts vs hinit hlast =>
    have hinitDepth := Nat.le_trans (Chain.depth_init_le init c last) hdepth
    have hlastDepth := Nat.le_trans (Chain.depth_last_le init c last) hdepth
    rw [Chain.nesting] at hnest
    rw [List.append_assoc]
    refine Chain.Tokens.finish_of_fits hinit (follows_space _) (by omega) hinitDepth ?_
    -- what stands before the connector is read, so its filter is not too deep to go on from
    intro run g _ hm
    obtain ⟨r, hr⟩ := hm.exists_extendRun hinitDepth c
    refine (State.finish_connector_iff (readConnector?_word c (vs ++ us))).2 ⟨r, hr, ?_⟩
    exact Term.Tokens.finish_of_fits hlast hus (by omega) hlastDepth (some r)
      (hf _ _ hlastDepth (hm.extend hr last.canonical_toFilter))

end

/-! ## What is read from tokens of a derivation is within the limits -/

mutual

/-- Where the tokens of a term are read, the term is within the limits and reading goes on behind
it with its filter. -/
theorem Term.Tokens.of_finish {term : Term} {ts : List Token} (h : term.Tokens ts)
    {outer : List (Option Run)} {run : Option Run} {us : List Token} {f : Filter}
    (hus : Follows us) (houter : outer.length ≤ maxDepth)
    (hf : State.finish ⟨outer, run, none, ts ++ us⟩ = .ok f) :
    outer.length + term.nesting ≤ maxDepth ∧ term.toFilter.depth ≤ maxDepth ∧
      State.finish ⟨outer, run, some term.toFilter, us⟩ = .ok f := by
  obtain ⟨t, ht, hf⟩ := State.finish_operand_iff.1 hf
  cases h with
  | word =>
    obtain rfl := Except.ok.inj ((State.readOperand_word hus).symm.trans ht)
    exact ⟨houter, Nat.zero_le _, hf⟩
  | comparison =>
    obtain rfl := Except.ok.inj ht
    exact ⟨houter, Nat.zero_le _, hf⟩
  | @group inner before ts after hbefore hinner hafter =>
    obtain ⟨hopen, rfl⟩ := State.readOperand_openParen_eq_ok_iff.1 ht
    simp only [List.append_eq, List.append_assoc, List.cons_append, List.nil_append,
      hinner.skipSpace_before hbefore] at hf
    have houter' : (run :: outer).length ≤ maxDepth := hopen
    obtain ⟨hnest, run', g, hg, hm, hf⟩ :=
      Chain.Tokens.of_finish hinner (follows_append_closeParen hafter) houter' hf
    obtain ⟨k, rest, hclose, hskip, hf⟩ :=
      (State.finish_close_iff (readConnector?_close hafter us)).1 hf
    obtain ⟨rfl, hk⟩ := (hm.closeRun_eq_ok_iff hg).1 hclose
    rw [skipSpace_close hafter us] at hskip
    obtain ⟨-, rfl⟩ := List.cons.inj hskip
    refine ⟨?_, hk, hf⟩
    rw [Term.nesting]
    simp only [List.length_cons] at hnest
    omega

/-- Where the tokens of a chain are read, reading goes on behind it with a run and an operand that
make up its filter. -/
theorem Chain.Tokens.of_finish {chain : Chain} {ts : List Token} (h : chain.Tokens ts)
    {outer : List (Option Run)} {us : List Token} {f : Filter} (hus : Follows us)
    (houter : outer.length ≤ maxDepth)
    (hf : State.finish ⟨outer, none, none, ts ++ us⟩ = .ok f) :
    outer.length + chain.nesting ≤ maxDepth ∧
      ∃ run g, g.depth ≤ maxDepth ∧ Makes run g chain.toFilter ∧
        State.finish ⟨outer, run, some g, us⟩ = .ok f := by
  cases h with
  | @single term _ hterm =>
    obtain ⟨hnest, hdepth, hf⟩ := Term.Tokens.of_finish hterm hus houter hf
    exact ⟨hnest, none, _, hdepth, .single term.canonical_toFilter, hf⟩
  | @more init c last ts vs hinit hlast =>
    rw [List.append_assoc] at hf
    obtain ⟨hnest, run, g, -, hm, hf⟩ :=
      Chain.Tokens.of_finish hinit (follows_space _) houter hf
    obtain ⟨r, hr, hf⟩ := (State.finish_connector_iff (readConnector?_word c (vs ++ us))).1 hf
    obtain ⟨hnest', hdepth, hf⟩ := Term.Tokens.of_finish hlast hus houter hf
    refine ⟨?_, some r, _, hdepth, hm.extend hr last.canonical_toFilter, hf⟩
    rw [Chain.nesting]
    omega

end

/-! ## Whatever is read has a derivation -/

/-- Behind an operand reading goes on only where no comparator follows. -/
theorem follows_of_finish {outer : List (Option Run)} {run : Option Run} {g f : Filter}
    {ts : List Token} (h : State.finish ⟨outer, run, some g, ts⟩ = .ok f) : Follows ts := by
  intro c hc
  obtain ⟨rest, rfl⟩ : ∃ rest, ts = .comparator c :: rest := List.head?_eq_some_iff.1 hc
  have hnone : readConnector? (.comparator c :: rest) = none := rfl
  cases outer with
  | nil =>
    obtain ⟨-, hpeek⟩ := (State.finish_end_iff hnone).1 h
    exact nomatch hpeek
  | cons run' outer =>
    obtain ⟨_, _, -, hskip, -⟩ := (State.finish_close_iff hnone).1 h
    exact nomatch hskip

/-- Where an operand is read from `ts`, the tokens begin with those of a term. -/
def BeginsWithTerm (ts : List Token) : Prop :=
  ∀ (outer : List (Option Run)) (run : Option Run) (f : Filter), outer.length ≤ maxDepth →
    State.finish ⟨outer, run, none, ts⟩ = .ok f →
      ∃ term us vs, ts = us ++ vs ∧ Term.Tokens term us ∧ Follows vs

/-- A chain goes on until no connector follows, given that shorter token lists begin with terms. -/
theorem Chain.Tokens.exists_extension {outer : List (Option Run)} {f : Filter}
    (houter : outer.length ≤ maxDepth) {vs : List Token}
    (hterm : ∀ ts, ts.length < vs.length → BeginsWithTerm ts) {chain : Chain} {us : List Token}
    (h : chain.Tokens us) (hvs : Follows vs)
    (hf : State.finish ⟨outer, none, none, us ++ vs⟩ = .ok f) :
    ∃ chain' us' vs', us ++ vs = us' ++ vs' ∧ Chain.Tokens chain' us' ∧ Follows vs' ∧
      readConnector? vs' = none := by
  -- on the tokens that are left, with the chain that has been read growing
  induction hn : vs.length using Nat.strongRecOn generalizing chain us vs with
  | ind n ih =>
    cases hc : readConnector? vs with
    | none => exact ⟨chain, us, vs, rfl, h, hvs, hc⟩
    | some cr =>
      obtain ⟨c, rest⟩ := cr
      have heq := eq_of_readConnector? hc
      have hlt : rest.length < vs.length := State.length_of_readConnector? hc
      obtain ⟨-, run, g, -, -, hg⟩ := h.of_finish hvs houter hf
      obtain ⟨r, -, hr⟩ := (State.finish_connector_iff hc).1 hg
      obtain ⟨last, ts, vs', hsplit, hlast, hvs'⟩ := hterm rest hlt outer (some r) f houter hr
      have hshort : vs'.length ≤ rest.length := by
        rw [hsplit, List.length_append]
        exact Nat.le_add_left _ _
      have hwhole : us ++ vs = (us ++ .space :: .key c.word :: .space :: ts) ++ vs' := by
        rw [heq, hsplit]
        simp
      rw [hwhole] at hf ⊢
      exact ih vs'.length (by omega) (fun ts' hts' => hterm ts' (by omega)) (.more h hlast) hvs'
        hf rfl

/-- A chain is read where terms are. -/
theorem exists_chain_of_beginsWithTerm {outer : List (Option Run)} {f : Filter}
    (houter : outer.length ≤ maxDepth) {ts : List Token}
    (hterm : ∀ us, us.length ≤ ts.length → BeginsWithTerm us)
    (hf : State.finish ⟨outer, none, none, ts⟩ = .ok f) :
    ∃ chain us vs, ts = us ++ vs ∧ Chain.Tokens chain us ∧ Follows vs ∧
      readConnector? vs = none := by
  obtain ⟨term, us, vs, rfl, hus, hvs⟩ := hterm ts (Nat.le_refl _) outer none f houter hf
  refine Chain.Tokens.exists_extension houter (fun ws hws => hterm ws ?_) (.single hus) hvs hf
  rw [List.length_append]
  omega

/-- Only an optional blank run is skipped. -/
theorem exists_append_skipSpace (ts : List Token) :
    ∃ before, before ∈ [[], [Token.space]] ∧ ts = before ++ skipSpace ts := by
  unfold skipSpace
  split
  · exact ⟨[.space], by simp, rfl⟩
  · exact ⟨[], by simp, rfl⟩

/-- Wherever an operand is read, tokens of a term are read. -/
theorem beginsWithTerm (ts : List Token) : BeginsWithTerm ts := by
  -- on the tokens that are left: the chain in a group has fewer of them
  induction hn : ts.length using Nat.strongRecOn generalizing ts with
  | ind n ih =>
    intro outer run f houter hf
    obtain ⟨t, ht, hf⟩ := State.finish_operand_iff.1 hf
    unfold State.readOperand at ht
    split at ht
    · -- a group: a chain is read up to where no connector follows, and there the group closes
      next rest hrest =>
      have hopen : outer.length < maxDepth := by
        refine Nat.lt_of_not_le ?_
        intro hle
        rw [if_pos hle] at ht
        exact nomatch ht
      rw [if_neg (Nat.not_le.2 hopen)] at ht
      obtain rfl := Except.ok.inj ht
      have houter' : (run :: outer).length ≤ maxDepth := hopen
      obtain ⟨before, hbefore, hskip⟩ := exists_append_skipSpace rest
      have hlen : (skipSpace rest).length < n := by
        have hle := State.length_skipSpace_le rest
        dsimp only at hrest
        rw [hrest, List.length_cons] at hn
        omega
      obtain ⟨inner, us, vs, hsplit, hus, hvs, hend⟩ := exists_chain_of_beginsWithTerm houter'
        (fun ws hws => ih ws.length (by omega) ws rfl) hf
      rw [hsplit] at hf
      obtain ⟨-, run', g, -, -, hg⟩ := hus.of_finish hvs houter' hf
      obtain ⟨k, rest', -, hclose, hk⟩ := (State.finish_close_iff hend).1 hg
      obtain ⟨after, hafter, hskip'⟩ := exists_append_skipSpace vs
      refine ⟨_, _, rest', ?_, .group hbefore hus hafter, follows_of_finish hk⟩
      dsimp only at hrest
      rw [hrest, hskip, hsplit, hskip', hclose]
      simp
    · next field c raw rest hrest =>
      obtain rfl := Except.ok.inj ht
      exact ⟨_, _, rest, hrest, .comparison, follows_of_finish hf⟩
    · exact nomatch ht
    · next word rest _ _ hrest =>
      obtain rfl := Except.ok.inj ht
      exact ⟨_, _, rest, hrest, .word, follows_of_finish hf⟩
    · exact nomatch ht

/-- Wherever a chain is read, its tokens are followed by no connector. -/
theorem exists_tokens_of_finish {outer : List (Option Run)} {f : Filter} {ts : List Token}
    (houter : outer.length ≤ maxDepth) (hf : State.finish ⟨outer, none, none, ts⟩ = .ok f) :
    ∃ chain us vs, ts = us ++ vs ∧ Chain.Tokens chain us ∧ Follows vs ∧
      readConnector? vs = none :=
  exists_chain_of_beginsWithTerm houter (fun us _ => beginsWithTerm us) hf

end Criteria.Filter
