import Criteria.Proofs.Filter.Cursor
import Criteria.Proofs.Filter.Runs

/-!
# Bounds on reading

What is kept at every place of every text while a filter is read: the count of open groups is right
and at most 64, the position stays in front of the last token, and no filter that is held is deeper
than 64 (`Within.of_reaches`). A group that is closed leaves the registers as it found them
(`inside_or_closed`), and on the way to a filter each token is passed once
(`existsUnique_passed`). Main statement: `reading_bounded`.
-/

namespace Criteria.Filter

open Criteria.Text

namespace Cursor

/-! ## Tokens that have been passed -/

/-- How often a token has been passed. -/
def passed (r : Cursor) (t : Token) : Nat := (r.tokens.take r.position).count t

section Passed

variable {r : Cursor} {t : Token}

theorem passed_advance_one (ht : IsParen t) :
    (r.advance 1).passed t = r.passed t + if r.token 0 = t then 1 else 0 := by
  have htake : r.tokens.take (r.position + 1) =
      r.tokens.take r.position ++ r.tokens[r.position]?.toList := List.take_add_one
  have htoken : r.token 0 = r.tokens[r.position]?.getD .endOfInput := rfl
  show (r.tokens.take (r.position + 1)).count t = _
  rw [htake, List.count_append, htoken, passed]
  cases r.tokens[r.position]? with
  | none =>
    have hend : Token.endOfInput ≠ t := by
      rintro rfl
      exact ht.elim nofun nofun
    rw [Option.getD_none, if_neg hend]
    rfl
  | some u =>
    rw [Option.toList_some, List.count_singleton, Option.getD_some]
    simp only [beq_iff_eq]

theorem passed_advance {count : Nat} (ht : IsParen t) (h : ∀ k < count, Steady (r.token k)) :
    (r.advance count).passed t = r.passed t := by
  induction count with
  | zero => rfl
  | succ count ih =>
    have hlast : Steady ((r.advance count).token 0) := h count (Nat.lt_succ_self count)
    have hne : (r.advance count).token 0 ≠ t := by
      rintro rfl
      exact hlast.1 ht
    have hone := @passed_advance_one (r.advance count) t ht
    rw [if_neg hne, ih fun k hk => h k (Nat.lt_succ_of_lt hk)] at hone
    exact hone

theorem passed_skipSpace (ht : IsParen t) : r.skipSpace.passed t = r.passed t := by
  refine passed_advance ht fun k hk => ?_
  by_cases h : r.token 0 = .space
  · rw [if_pos h] at hk
    obtain rfl : k = 0 := by omega
    simp [h, Steady, IsParen]
  · rw [if_neg h] at hk
    exact absurd hk (Nat.not_lt_zero k)

/-- A step keeps the count of the groups that are open: those that have been opened and not been
closed. -/
theorem Next.passed_eq {r' : Cursor} (hnext : Next r r') (hdepth : r.depth = r.outer.length)
    (h : r.passed .openParen = r.depth + r.passed .closeParen) :
    r'.passed .openParen = r'.depth + r'.passed .closeParen := by
  cases hnext.does with
  | opens _ htoken =>
    have hopen : (r.advance 1).passed .openParen = r.passed .openParen + 1 := by
      rw [passed_advance_one (.inl rfl), if_pos htoken]
    have hclose : (r.advance 1).passed .closeParen = r.passed .closeParen := by
      rw [passed_advance_one (.inr rfl), htoken]
      rfl
    rw [passed_skipSpace (.inl rfl), passed_skipSpace (.inr rfl)]
    show (r.advance 1).passed .openParen = r.depth + 1 + (r.advance 1).passed .closeParen
    omega
  | @reads count _ _ _ hsteady =>
    show (r.advance count).passed .openParen = r.depth + (r.advance count).passed .closeParen
    rw [passed_advance (.inl rfl) hsteady, passed_advance (.inr rfl) hsteady]
    exact h
  | joins hc =>
    have hsteady := steady_of_connector? (Option.isSome_of_eq_some hc)
    show (r.advance 3).passed .openParen = r.depth + (r.advance 3).passed .closeParen
    rw [passed_advance (.inl rfl) hsteady, passed_advance (.inr rfl) hsteady]
    exact h
  | closes _ houter hclose =>
    have hopened : (r.skipSpace.advance 1).passed .openParen = r.passed .openParen := by
      rw [passed_advance_one (.inl rfl), hclose, passed_skipSpace (.inl rfl)]
      rfl
    have hclosed : (r.skipSpace.advance 1).passed .closeParen = r.passed .closeParen + 1 := by
      rw [passed_advance_one (.inr rfl), if_pos hclose, passed_skipSpace (.inr rfl)]
    rw [houter, List.length_cons] at hdepth
    show (r.skipSpace.advance 1).passed .openParen =
      r.depth - 1 + (r.skipSpace.advance 1).passed .closeParen
    omega

end Passed

/-! ## Positions -/

section Positions

variable {ts : List Token} (hts : ts.getLast? = some .endOfInput) {r : Cursor}

include hts

/-- Behind a token that is not the end mark there is another one. -/
theorem succ_lt_of_token_ne (htokens : r.tokens = ts)
    {k : Nat} (hk : r.token k ≠ .endOfInput) : r.position + k + 1 < ts.length := by
  by_contra hlast
  refine hk ?_
  subst htokens
  rw [token]
  rcases Nat.lt_or_ge (r.position + k) r.tokens.length with hlt | hge
  · rw [List.getLast?_eq_getElem?] at hts
    have hpos : r.tokens.length - 1 = r.position + k := by omega
    rw [hpos] at hts
    rw [hts]
    rfl
  · rw [List.getElem?_eq_none hge]
    rfl

theorem position_skipSpace_lt (htokens : r.tokens = ts)
    (hlt : r.position < ts.length) : r.skipSpace.position < ts.length := by
  show r.position + (if r.token 0 = .space then 1 else 0) < ts.length
  by_cases h : r.token 0 = .space
  · have hne : r.token 0 ≠ .endOfInput := by
      rw [h]
      exact nofun
    rw [if_pos h]
    exact succ_lt_of_token_ne hts htokens hne
  · rw [if_neg h]
    exact hlt

/-- A step does not pass the end mark. -/
theorem Next.position_lt_length {r' : Cursor} (hnext : Next r r') (htokens : r.tokens = ts) :
    r'.position < ts.length := by
  cases hnext.does with
  | opens _ htoken =>
    have hne : r.token 0 ≠ .endOfInput := by
      rw [htoken]
      exact nofun
    exact position_skipSpace_lt hts htokens (succ_lt_of_token_ne hts htokens hne)
  | @reads count _ _ hpos hsteady =>
    have hplace := succ_lt_of_token_ne hts htokens (hsteady (count - 1) (by omega)).2
    show r.position + count < ts.length
    omega
  | joins hc =>
    have hsteady := steady_of_connector? (Option.isSome_of_eq_some hc)
    exact succ_lt_of_token_ne hts htokens (hsteady 2 (by omega)).2
  | closes _ _ hclose =>
    have hne : r.skipSpace.token 0 ≠ .endOfInput := by
      rw [hclose]
      exact nofun
    have hskip : r.skipSpace.tokens = ts := htokens
    exact succ_lt_of_token_ne hts hskip hne

end Positions

/-! ## Places within bounds -/

/-- A place of these tokens where the registers are right and all bounds are kept. -/
structure Within (ts : List Token) (r : Cursor) : Prop where
  tokens_eq : r.tokens = ts
  position_lt : r.position < ts.length
  depth_eq : r.depth = r.outer.length
  depth_le : r.depth ≤ 64
  /-- The groups that are open have been opened and not been closed. -/
  passed_eq : r.passed .openParen = r.depth + r.passed .closeParen
  operand_le : ∀ f, r.operand = some f → f.depth ≤ 64
  runs_le : ∀ run ∈ r.run :: r.outer, ∀ f ∈ operandsOf run, f.depth ≤ 64

section Steps

variable {ts : List Token} {r r' : Cursor}

theorem Within.start (hts : ts.getLast? = some .endOfInput) : Within ts (start ts) where
  tokens_eq := rfl
  position_lt := by
    rw [Cursor.start, List.length_pos_iff]
    rintro rfl
    exact nomatch hts
  depth_eq := rfl
  depth_le := Nat.zero_le 64
  passed_eq := rfl
  operand_le := fun f hf => nomatch hf
  runs_le := by
    intro run hrun f hf
    rw [List.mem_singleton.1 hrun] at hf
    exact nomatch hf

/-- What is at hand is not too deep. -/
theorem Within.depth_le_of_provides (h : Within ts r) {f : Filter} (hf : r.Provides f) :
    f.depth ≤ 64 := by
  rcases hf with hoperand | hrun | ⟨c, fs, hnest⟩
  · exact h.operand_le f hoperand
  · exact h.runs_le r.run List.mem_cons_self f hrun
  · obtain ⟨rfl, hle⟩ := nest_eq_ok_iff.1 hnest
    exact hle

/-- A step stays within the bounds. -/
theorem Within.next (hts : ts.getLast? = some .endOfInput) (h : Within ts r) (hnext : Next r r') :
    Within ts r' := by
  have hlt := hnext.position_lt_length hts h.tokens_eq
  have hdepth := hnext.does.depth_eq h.depth_eq
  have hpassed := hnext.passed_eq h.depth_eq h.passed_eq
  obtain ⟨-, houter⟩ := List.forall_mem_cons.1 h.runs_le
  cases hnext.does with
  | opens _ _ hless =>
    exact ⟨h.tokens_eq, hlt, hdepth, hless, hpassed, h.operand_le,
      List.forall_mem_cons.2 ⟨List.forall_mem_nil _, h.runs_le⟩⟩
  | reads _ _ _ hleaf =>
    refine ⟨h.tokens_eq, hlt, hdepth, h.depth_le, hpassed, ?_, h.runs_le⟩
    rintro g hg
    obtain rfl := Option.some.inj hg
    omega
  | joins _ hfs =>
    exact ⟨h.tokens_eq, hlt, hdepth, h.depth_le, hpassed, nofun,
      List.forall_mem_cons.2 ⟨fun f hf => h.depth_le_of_provides (hfs f hf), houter⟩⟩
  | closes hf hopen =>
    rw [hopen] at houter
    refine ⟨h.tokens_eq, hlt, hdepth, Nat.le_trans (Nat.sub_le _ 1) h.depth_le, hpassed, ?_, houter⟩
    rintro g hg
    obtain rfl := Option.some.inj hg
    exact h.depth_le_of_provides hf

theorem Within.of_reaches (hts : ts.getLast? = some .endOfInput)
    (h : Reaches (Cursor.start ts) r) : Within ts r := by
  induction h with
  | refl => exact .start hts
  | tail _ hnext ih => exact ih.next hts hnext

/-- Where a step ends, and be it a refusal, one more group may be open and the last token passed,
but no more. -/
theorem Within.bounds_step (hts : ts.getLast? = some .endOfInput) (h : Within ts r) :
    r.step.1.depth = r.step.1.outer.length ∧ r.step.1.depth ≤ 65 ∧
      r.step.1.position ≤ ts.length := by
  have hlt := h.position_lt
  have hdepth := h.depth_le
  have hdoes := does_step r
  refine ⟨hdoes.depth_eq h.depth_eq, ?_⟩
  cases hr : r.step with
  | mk r' o =>
    rw [hr] at hdoes
    cases o with
    | further =>
      have hnext := h.next hts hr
      exact ⟨Nat.le_trans hnext.depth_le (by omega), Nat.le_of_lt hnext.position_lt⟩
    | finished f =>
      cases hdoes with
      | ends => exact ⟨Nat.le_trans hdepth (by omega), Nat.le_of_lt hlt⟩
    | refused reason =>
      cases hdoes with
      | tooDeep => exact ⟨Nat.succ_le_succ hdepth, hlt⟩
      | @stops count run _ hpassed =>
        refine ⟨Nat.le_trans hdepth (by omega), ?_⟩
        show r.position + count ≤ ts.length
        by_cases hcount : 2 ≤ count
        · have hplace := succ_lt_of_token_ne hts h.tokens_eq (hpassed (count - 2) (by omega))
          omega
        · omega

/-- What is handed to `nest` is not too deep, and makes a node that is one level deeper at most. -/
theorem Within.handed_le (h : Within ts r) {f : Filter} (hf : r.operand = some f) {c : Connector}
    {fs : List Filter} (hfs : r.handed f = some (c, fs)) :
    (∀ g ∈ fs, g.depth ≤ 64) ∧ (join c fs).depth ≤ 65 := by
  have hall : ∀ g ∈ fs, g.depth ≤ 64 := by
    rw [handed] at hfs
    cases hrun : r.run with
    | none =>
      rw [hrun] at hfs
      cases hfs
    | some q =>
      rw [hrun] at hfs
      dsimp only at hfs
      split at hfs
      · cases hfs
      · obtain ⟨rfl, rfl⟩ := Prod.mk.inj (Option.some.inj hfs)
        intro g hg
        rcases List.mem_cons.1 (List.mem_reverse.1 hg) with rfl | hg
        · exact h.operand_le g hf
        · exact h.runs_le r.run List.mem_cons_self g (by rw [hrun]; exact hg)
  refine ⟨hall, ?_⟩
  have hjoin := depth_join_le c fs
  have hmost := depthFrom_le (Nat.zero_le 64) hall
  omega

end Steps

/-! ## Groups -/

/-- The group that begins at `base` is still open. -/
def Inside (base r : Cursor) : Prop := ∃ inner, r.outer = inner ++ base.run :: base.outer

/-- The group that begins at `base` has just been read: it is the operand, and the registers are
as they were. -/
structure Closes (base r : Cursor) : Prop where
  depth_eq : r.depth = base.depth
  outer_eq : r.outer = base.outer
  run_eq : r.run = base.run
  operand : r.operand.isSome
  last_token : r.tokens[r.position - 1]? = some .closeParen

theorem getElem?_of_token {r : Cursor} {k : Nat} {t : Token} (h : r.token k = t)
    (ht : t ≠ .endOfInput) : r.tokens[r.position + k]? = some t := by
  rw [token] at h
  cases hget : r.tokens[r.position + k]? with
  | none =>
    rw [hget] at h
    exact absurd h.symm ht
  | some u =>
    rw [hget] at h
    exact congrArg some h

/-- A step at a parenthesis that opens a group puts the registers aside. -/
theorem outer_of_opens {base r : Cursor} (hopens : base.token 0 = .openParen)
    (hnext : Next base r) : r.outer = base.run :: base.outer := by
  cases hnext.does with
  | opens => rfl
  | reads _ hcount hsteady => exact absurd (.inl hopens) (hsteady 0 hcount).1
  | joins hc =>
    have hsteady := steady_of_connector? (Option.isSome_of_eq_some hc) 0 (by omega)
    exact absurd (.inl hopens) hsteady.1
  | closes _ _ hclose =>
    rw [skipSpace, hopens] at hclose
    cases hopens.symm.trans hclose

/-- From its opening on a group is still open, or it has been closed and left the registers as it
found them. -/
theorem inside_or_closed {ts : List Token} (hts : ts.getLast? = some .endOfInput)
    {base r r' : Cursor} (hbase : Reaches (start ts) base) (hopens : base.token 0 = .openParen)
    (hnext : Next base r) (hreaches : Reaches r r') :
    base.Inside r' ∨ ∃ last, Reaches r last ∧ Reaches last r' ∧ base.Closes last := by
  induction hreaches with
  | refl => exact .inl ⟨[], outer_of_opens hopens hnext⟩
  | @tail q q' hto hstep ih =>
    rcases ih with ⟨inner, hinner⟩ | ⟨last, hlast, hrest, hclosed⟩
    · cases hstep.does with
      | opens => exact .inl ⟨q.run :: inner, congrArg (q.run :: ·) hinner⟩
      | reads => exact .inl ⟨inner, hinner⟩
      | joins => exact .inl ⟨inner, hinner⟩
      | @closes run outer f _ houter hclose =>
        rw [houter] at hinner
        cases inner with
        | cons run' inner => exact .inl ⟨inner, (List.cons.inj hinner).2⟩
        | nil =>
          -- the group that is closed is the one that begins at `base`
          obtain ⟨rfl, rfl⟩ := List.cons.inj hinner
          have hreached : Reaches (start ts) q := (hbase.tail hnext).trans hto
          have hdepth := (Within.of_reaches hts hreached).depth_eq
          rw [houter, List.length_cons] at hdepth
          refine .inr ⟨_, hto.tail hstep, .refl, ?_, rfl, rfl, rfl, ?_⟩
          · rw [(Within.of_reaches hts hbase).depth_eq]
            show q.depth - 1 = base.outer.length
            omega
          · exact getElem?_of_token hclose nofun
    · exact .inr ⟨last, hlast, hrest.tail hstep, hclosed⟩

/-! ## Tokens are passed once -/

theorem position_le_of_reaches {r r' : Cursor} (h : Reaches r r') : r.position ≤ r'.position := by
  induction h with
  | refl => exact Nat.le_refl _
  | tail _ hnext ih => exact Nat.le_trans ih (Nat.le_of_lt hnext.position_lt)

theorem next_rightUnique : Relator.RightUnique Next := by
  intro r s t hs ht
  exact congrArg Prod.fst (hs.symm.trans ht)

/-- What is reached behind another place is behind the step there. -/
theorem eq_or_position_le {q q' : Cursor} (h : Reaches q q') :
    q = q' ∨ q.step.1.position ≤ q'.position := by
  rcases h.cases_head with heq | ⟨s, hnext, hrest⟩
  · exact .inl heq
  · rw [hnext]
    exact .inr (position_le_of_reaches hrest)

/-- A token in front of a place that is reached is passed by one step, and by one only. -/
theorem existsUnique_passed {r last : Cursor} (h : Reaches r last) {i : Nat}
    (hi : r.position ≤ i) (hlast : i < last.position) :
    ∃! q, Reaches r q ∧ q.position ≤ i ∧ i < q.step.1.position := by
  have hexists : ∃ q, Reaches r q ∧ q.position ≤ i ∧ i < q.step.1.position := by
    induction h with
    | refl => exact absurd hi (Nat.not_le.2 hlast)
    | @tail q q' hto hnext ih =>
      rcases Nat.lt_or_ge i q.position with hlt | hge
      · exact ih hlt
      · refine ⟨q, hto, hge, ?_⟩
        rw [hnext]
        exact hlast
  obtain ⟨q, hq, hle, hlt⟩ := hexists
  refine ⟨q, ⟨hq, hle, hlt⟩, ?_⟩
  rintro q' ⟨hq', hle', hlt'⟩
  -- one of the two is reached from the other
  rcases Relation.ReflTransGen.total_of_right_unique next_rightUnique hq hq' with hto | hto
  · rcases eq_or_position_le hto with heq | hpos
    · exact heq.symm
    · omega
  · rcases eq_or_position_le hto with heq | hpos
    · exact heq
    · omega

/-- The end mark stands behind all other tokens. -/
theorem position_of_token_eq {us : List Token} (hus : Token.endOfInput ∉ us) {r : Cursor}
    (htokens : r.tokens = us ++ [.endOfInput]) (hle : r.position ≤ us.length)
    (htoken : r.token 0 = .endOfInput) : r.position = us.length := by
  rcases Nat.lt_or_eq_of_le hle with hlt | heq
  · have hget : r.tokens[r.position + 0]? = some us[r.position] := by
      rw [htokens, Nat.add_zero, List.getElem?_append_left hlt, List.getElem?_eq_getElem hlt]
    rw [token, hget] at htoken
    exact absurd (htoken ▸ List.getElem_mem hlt) hus
  · exact heq

/-- Where a filter has been read, no group is open and all tokens but the end mark have been
passed. -/
theorem Within.of_finished {us : List Token} (hus : Token.endOfInput ∉ us) {r : Cursor}
    (h : Within (us ++ [.endOfInput]) r) {f : Filter} (hfinished : r.step.2 = .finished f) :
    r.outer = [] ∧ r.token 0 = .endOfInput ∧ r.position = us.length := by
  have hdoes := does_step r
  cases hr : r.step with
  | mk r' o =>
    rw [hr] at hdoes hfinished
    obtain rfl : o = .finished f := hfinished
    cases hdoes with
    | ends _ houter htoken =>
      have hlt := h.position_lt
      rw [List.length_append, List.length_singleton] at hlt
      have hposition := position_of_token_eq hus h.tokens_eq (Nat.le_of_lt_succ hlt) htoken
      exact ⟨houter, htoken, hposition⟩

end Cursor

/-! ## Sibling groups -/

/-- A canonical filter is joined alone into itself. -/
theorem Canonical.join_singleton {f : Filter} (hf : f.Canonical) (c : Connector) :
    join c [f] = f := by
  rw [join, List.flatMap_singleton]
  by_cases h : f.IsNode c
  · obtain ⟨operands, rfl⟩ := h
    rw [operandsFor_node]
    exact collapse_eq_node (by have := hf.at_node.1; omega)
  · rw [operandsFor_of_not_isNode h]
    rfl

/-- Groups that one connector joins. -/
def siblings (c : Connector) (first : Chain) (rest : List Chain) : Chain :=
  (Chain.single (.group first)).extend (rest.map fun inner => (c, .group inner))

theorem nesting_siblings {c : Connector} {first : Chain} {rest : List Chain}
    (h : ∀ inner ∈ first :: rest, inner.nesting < 64) : (siblings c first rest).nesting ≤ 64 := by
  obtain ⟨hfirst, hrest⟩ := List.forall_mem_cons.1 h
  refine Chain.nesting_extend_le hfirst fun link hlink => ?_
  obtain ⟨inner, hinner, rfl⟩ := List.mem_map.1 hlink
  exact hrest inner hinner

theorem toFilter_extend_groups (c : Connector) (init : Chain) (rest : List Chain) :
    (init.extend (rest.map fun inner => (c, .group inner))).toFilter =
      join c (init.toFilter :: rest.map Chain.toFilter) := by
  induction rest generalizing init with
  | nil => exact (init.canonical_toFilter.join_singleton c).symm
  | cons inner rest ih =>
    have hpair : ∀ f ∈ [init.toFilter, inner.toFilter], f.Canonical := by
      simp [Chain.canonical_toFilter]
    refine (ih (.more init c (.group inner))).trans ?_
    exact join_join_append hpair _

theorem toFilter_siblings (c : Connector) (first : Chain) (rest : List Chain) :
    (siblings c first rest).toFilter = join c ((first :: rest).map Chain.toFilter) :=
  toFilter_extend_groups c (.single (.group first)) rest

/-- Any number of groups is read. -/
theorem exists_parse_siblings {c : Connector} {first : Chain} {rest : List Chain} {text : String}
    (hs : (siblings c first rest).Spells (trim text.toList))
    (hnesting : ∀ inner ∈ first :: rest, inner.nesting < 64)
    (hdepth : ∀ inner ∈ first :: rest, inner.toFilter.depth < 64) :
    ∃ f, parse text = .ok (some f) := by
  have hall : ∀ f ∈ (first :: rest).map Chain.toFilter, f.depth ≤ 63 := by
    intro f hf
    obtain ⟨inner, hinner, rfl⟩ := List.mem_map.1 hf
    exact Nat.le_of_lt_succ (hdepth inner hinner)
  have hjoin : (siblings c first rest).toFilter.depth ≤ 64 := by
    rw [toFilter_siblings]
    have hmost := depthFrom_le (Nat.zero_le 63) hall
    have := depth_join_le c ((first :: rest).map Chain.toFilter)
    omega
  exact ⟨_, parse_eq_some_iff_denotes.2 ⟨_, hs, nesting_siblings hnesting, hjoin, rfl⟩⟩

/-! ## Whole texts -/

open Cursor

/-- **Reading stays within bounds.** Whatever tokens a text is cut into, the reader by position
takes the steps of `ofTokens` and comes to its result. At every place it passes, the count of open
groups is right and at most 64, the end mark has not been passed, and no filter it holds is deeper
than 64; where a step ends, and be it a refusal, the count is right and at most 65 and the position
is not behind the tokens. What is handed to `nest` is at most 64 deep and makes a node of at most
65. A group is open until it is closed, and then all registers are as it found them; so any number
of groups is read. Where a filter is read, no group is left open and each token but the end mark
has been passed by one step, and by one only. -/
theorem reading_bounded {text : String} {ts : List Token}
    (h : tokenize (trim text.toList) = .ok ts) :
    (∃ r, Reaches (start ts) r ∧ r.step.2 = .ofResult (ofTokens ts)) ∧
    (∀ r, Reaches (start ts) r →
      progress r.step = r.toState.step ∧ Within ts r ∧
      (r.step.1.depth = r.step.1.outer.length ∧ r.step.1.depth ≤ 65 ∧
        r.step.1.position ≤ ts.length) ∧
      ∀ f c fs, r.operand = some f → r.handed f = some (c, fs) →
        (∀ g ∈ fs, g.depth ≤ 64) ∧ (join c fs).depth ≤ 65) ∧
    (∀ base r r', Reaches (start ts) base → base.token 0 = .openParen → Next base r →
      Reaches r r' →
      base.Inside r' ∨ ∃ last, Reaches r last ∧ Reaches last r' ∧ base.Closes last) ∧
    (∀ c first rest, (siblings c first rest).Spells (trim text.toList) →
      (∀ inner ∈ first :: rest, inner.nesting < 64 ∧ inner.toFilter.depth < 64) →
      ∃ f, parse text = .ok (some f)) ∧
    ∀ f, parse text = .ok (some f) →
      ∃ last, Reaches (start ts) last ∧ last.step.2 = .finished f ∧ last.outer = [] ∧
        last.token 0 = .endOfInput ∧ last.position + 1 = ts.length ∧
        ∀ i < last.position,
          ∃! q, Reaches (start ts) q ∧ q.position ≤ i ∧ i < q.step.1.position := by
  obtain ⟨us, hcut, rfl⟩ := tokenize_eq_ok_iff.1 h
  have hts : (us ++ [Token.endOfInput]).getLast? = some .endOfInput := List.getLast?_concat
  have hagrees := exists_reaches_ofTokens (us ++ [.endOfInput])
  refine ⟨hagrees, ?_, ?_, ?_, ?_⟩
  · intro r hr
    have hwithin := Within.of_reaches hts hr
    exact ⟨progress_step hwithin.depth_eq, hwithin, hwithin.bounds_step hts,
      fun f c fs hf hfs => hwithin.handed_le hf hfs⟩
  · intro base r r' hbase hopens hnext hreaches
    exact inside_or_closed hts hbase hopens hnext hreaches
  · intro c first rest hs hall
    exact exists_parse_siblings hs (fun inner hinner => (hall inner hinner).1)
      fun inner hinner => (hall inner hinner).2
  · intro f hf
    obtain ⟨-, hchars⟩ := parse_eq_some_iff.1 hf
    rw [ofChars, h] at hchars
    obtain ⟨last, hlast, hresult⟩ := hagrees
    have hfinished : last.step.2 = .finished f := hresult.trans (congrArg Outcome.ofResult hchars)
    obtain ⟨houter, htoken, hposition⟩ :=
      (Within.of_reaches hts hlast).of_finished hcut.endOfInput_not_mem hfinished
    refine ⟨last, hlast, hfinished, houter, htoken, ?_, ?_⟩
    · rw [hposition, List.length_append, List.length_singleton]
    · intro i hi
      exact existsUnique_passed hlast (Nat.zero_le i) hi

/-- The theorem at a text with two groups: they are siblings, so the text is read, and the last
place is in front of the end mark. -/
theorem reading_bounded_two_groups :
    ∃ ts first second,
      ts = [.openParen, .key "a", .closeParen, .space, .key "AND", .space, .openParen, .key "b",
        .space, .key "OR", .space, .key "c", .space, .closeParen, .endOfInput] ∧
      tokenize (trim "(a) AND (b OR c )".toList) = .ok ts ∧
      (siblings .and first [second]).Spells (trim "(a) AND (b OR c )".toList) ∧
      ∃ f last, parse "(a) AND (b OR c )" = .ok (some f) ∧ Reaches (start ts) last ∧
        last.step.2 = .finished f ∧ last.depth = 0 ∧ last.position = 14 := by
  have hgap : IsGap [' '] := ⟨List.cons_ne_nil _ _, rfl⟩
  have hkey : ∀ name ∈ ["a", "b", "c"], IsKey name.toList := by
    simp only [isKey_iff]
    decide
  have hor := Chain.Spells.more (c := .or) (.single (.word (hkey "b" (by decide)))) hgap hgap
    (.word (hkey "c" (by decide)))
  have hand := Chain.Spells.more (c := .and)
    (.single (@Term.Spells.group _ [] _ [] rfl (.single (.word (hkey "a" (by decide)))) rfl))
    hgap hgap (@Term.Spells.group _ [] _ [' '] rfl hor rfl)
  have hspells : (siblings .and _ [_]).Spells (trim "(a) AND (b OR c )".toList) := hand
  have htokens : tokenize (trim "(a) AND (b OR c )".toList) = .ok
      [.openParen, .key "a", .closeParen, .space, .key "AND", .space, .openParen, .key "b",
        .space, .key "OR", .space, .key "c", .space, .closeParen, .endOfInput] := by
    decide +kernel
  obtain ⟨-, hplaces, -, hsiblings, hread⟩ := reading_bounded htokens
  obtain ⟨f, hf⟩ := hsiblings _ _ _ hspells (by decide)
  obtain ⟨last, hlast, hfinished, houter, -, hposition, -⟩ := hread f hf
  refine ⟨_, _, _, rfl, htokens, hspells, f, last, hf, hlast, hfinished, ?_, ?_⟩
  · rw [(hplaces last hlast).2.1.depth_eq, houter]
    rfl
  · exact Nat.succ.inj hposition

end Criteria.Filter
