import Criteria.Proofs.Filter.Pieces

/-!
# Derivations and tokens

`Term.Tokens` and `Chain.Tokens` are the grammar of filters over tokens, and `Cut` says that a
text is cut into given tokens. The two levels fit together: a text that has a derivation is cut
into tokens of the same surface form (`Chain.Spells.exists_tokens`), and a text that is cut into
tokens of a surface form has that derivation (`Chain.Tokens.exists_spells`).
-/

namespace Criteria.Filter

open Criteria.Text

mutual

/-- The tokens of a text that spells a term; blanks inside parentheses may be there or not. -/
inductive Term.Tokens : Term → List Token → Prop where
  | word {name : String} : Term.Tokens (.word name) [.key name]
  | comparison {field raw : String} {c : Comparator} :
      Term.Tokens (.comparison field c raw) [.key field, .comparator c, .value raw]
  | group {inner : Chain} {before ts after : List Token} :
      before ∈ [[], [Token.space]] → Chain.Tokens inner ts → after ∈ [[], [Token.space]] →
      Term.Tokens (.group inner) (.openParen :: (before ++ ts ++ after ++ [.closeParen]))

/-- The tokens of a text that spells a chain. -/
inductive Chain.Tokens : Chain → List Token → Prop where
  | single {term : Term} {ts : List Token} : Term.Tokens term ts → Chain.Tokens (.single term) ts
  | more {init : Chain} {c : Connector} {last : Term} {ts us : List Token} :
      Chain.Tokens init ts → Term.Tokens last us →
      Chain.Tokens (.more init c last) (ts ++ .space :: .key c.word :: .space :: us)

end

/-- What may follow a term: anything but a comparator, which would belong to the key before it. -/
def Follows (ts : List Token) : Prop := ∀ c, ts.head? ≠ some (.comparator c)

theorem follows_space (ts : List Token) : Follows (.space :: ts) := by
  intro c hc
  exact nomatch hc

/-! ## Cutting a text into pieces -/

/-- A text is cut into pieces with these tokens. -/
inductive Cut : List Char → List Token → Prop where
  | nil : Cut [] []
  | piece {s rest : List Char} {ts us : List Token} :
      readPiece? s = some (ts, rest) → Cut rest us → Cut s (ts ++ us)

theorem readPiece?_nil : readPiece? [] = none := rfl

/-- The tokens of a text are those it is cut into, with the end mark behind them. -/
theorem tokenizeFrom_eq_ok_iff {done : List Token} {s : List Char} {ts : List Token} :
    tokenizeFrom done s = .ok ts ↔
      ∃ us, Cut s us ∧ ts = done.reverse ++ us ++ [.endOfInput] := by
  -- on the pieces, as they are cut off
  fun_induction tokenizeFrom done s with
  | case1 done =>
    constructor
    · intro h
      exact ⟨[], .nil, by simpa using (Except.ok.inj h).symm⟩
    · rintro ⟨us, hcut, rfl⟩
      cases hcut with
      | nil => simp
      | piece hp _ => simp [readPiece?_nil] at hp
  | case2 done s hs hp =>
    constructor
    · exact nofun
    · rintro ⟨us, hcut, -⟩
      cases hcut with
      | nil => exact absurd rfl hs
      | piece hp' _ => simp [hp] at hp'
  | case3 done s hs ts rest hp ih =>
    rw [ih]
    constructor
    · rintro ⟨us, hcut, rfl⟩
      exact ⟨ts ++ us, .piece hp hcut, by simp⟩
    · rintro ⟨us, hcut, rfl⟩
      cases hcut with
      | nil => exact absurd rfl hs
      | piece hp' hcut =>
        rw [hp] at hp'
        cases hp'
        exact ⟨_, hcut, by simp⟩

theorem tokenize_eq_ok_iff {s : List Char} {ts : List Token} :
    tokenize s = .ok ts ↔ ∃ us, Cut s us ∧ ts = us ++ [.endOfInput] := by
  rw [tokenize, tokenizeFrom_eq_ok_iff]
  simp

/-! ## From tokens to derivations -/

theorem Cut.exists_piece {s : List Char} {t : Token} {ts : List Token} (h : Cut s (t :: ts)) :
    ∃ p rest us vs, Piece p us ∧ s = p ++ rest ∧ us ++ vs = t :: ts ∧ Cut rest vs := by
  generalize hts : t :: ts = all at h
  cases h with
  | nil => exact nomatch hts
  | piece hp hcut =>
    obtain ⟨p, hpiece, hs⟩ := readPiece?_eq_some_iff.1 hp
    exact ⟨p, _, _, _, hpiece.piece, hs, rfl, hcut⟩

/-- Only the empty text has no tokens. -/
theorem Cut.eq_nil {s : List Char} (h : Cut s []) : s = [] := by
  generalize hts : [] = ts at h
  cases h with
  | nil => rfl
  | piece hp _ =>
    obtain ⟨p, hpiece, -⟩ := readPiece?_eq_some_iff.1 hp
    cases hpiece.piece <;> exact nomatch hts

/-- A piece never begins with a comparator. -/
theorem Cut.follows {s : List Char} {ts : List Token} (h : Cut s ts) : Follows ts := by
  intro c hc
  cases ts with
  | nil => exact nomatch hc
  | cons t ts =>
    obtain ⟨p, rest, us, vs, hpiece, -, hts, -⟩ := h.exists_piece
    obtain rfl : t = .comparator c := Option.some.inj hc
    cases hpiece <;> exact nomatch (List.cons.inj hts).1

theorem Cut.of_openParen {s : List Char} {ts : List Token} (h : Cut s (.openParen :: ts)) :
    ∃ rest, s = '(' :: rest ∧ Cut rest ts := by
  obtain ⟨p, rest, us, vs, hpiece, rfl, hts, hcut⟩ := h.exists_piece
  cases hpiece with
  | openParen =>
    obtain ⟨-, rfl⟩ := List.cons.inj hts
    exact ⟨rest, rfl, hcut⟩
  | _ => exact nomatch (List.cons.inj hts).1

theorem Cut.of_closeParen {s : List Char} {ts : List Token} (h : Cut s (.closeParen :: ts)) :
    ∃ rest, s = ')' :: rest ∧ Cut rest ts := by
  obtain ⟨p, rest, us, vs, hpiece, rfl, hts, hcut⟩ := h.exists_piece
  cases hpiece with
  | closeParen =>
    obtain ⟨-, rfl⟩ := List.cons.inj hts
    exact ⟨rest, rfl, hcut⟩
  | _ => exact nomatch (List.cons.inj hts).1

theorem Cut.of_space {s : List Char} {ts : List Token} (h : Cut s (.space :: ts)) :
    ∃ gap rest, IsGap gap ∧ s = gap ++ rest ∧ Cut rest ts := by
  obtain ⟨p, rest, us, vs, hpiece, rfl, hts, hcut⟩ := h.exists_piece
  cases hpiece with
  | space hgap =>
    obtain ⟨-, rfl⟩ := List.cons.inj hts
    exact ⟨p, rest, hgap, rfl, hcut⟩
  | _ => exact nomatch (List.cons.inj hts).1

theorem Cut.of_key {s : List Char} {name : String} {ts : List Token} (h : Cut s (.key name :: ts))
    (hts : Follows ts) : ∃ rest, IsKey name.toList ∧ s = name.toList ++ rest ∧ Cut rest ts := by
  obtain ⟨p, rest, us, vs, hpiece, rfl, heq, hcut⟩ := h.exists_piece
  cases hpiece with
  | key hkey =>
    cases heq
    exact ⟨rest, hkey, rfl, hcut⟩
  | comparison _ _ =>
    cases heq
    exact absurd rfl (hts _)
  | _ => exact nomatch (List.cons.inj heq).1

theorem Cut.of_comparison {s : List Char} {field raw : String} {c : Comparator} {ts : List Token}
    (h : Cut s (.key field :: .comparator c :: .value raw :: ts)) :
    ∃ rest, IsKey field.toList ∧ IsValue raw.toList ∧
      s = field.toList ++ c.symbol.toList ++ raw.toList ++ rest ∧ Cut rest ts := by
  obtain ⟨p, rest, us, vs, hpiece, rfl, heq, hcut⟩ := h.exists_piece
  cases hpiece with
  | key hkey =>
    -- a key alone is cut off only where no comparator comes next
    cases heq
    exact absurd rfl (hcut.follows c)
  | comparison hkey hvalue =>
    cases heq
    exact ⟨rest, hkey, hvalue, rfl, hcut⟩
  | _ => exact nomatch (List.cons.inj heq).1

/-- An optional token for blanks stands for a text of blanks, which may be empty. -/
theorem Cut.of_optional_space {s : List Char} {before ts : List Token}
    (hbefore : before ∈ [[], [Token.space]]) (h : Cut s (before ++ ts)) :
    ∃ gap rest, blank gap = true ∧ s = gap ++ rest ∧ Cut rest ts := by
  simp only [List.mem_cons, List.not_mem_nil, or_false] at hbefore
  rcases hbefore with rfl | rfl
  · exact ⟨[], s, rfl, rfl, h⟩
  · obtain ⟨gap, rest, hgap, hs, hrest⟩ := Cut.of_space h
    exact ⟨gap, rest, hgap.2, hs, hrest⟩

theorem follows_append_closeParen {after ts : List Token} (h : after ∈ [[], [Token.space]]) :
    Follows (after ++ .closeParen :: ts) := by
  simp only [List.mem_cons, List.not_mem_nil, or_false] at h
  rcases h with rfl | rfl
  · intro c hc
    exact nomatch hc
  · exact follows_space _

mutual

/-- A text that is cut into the tokens of a term, and further ones, begins with a text that spells
the term. -/
theorem Term.Tokens.exists_spells {term : Term} {ts : List Token} (h : term.Tokens ts)
    {s : List Char} {us : List Token} (hcut : Cut s (ts ++ us)) (hus : Follows us) :
    ∃ p rest, term.Spells p ∧ s = p ++ rest ∧ Cut rest us := by
  cases h with
  | word =>
    obtain ⟨rest, hkey, hs, hrest⟩ := Cut.of_key hcut hus
    exact ⟨_, rest, .word hkey, hs, hrest⟩
  | comparison =>
    obtain ⟨rest, hkey, hvalue, hs, hrest⟩ := Cut.of_comparison hcut
    exact ⟨_, rest, .comparison hkey hvalue, hs, hrest⟩
  | @group inner before ts after hbefore hinner hafter =>
    simp only [List.cons_append, List.append_assoc, List.nil_append] at hcut
    obtain ⟨s₁, rfl, hcut₁⟩ := Cut.of_openParen hcut
    obtain ⟨gap₁, s₂, hgap₁, rfl, hcut₂⟩ := Cut.of_optional_space hbefore hcut₁
    obtain ⟨p, s₃, hp, rfl, hcut₃⟩ :=
      Chain.Tokens.exists_spells hinner hcut₂ (follows_append_closeParen hafter)
    obtain ⟨gap₂, s₄, hgap₂, rfl, hcut₄⟩ := Cut.of_optional_space hafter hcut₃
    obtain ⟨rest, rfl, hrest⟩ := Cut.of_closeParen hcut₄
    exact ⟨_, rest, .group hgap₁ hp hgap₂, by simp, hrest⟩

/-- A text that is cut into the tokens of a chain, and further ones, begins with a text that
spells the chain. -/
theorem Chain.Tokens.exists_spells {chain : Chain} {ts : List Token} (h : chain.Tokens ts)
    {s : List Char} {us : List Token} (hcut : Cut s (ts ++ us)) (hus : Follows us) :
    ∃ p rest, chain.Spells p ∧ s = p ++ rest ∧ Cut rest us := by
  cases h with
  | single hterm =>
    obtain ⟨p, rest, hp, hs, hrest⟩ := Term.Tokens.exists_spells hterm hcut hus
    exact ⟨p, rest, .single hp, hs, hrest⟩
  | more hinit hlast =>
    simp only [List.append_assoc, List.cons_append] at hcut
    obtain ⟨p, s₁, hp, rfl, hcut₁⟩ :=
      Chain.Tokens.exists_spells hinit hcut (follows_space _)
    obtain ⟨gap₁, s₂, hgap₁, rfl, hcut₂⟩ := Cut.of_space hcut₁
    obtain ⟨s₃, -, rfl, hcut₃⟩ := Cut.of_key hcut₂ (follows_space _)
    obtain ⟨gap₂, s₄, hgap₂, rfl, hcut₄⟩ := Cut.of_space hcut₃
    obtain ⟨q, rest, hq, rfl, hrest⟩ := Term.Tokens.exists_spells hlast hcut₄ hus
    exact ⟨_, rest, .more hp hgap₁ hgap₂ hq, by simp, hrest⟩

end

/-! ## From derivations to tokens -/

/-- What may follow the text of a term: nothing, a blank character or a closing parenthesis. -/
def Stops (s : List Char) : Prop := ∀ c ∈ s.head?, isBlank c = true ∨ c = ')'

theorem Stops.isKeyChar_eq_false {s : List Char} (h : Stops s) :
    ∀ c ∈ s.head?, isKeyChar c = false := by
  intro c hc
  rcases h c hc with hblank | rfl
  · refine Bool.eq_false_iff.2 fun hkey => ?_
    rw [isBlank_eq_false_of_isKeyChar hkey] at hblank
    exact nomatch hblank
  · decide

theorem Stops.isValueChar_eq_false {s : List Char} (h : Stops s) :
    ∀ c ∈ s.head?, isValueChar c = false := by
  intro c hc
  rcases h c hc with hblank | rfl
  · refine Bool.eq_false_iff.2 fun hvalue => ?_
    rw [isBlank_eq_false_of_isValueChar hvalue] at hblank
    exact nomatch hblank
  · decide

/-- A term ends where its text may stop. -/
theorem readPiece?_term {p rest : List Char} {ts : List Token} (h : Piece p ts)
    (hspace : ts ≠ [.space]) (hrest : Stops rest) : readPiece? (p ++ rest) = some (ts, rest) := by
  refine readPiece?_eq_some_iff.2 ⟨p, ⟨h, fun hts => absurd hts hspace, ?_, ?_⟩, rfl⟩
  · intro _ _ c hc
    refine ⟨hrest.isKeyChar_eq_false c hc, ?_⟩
    rintro rfl
    rcases hrest ':' hc with hblank | hparen
    · exact absurd hblank (by decide)
    · exact absurd hparen (by decide)
  · intro _ _ _ _ _
    exact hrest.isValueChar_eq_false

theorem readPiece?_gap {gap rest : List Char} (h : IsGap gap)
    (hrest : ∀ c ∈ rest.head?, isBlank c = false) :
    readPiece? (gap ++ rest) = some ([.space], rest) :=
  readPiece?_eq_some_iff.2 ⟨gap, ⟨.space h, fun _ => hrest, nofun, nofun⟩, rfl⟩

theorem stops_cons_of_isBlank {c : Char} (h : isBlank c = true) (rest : List Char) :
    Stops (c :: rest) := by
  intro d hd
  obtain rfl : c = d := Option.some.inj hd
  exact .inl h

theorem stops_append_of_blank {gap rest : List Char} (h : blank gap = true) (hrest : Stops rest) :
    Stops (gap ++ rest) := by
  cases gap with
  | nil => exact hrest
  | cons c gap => exact stops_cons_of_isBlank (List.all_eq_true.1 h c List.mem_cons_self) _

theorem IsGap.stops {gap : List Char} (h : IsGap gap) (rest : List Char) : Stops (gap ++ rest) := by
  obtain ⟨c, gap, rfl⟩ := List.exists_cons_of_ne_nil h.1
  exact stops_cons_of_isBlank (List.all_eq_true.1 h.2 c List.mem_cons_self) _

mutual

/-- The text of a term begins with a character that is not blank. -/
theorem Term.Spells.head {term : Term} {s : List Char} (h : term.Spells s) (rest : List Char) :
    ∀ c ∈ (s ++ rest).head?, isBlank c = false := by
  cases h with
  | word hkey => exact fun c hc => isBlank_eq_false_of_isKeyChar (hkey.head rest c hc)
  | comparison hkey _ =>
    intro c hc
    rw [List.append_assoc, List.append_assoc] at hc
    exact isBlank_eq_false_of_isKeyChar (hkey.head _ c hc)
  | group _ _ _ =>
    intro c hc
    obtain rfl : '(' = c := Option.some.inj hc
    decide

/-- The text of a chain begins with a character that is not blank. -/
theorem Chain.Spells.head {chain : Chain} {s : List Char} (h : chain.Spells s)
    (rest : List Char) : ∀ c ∈ (s ++ rest).head?, isBlank c = false := by
  cases h with
  | single hterm => exact Term.Spells.head hterm rest
  | more hinit _ _ _ =>
    rw [List.append_assoc, List.append_assoc, List.append_assoc, List.append_assoc]
    exact Chain.Spells.head hinit _

end

theorem isKey_word (c : Connector) : IsKey c.word.toList := by
  rw [isKey_iff]
  cases c <;> decide

/-- Blanks before a text that does not begin with one are cut off as a single piece, if any. -/
theorem Cut.exists_optional_space {gap rest : List Char} {us : List Token}
    (hgap : blank gap = true) (hrest : ∀ c ∈ rest.head?, isBlank c = false) (hcut : Cut rest us) :
    ∃ before, before ∈ [[], [Token.space]] ∧ Cut (gap ++ rest) (before ++ us) := by
  by_cases hnil : gap = []
  · subst hnil
    exact ⟨[], by simp, hcut⟩
  · exact ⟨[.space], by simp, .piece (readPiece?_gap ⟨hnil, hgap⟩ hrest) hcut⟩

mutual

/-- A text that begins with one that spells a term is cut into tokens of the term and those of the
rest. -/
theorem Term.Spells.exists_tokens {term : Term} {s : List Char} (h : term.Spells s)
    {rest : List Char} {us : List Token} (hrest : Stops rest) (hcut : Cut rest us) :
    ∃ ts, term.Tokens ts ∧ Cut (s ++ rest) (ts ++ us) := by
  cases h with
  | word hkey => exact ⟨_, .word, .piece (readPiece?_term (.key hkey) nofun hrest) hcut⟩
  | comparison hkey hvalue =>
    exact ⟨_, .comparison, .piece (readPiece?_term (.comparison hkey hvalue) nofun hrest) hcut⟩
  | @group inner before s after hbefore hinner hafter =>
    -- the pieces are put together from the last one on, since a piece looks at what follows it
    have hclose : Cut (')' :: rest) (.closeParen :: us) :=
      .piece (readPiece?_term .closeParen nofun hrest) hcut
    have hstop : Stops (')' :: rest) := by
      intro c hc
      exact .inr (Option.some.inj hc).symm
    obtain ⟨vs, hvs, hcut₁⟩ :=
      Cut.exists_optional_space hafter (fun c hc => by cases hc; decide) hclose
    obtain ⟨ts, hts, hcut₂⟩ :=
      Chain.Spells.exists_tokens hinner (stops_append_of_blank hafter hstop) hcut₁
    obtain ⟨ws, hws, hcut₃⟩ := Cut.exists_optional_space hbefore (hinner.head _) hcut₂
    refine ⟨_, .group hws hts hvs, ?_⟩
    have := Cut.piece
      (readPiece?_eq_some_iff.2 ⟨_, ⟨.openParen, nofun, nofun, nofun⟩, rfl⟩) hcut₃
    simpa using this

/-- A text that begins with one that spells a chain is cut into tokens of the chain and those of
the rest. -/
theorem Chain.Spells.exists_tokens {chain : Chain} {s : List Char} (h : chain.Spells s)
    {rest : List Char} {us : List Token} (hrest : Stops rest) (hcut : Cut rest us) :
    ∃ ts, chain.Tokens ts ∧ Cut (s ++ rest) (ts ++ us) := by
  cases h with
  | single hterm =>
    obtain ⟨ts, hts, hcut⟩ := Term.Spells.exists_tokens hterm hrest hcut
    exact ⟨ts, .single hts, hcut⟩
  | @more init c last s before after t hinit hbefore hafter hlast =>
    obtain ⟨vs, hvs, hcut₁⟩ := Term.Spells.exists_tokens hlast hrest hcut
    have hcut₂ := Cut.piece (readPiece?_gap hafter (hlast.head rest)) hcut₁
    have hcut₃ := Cut.piece
      (readPiece?_term (.key (isKey_word c)) nofun (hafter.stops (t ++ rest))) hcut₂
    have hword : ∀ d ∈ (c.word.toList ++ (after ++ (t ++ rest))).head?, isBlank d = false :=
      fun d hd => isBlank_eq_false_of_isKeyChar ((isKey_word c).head _ d hd)
    have hcut₄ := Cut.piece (readPiece?_gap hbefore hword) hcut₃
    obtain ⟨ts, hts, hcut₅⟩ := Chain.Spells.exists_tokens hinit (hbefore.stops _) hcut₄
    exact ⟨_, .more hts hvs, by simpa using hcut₅⟩

end

end Criteria.Filter
