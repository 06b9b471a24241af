import Criteria.Proofs.Filter.Lexemes
import Criteria.Proofs.Literal.Classes

/-!
# Values and their quotes

Quotes are looked at twice. The reader of tokens goes from a quote to the next one of its kind,
with the rest of the text behind it; literal inference has the token alone, and compares its ends.
`Recognised` says that both find the same text in quotes, or both none. It holds of every value
that is read (`recognised_of_readValue?`), and every value among the tokens of a text was read
where it stands (`exists_value_of_tokenize`). The literals of a filter are those of its values, in
their order (`Chain.Tokens.literals_toFilter`); `Becomes` says which literal a value becomes. Main
statement (`values_recognised`): every value of a text is recognised, and every literal of a filter
comes from the text in the quotes of its value, or from the whole of a bare one.
-/

namespace Criteria.Filter

open Criteria.Text

/-! ## Both readers of quotes -/

/-- The value `raw`, with `rest` behind it, is in quotes for the reader of tokens and for literal
inference, with the same text between them; or it is bare for both. -/
inductive Recognised (raw rest : List Char) : Prop where
  | quoted {q : Char} {inner : List Char} : q = '\'' ∨ q = '"' → inner ≠ [] → q ∉ inner →
      raw = q :: (inner ++ [q]) → readQuoted? q (raw ++ rest) = some (raw, rest) →
      Literal.unquote? raw = some inner → Recognised raw rest
  | bare : IsBareValue raw → readBareValue? (raw ++ rest) = some (raw, rest) →
      Literal.unquote? raw = none → Recognised raw rest

/-- A value is recognised wherever it is read. -/
theorem recognised_of_readValue? {raw rest : List Char}
    (h : readValue? (raw ++ rest) = some (raw, rest)) : Recognised raw rest := by
  obtain ⟨hvalue, -, hrest⟩ := readValue?_eq_some_iff.1 h
  cases hvalue with
  | bare hbare =>
    obtain ⟨hne, hall⟩ := (isBareValue_iff raw).1 hbare
    exact .bare hbare (readRun?_append hne hall (hrest hbare)) (Literal.unquote?_bare hbare)
  | @quoted q inner hq hne hmem =>
    exact .quoted hq hne hmem rfl (readQuoted?_eq_some_iff.2 ⟨inner, hne, hmem, rfl, rfl⟩)
      (Literal.unquote?_quoted hq inner)

/-! ## The values of a text -/

/-- The text of a token for a value. -/
def Token.value? : Token → Option String
  | .value raw => some raw
  | _ => none

theorem Token.eq_value_of_value? {t : Token} {raw : String} (h : t.value? = some raw) :
    t = .value raw := by
  cases t with
  | value raw' => rw [Option.some.inj h]
  | _ => exact nomatch h

/-- The texts of the values among some tokens, in their order. -/
def valueTexts (ts : List Token) : List String := ts.filterMap Token.value?

theorem valueTexts_append (ts us : List Token) :
    valueTexts (ts ++ us) = valueTexts ts ++ valueTexts us :=
  List.filterMap_append

theorem valueTexts_cons_of_no_value {t : Token} (h : t.value? = none) (ts : List Token) :
    valueTexts (t :: ts) = valueTexts ts :=
  List.filterMap_cons_none h

theorem exists_append_of_mem_valueTexts {ts : List Token} {raw : String}
    (h : raw ∈ valueTexts ts) : ∃ before after, ts = before ++ .value raw :: after := by
  obtain ⟨t, ht, hvalue⟩ := List.mem_filterMap.1 h
  obtain rfl := Token.eq_value_of_value? hvalue
  exact List.append_of_mem ht

/-- A piece with a value is a comparison, and at its end the value is read. -/
theorem PieceAt.of_value {p rest : List Char} {before after : List Token} {raw : String}
    (h : PieceAt p (before ++ .value raw :: after) rest) :
    ∃ front, p = front ++ raw.toList ∧ MadeUpOf before front ∧ after = [] ∧
      readValue? (raw.toList ++ rest) = some (raw.toList, rest) := by
  obtain ⟨hpiece, -, -, hends⟩ := h
  generalize hts : before ++ .value raw :: after = ts at hpiece hends
  cases hpiece with
  | @comparison field raw' c hkey hvalue =>
    -- the value is the last of the three tokens
    rcases before with _ | ⟨t, _ | ⟨u, _ | ⟨v, before⟩⟩⟩
    · exact nomatch (List.cons.inj hts).1
    · exact nomatch (List.cons.inj (List.cons.inj hts).2).1
    · obtain ⟨rfl, rfl, rfl, rfl⟩ : t = .key field ∧ u = .comparator c ∧ raw = raw' ∧
        after = [] := by simpa using hts
      exact ⟨_, rfl, ⟨[_, _], .cons (.key hkey) (.cons (.comparator c) .nil), by simp⟩, rfl,
        readValue?_eq_some_iff.2 ⟨hvalue, rfl, hends field c raw rfl⟩⟩
    · simp at hts
  | _ => rcases before with _ | ⟨t, before⟩ <;> simp at hts

/-- A value among the tokens of a text was read where it stands, before the characters of all
tokens behind it. -/
theorem Cut.exists_value {s : List Char} {us before after : List Token} {raw : String}
    (h : Cut s us) (hus : us ++ [.endOfInput] = before ++ .value raw :: after) :
    ∃ front rest, s = front ++ (raw.toList ++ rest) ∧ MadeUpOf before front ∧
      MadeUpOf after rest ∧ readValue? (raw.toList ++ rest) = some (raw.toList, rest) := by
  -- on the pieces: the value is in the first one or behind it
  induction h generalizing before with
  | nil => rcases before with _ | ⟨t, before⟩ <;> simp at hus
  | @piece s rest ts us hp hcut ih =>
    obtain ⟨p, hpiece, rfl⟩ := readPiece?_eq_some_iff.1 hp
    have hbehind : ∀ mid, before = ts ++ mid →
        us ++ [.endOfInput] = mid ++ .value raw :: after →
        ∃ front rest', p ++ rest = front ++ (raw.toList ++ rest') ∧ MadeUpOf before front ∧
          MadeUpOf after rest' ∧ readValue? (raw.toList ++ rest') = some (raw.toList, rest') := by
      rintro mid rfl hmid
      obtain ⟨front, rest', rfl, hfront, hrest', hread⟩ := ih hmid
      exact ⟨p ++ front, rest', (List.append_assoc _ _ _).symm,
        hpiece.piece.madeUpOf.append hfront, hrest', hread⟩
    rw [List.append_assoc] at hus
    rcases List.append_eq_append_iff.1 hus with ⟨mid, hbefore, hmid⟩ | ⟨mid, rfl, hmid⟩
    · exact hbehind mid hbefore hmid
    · cases mid with
      | nil => exact hbehind [] (by simp) hmid.symm
      | cons t mid =>
        obtain ⟨rfl, rfl⟩ := List.cons.inj hmid
        obtain ⟨front, rfl, hfront, rfl, hread⟩ := hpiece.of_value
        have hrest := hcut.madeUpOf.append madeUpOf_endOfInput
        rw [List.append_nil] at hrest
        exact ⟨front, rest, List.append_assoc _ _ _, hfront, hrest, hread⟩

theorem exists_value_of_tokenize {s : List Char} {before after : List Token} {raw : String}
    (h : tokenize s = .ok (before ++ .value raw :: after)) :
    ∃ front rest, s = front ++ (raw.toList ++ rest) ∧ MadeUpOf before front ∧
      MadeUpOf after rest ∧ readValue? (raw.toList ++ rest) = some (raw.toList, rest) := by
  obtain ⟨us, hcut, hus⟩ := tokenize_eq_ok_iff.1 h
  exact hcut.exists_value hus.symm

/-- A comparison that is a text by itself is cut into its three tokens, whatever stands in the
quotes of its value. -/
theorem tokenize_comparison {field raw : String} (c : Comparator) (hfield : IsKey field.toList)
    (hraw : IsValue raw.toList) :
    tokenize (field.toList ++ c.symbol.toList ++ raw.toList) =
      .ok [.key field, .comparator c, .value raw, .endOfInput] := by
  have hspells := Chain.Spells.single (Term.Spells.comparison (c := c) hfield hraw)
  obtain ⟨ts, hts, hcut⟩ := hspells.exists_cut
  cases hts with
  | single hterm =>
    cases hterm with
    | comparison => exact tokenize_eq_ok_iff.2 ⟨_, hcut, rfl⟩

/-! ## The literals of a filter -/

mutual

/-- The literals of a filter from left to right. -/
def literals : Filter → List Literal
  | .comparison _ _ value => [value]
  | .text _ => []
  | .node _ operands => literalsIn operands

/-- The literals of some filters, one filter after the other. -/
def literalsIn : List Filter → List Literal
  | [] => []
  | f :: rest => f.literals ++ literalsIn rest

end

theorem literalsIn_eq_flatMap (fs : List Filter) : literalsIn fs = fs.flatMap literals := by
  induction fs with
  | nil => rfl
  | cons f fs ih => rw [literalsIn, ih, List.flatMap_cons]

theorem literals_node (c : Connector) (operands : List Filter) :
    (node c operands).literals = operands.flatMap literals := by
  rw [literals, literalsIn_eq_flatMap]

theorem flatMap_literals_operandsFor (c : Connector) (f : Filter) :
    (operandsFor c f).flatMap literals = f.literals := by
  by_cases h : f.IsNode c
  · obtain ⟨operands, rfl⟩ := h
    rw [operandsFor_node, literals_node]
  · rw [operandsFor_of_not_isNode h, List.flatMap_singleton]

theorem literals_collapse (c : Connector) (fs : List Filter) :
    (collapse c fs).literals = fs.flatMap literals := by
  unfold collapse
  split
  · exact (List.flatMap_singleton _ _).symm
  · exact literals_node c fs

/-- Joining filters keeps their literals and the order of these. -/
theorem literals_join (c : Connector) (fs : List Filter) :
    (join c fs).literals = fs.flatMap literals := by
  rw [join, literals_collapse, List.flatMap_assoc]
  simp only [flatMap_literals_operandsFor]

mutual

theorem Term.Tokens.literals_toFilter {term : Term} {ts : List Token} (h : term.Tokens ts) :
    term.toFilter.literals = (valueTexts ts).map Literal.infer := by
  cases h with
  | word => rfl
  | comparison => rfl
  | @group inner before ts after hbefore hinner hafter =>
    have hspace : ∀ {gap : List Token}, gap ∈ [[], [Token.space]] → valueTexts gap = [] := by
      intro gap hgap
      rcases List.mem_pair.1 hgap with rfl | rfl <;> rfl
    have hclose : valueTexts [.closeParen] = [] := rfl
    rw [valueTexts_cons_of_no_value rfl, valueTexts_append, valueTexts_append, valueTexts_append,
      hspace hbefore, hspace hafter, hclose, List.nil_append, List.append_nil, List.append_nil,
      Term.toFilter]
    exact Chain.Tokens.literals_toFilter hinner

/-- The literals of what a chain denotes are inferred from the values among its tokens, each from
the value in its place. -/
theorem Chain.Tokens.literals_toFilter {chain : Chain} {ts : List Token} (h : chain.Tokens ts) :
    chain.toFilter.literals = (valueTexts ts).map Literal.infer := by
  cases h with
  | single hterm => exact Term.Tokens.literals_toFilter hterm
  | @more init c last ts us hinit hlast =>
    have hinit := Chain.Tokens.literals_toFilter hinit
    have hlast := Term.Tokens.literals_toFilter hlast
    rw [Chain.toFilter, literals_join, valueTexts_append, valueTexts_cons_of_no_value rfl,
      valueTexts_cons_of_no_value rfl, valueTexts_cons_of_no_value rfl, List.map_append, ← hinit,
      ← hlast]
    simp

end

/-! ## What values become -/

/-- The literal that a value becomes. In quotes, the date that the text between them denotes, and
else the pattern of that text; bare, the date, the number or the truth value that the value
denotes from its first character to its last, and else the pattern of the value. -/
inductive Becomes (raw : String) : Literal → Prop where
  | quotedDate {inner : List Char} {t : Instant} : Literal.IsQuoted raw.toList inner →
      Literal.DenotesDate inner t → Becomes raw (.date t)
  | quotedPattern {inner : String} : Literal.IsQuoted raw.toList inner.toList →
      ¬ DateTime.IsDate inner.toList → Becomes raw (.pattern inner)
  | bareDate {t : Instant} : IsBareValue raw.toList → Literal.DenotesDate raw.toList t →
      Becomes raw (.date t)
  | bareNumber {x : Binary64} : IsBareValue raw.toList → Literal.DenotesNumber raw.toList x →
      Becomes raw (.number x)
  | bareBoolean {b : Bool} : raw = Literal.booleanWord b → Becomes raw (.boolean b)
  | barePattern : IsBareValue raw.toList → ¬ DateTime.IsDate raw.toList →
      (∀ x, ¬ Literal.DenotesNumber raw.toList x) → (∀ b, raw ≠ Literal.booleanWord b) →
      Becomes raw (.pattern raw)

theorem becomes_ofQuoted {raw : String} {inner : List Char}
    (h : Literal.IsQuoted raw.toList inner) : Becomes raw (Literal.ofQuoted inner) := by
  rw [Literal.ofQuoted]
  cases hdate : Literal.readDate? inner with
  | some t => exact .quotedDate h (Literal.readDate?_eq_some_iff.1 hdate)
  | none =>
    rw [← String.toList_ofList (l := inner)] at h
    refine .quotedPattern h ?_
    rw [String.toList_ofList]
    exact Literal.readDate?_eq_none_iff.1 hdate

theorem becomes_ofBare {raw : String} (h : IsBareValue raw.toList) :
    Becomes raw (Literal.ofBare raw.toList) := by
  cases hl : Literal.ofBare raw.toList with
  | date t => exact .bareDate h (Literal.ofBare_eq_date_iff.1 hl)
  | number x => exact .bareNumber h (Literal.ofBare_eq_number_iff.1 hl)
  | boolean b => exact .bareBoolean (String.toList_inj.1 (Literal.ofBare_eq_boolean_iff.1 hl))
  | pattern source =>
    obtain ⟨hsource, hdate, hnumber, hboolean⟩ := Literal.ofBare_eq_pattern_iff.1 hl
    obtain rfl := String.toList_inj.1 hsource
    exact .barePattern h hdate hnumber fun b hb => hboolean b (congrArg String.toList hb)

/-- A value becomes the literal that is inferred from it. -/
theorem Recognised.becomes {raw : String} {rest : List Char} (h : Recognised raw.toList rest) :
    Becomes raw (Literal.infer raw) := by
  cases h with
  | @quoted q inner hq _ _ hraw _ _ =>
    rw [Literal.infer_quoted hq hraw]
    exact becomes_ofQuoted ⟨q, hq, hraw⟩
  | bare hbare _ _ =>
    rw [Literal.infer_bare hbare]
    exact becomes_ofBare hbare

/-- The literals of a filter that is read, from left to right, come from the values of its text,
from left to right. -/
theorem exists_forall₂_becomes_of_parse {text : String} {f : Filter}
    (h : parse text = .ok (some f)) :
    ∃ ts, tokenize (trim text.toList) = .ok ts ∧
      List.Forall₂ Becomes (valueTexts ts) f.literals := by
  obtain ⟨chain, hspells, -, -, rfl⟩ := parse_eq_some_iff_denotes.1 h
  obtain ⟨us, hus, hcut⟩ := hspells.exists_cut
  have htokens := tokenize_eq_ok_iff.2 ⟨us, hcut, rfl⟩
  have hvalues : valueTexts (us ++ [.endOfInput]) = valueTexts us := by
    rw [valueTexts_append, valueTexts_cons_of_no_value rfl]
    exact List.append_nil _
  refine ⟨_, htokens, ?_⟩
  rw [hus.literals_toFilter, ← hvalues, List.forall₂_map_right_iff, List.forall₂_same]
  intro raw hraw
  obtain ⟨before, after, hts⟩ := exists_append_of_mem_valueTexts hraw
  obtain ⟨-, rest, -, -, -, hread⟩ := exists_value_of_tokenize (hts ▸ htokens)
  exact (recognised_of_readValue? hread).becomes

/-- **Quotes are recognised alike.** Wherever a value was read from a text, it is in quotes for
both readers, with the same text between them, which is not empty and does not hold that quote, or
it is a bare value for both. Whatever else stands between two quotes, it is read as one value. The
literals of a filter come from the values of its text in their order: from the text in quotes
exactly, or from the whole of a bare value. -/
theorem values_recognised :
    (∀ (s : List Char) (before after : List Token) (raw : String),
      tokenize s = .ok (before ++ .value raw :: after) →
        ∃ front rest, s = front ++ (raw.toList ++ rest) ∧ MadeUpOf before front ∧
          MadeUpOf after rest ∧ Recognised raw.toList rest) ∧
    (∀ (field raw : String) (c : Comparator) (q : Char) (inner : List Char),
      IsKey field.toList → q = '\'' ∨ q = '"' → inner ≠ [] → q ∉ inner →
      raw.toList = q :: (inner ++ [q]) →
        tokenize (field.toList ++ c.symbol.toList ++ raw.toList) =
          .ok [.key field, .comparator c, .value raw, .endOfInput]) ∧
    ∀ (text : String) (f : Filter), parse text = .ok (some f) →
      ∃ ts, tokenize (trim text.toList) = .ok ts ∧
        List.Forall₂ Becomes (valueTexts ts) f.literals := by
  refine ⟨?_, ?_, ?_⟩
  · intro s before after raw h
    obtain ⟨front, rest, hs, hfront, hrest, hread⟩ := exists_value_of_tokenize h
    exact ⟨front, rest, hs, hfront, hrest, recognised_of_readValue? hread⟩
  · intro field raw c q inner hfield hq hne hmem hraw
    have hvalue : IsValue raw.toList := hraw ▸ .quoted hq hne hmem
    exact tokenize_comparison c hfield hvalue
  · intro text f h
    exact exists_forall₂_becomes_of_parse h

/-- The theorem at a text in quotes that holds the other quote, parentheses, a connector and a
letter beyond ASCII, and at a bare value with a colon. -/
theorem values_recognised_other_quote_inside :
    ∃ ts first second,
      ts = [.key "note", .comparator .like, .value first, .space, .key "OR", .space, .key "at",
        .comparator .like, .value second, .endOfInput] ∧
      first = "'é \"(a) AND b\"'" ∧ second = "10:30" ∧
      tokenize (trim "note:'é \"(a) AND b\"' OR at:10:30".toList) = .ok ts ∧
      (∃ front rest, trim "note:'é \"(a) AND b\"' OR at:10:30".toList =
        front ++ (first.toList ++ rest) ∧ Recognised first.toList rest) ∧
      tokenize ("note".toList ++ Comparator.like.symbol.toList ++ first.toList) =
        .ok [.key "note", .comparator .like, .value first, .endOfInput] ∧
      parse "note:'é \"(a) AND b\"' OR at:10:30" = .ok (some (.node .or
        [.comparison "note" .like (.pattern "é \"(a) AND b\""),
          .comparison "at" .like (.pattern "10:30")])) ∧
      List.Forall₂ Becomes [first, second] [.pattern "é \"(a) AND b\"", .pattern "10:30"] := by
  have htokens : tokenize (trim "note:'é \"(a) AND b\"' OR at:10:30".toList) = .ok
      ([.key "note", .comparator .like] ++ .value "'é \"(a) AND b\"'" :: [.space, .key "OR",
        .space, .key "at", .comparator .like, .value "10:30", .endOfInput]) := by
    decide +kernel
  have hgap : IsGap [' '] := ⟨List.cons_ne_nil _ _, rfl⟩
  have hkey : ∀ name ∈ ["note", "at"], IsKey name.toList := by
    simp only [isKey_iff]
    decide
  have hraw : "'é \"(a) AND b\"'".toList = '\'' :: ("é \"(a) AND b\"".toList ++ ['\'']) := by
    decide +kernel
  have hmem : '\'' ∉ "é \"(a) AND b\"".toList := by decide +kernel
  have hfirst : IsValue "'é \"(a) AND b\"'".toList :=
    hraw ▸ .quoted (.inl rfl) (by decide +kernel) hmem
  have hsecond : IsValue "10:30".toList := .bare ((isBareValue_iff _).2 (by decide))
  have hor := Chain.Spells.more (c := .or)
    (.single (.comparison (c := .like) (hkey "note" (by decide)) hfirst)) hgap hgap
    (.comparison (c := .like) (hkey "at" (by decide)) hsecond)
  have hspells : Chain.Spells _ "note:'é \"(a) AND b\"' OR at:10:30".toList :=
    Eq.subst (by decide +kernel) hor
  have hquoted : Literal.infer "'é \"(a) AND b\"'" = .pattern "é \"(a) AND b\"" := by
    decide +kernel
  have hbare : Literal.infer "10:30" = .pattern "10:30" := by decide +kernel
  have hparse : parse "note:'é \"(a) AND b\"' OR at:10:30" = .ok (some (.node .or
      [.comparison "note" .like (.pattern "é \"(a) AND b\""),
        .comparison "at" .like (.pattern "10:30")])) := by
    rw [← hquoted, ← hbare]
    exact hspells.parse_eq (by decide) (by decide)
  obtain ⟨hplaces, hquotes, hreads⟩ := values_recognised
  obtain ⟨front, rest, hs, -, -, hrecognised⟩ := hplaces _ _ _ _ htokens
  obtain ⟨ts, hts, hbecomes⟩ := hreads _ _ hparse
  obtain rfl := Except.ok.inj (htokens.symm.trans hts)
  exact ⟨_, _, _, rfl, rfl, rfl, htokens, ⟨front, rest, hs, hrecognised⟩,
    hquotes "note" _ .like '\'' "é \"(a) AND b\"".toList (hkey "note" (by decide)) (.inl rfl)
      (by decide +kernel) hmem hraw,
    hparse, hbecomes⟩

end Criteria.Filter
