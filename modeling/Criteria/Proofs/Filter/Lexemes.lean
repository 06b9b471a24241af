import Criteria.Proofs.Filter.Acceptance
import Mathlib.Data.List.Chain
import Mathlib.Data.List.Forall2

/-!
# Lexemes

Cutting a text into tokens loses nothing of it (`MadeUpOf`) and puts the tokens into a fixed order
(`MayPrecede`, `InOrder`). It stops only where nothing can be read (`readPiece?_eq_none_iff`), and
what stands before that place is cut by itself. Main statement (`tokenize_outcome`): what cutting a
text comes to.
-/

namespace Criteria.Filter

open Criteria.Text

/-! ## Nothing is lost -/

/-- The texts that a token may stand for: any blank run, the empty text at the end, and its own
text for all other tokens. -/
inductive Surface : Token → List Char → Prop where
  | key {name : String} : IsKey name.toList → Surface (.key name) name.toList
  | comparator (c : Comparator) : Surface (.comparator c) c.symbol.toList
  | value {raw : String} : IsValue raw.toList → Surface (.value raw) raw.toList
  | openParen : Surface .openParen ['(']
  | closeParen : Surface .closeParen [')']
  | space {gap : List Char} : IsGap gap → Surface .space gap
  | endOfInput : Surface .endOfInput []

/-- The tokens stand for texts that make up the text `s`. -/
def MadeUpOf (ts : List Token) (s : List Char) : Prop :=
  ∃ texts, List.Forall₂ Surface ts texts ∧ texts.flatten = s

theorem MadeUpOf.append {ts us : List Token} {s t : List Char} (hts : MadeUpOf ts s)
    (hus : MadeUpOf us t) : MadeUpOf (ts ++ us) (s ++ t) := by
  obtain ⟨texts, htexts, rfl⟩ := hts
  obtain ⟨texts', htexts', rfl⟩ := hus
  exact ⟨texts ++ texts', List.rel_append htexts htexts', List.flatten_append⟩

theorem madeUpOf_endOfInput : MadeUpOf [.endOfInput] [] :=
  ⟨[[]], .cons .endOfInput .nil, rfl⟩

theorem Piece.madeUpOf {p : List Char} {ts : List Token} (h : Piece p ts) : MadeUpOf ts p := by
  cases h with
  | openParen => exact ⟨[['(']], .cons .openParen .nil, rfl⟩
  | closeParen => exact ⟨[[')']], .cons .closeParen .nil, rfl⟩
  | space hgap => exact ⟨[p], .cons (.space hgap) .nil, List.append_nil p⟩
  | @key name hkey => exact ⟨[name.toList], .cons (.key hkey) .nil, List.append_nil _⟩
  | @comparison field raw c hkey hvalue =>
    exact ⟨[field.toList, c.symbol.toList, raw.toList],
      .cons (.key hkey) (.cons (.comparator c) (.cons (.value hvalue) .nil)), by simp⟩

theorem Cut.madeUpOf {s : List Char} {us : List Token} (h : Cut s us) : MadeUpOf us s := by
  induction h with
  | nil => exact ⟨[], .nil, rfl⟩
  | piece hp _ ih =>
    obtain ⟨p, hpiece, rfl⟩ := readPiece?_eq_some_iff.1 hp
    exact hpiece.piece.madeUpOf.append ih

/-- A token before the end mark takes at least one character. -/
theorem Surface.length_pos {t : Token} {p : List Char} (h : Surface t p) (ht : t ≠ .endOfInput) :
    0 < p.length := by
  rw [List.length_pos_iff]
  cases h with
  | key hkey => exact hkey.1
  | comparator c => cases c <;> decide
  | value hvalue => exact hvalue.ne_nil
  | openParen => exact List.cons_ne_nil _ _
  | closeParen => exact List.cons_ne_nil _ _
  | space hgap => exact hgap.1
  | endOfInput => exact absurd rfl ht

/-- So cutting comes to an end: a text has no more tokens than characters, the end mark apart. -/
theorem MadeUpOf.length_le {us : List Token} {s : List Char} (h : MadeUpOf us s)
    (hus : Token.endOfInput ∉ us) : us.length ≤ s.length := by
  obtain ⟨texts, htexts, rfl⟩ := h
  induction htexts with
  | nil => exact Nat.le_refl 0
  | @cons t p us texts hp _ ih =>
    rw [List.mem_cons, not_or] at hus
    have hpos := hp.length_pos (Ne.symm hus.1)
    have hle := ih hus.2
    rw [List.flatten_cons, List.length_append, List.length_cons]
    omega

/-! ## The order of tokens -/

/-- Which token may stand directly before which. -/
structure MayPrecede (a b : Token) : Prop where
  space : a = .space → b ≠ .space
  key : ∀ m n, a = .key m → b ≠ .key n
  before_comparator : ∀ c, b = .comparator c → ∃ name, a = .key name
  behind_comparator : ∀ c, a = .comparator c → ∃ raw, b = .value raw
  before_value : ∀ raw, b = .value raw → ∃ c, a = .comparator c

/-- Neither a comparator nor a value, which need another token before them. -/
def IsInitial (t : Token) : Prop := (∀ c, t ≠ .comparator c) ∧ ∀ raw, t ≠ .value raw

/-- Two blank runs never meet, nor do two keys; a comparator stands between a key and a value, and
a value behind a comparator. -/
structure InOrder (ts : List Token) : Prop where
  spaces : ∀ before after, ts ≠ before ++ .space :: .space :: after
  keys : ∀ before m n after, ts ≠ before ++ .key m :: .key n :: after
  comparators : ∀ before c after, ts = before ++ .comparator c :: after →
    (∃ init name, before = init ++ [.key name]) ∧ ∃ raw rest, after = .value raw :: rest
  values : ∀ before raw after, ts = before ++ .value raw :: after →
    ∃ init c, before = init ++ [.comparator c]

theorem IsInitial.mayPrecede {a b : Token} (hb : IsInitial b) (ha : ∀ c, a ≠ .comparator c)
    (hspace : a = .space → b ≠ .space) (hkey : ∀ m n, a = .key m → b ≠ .key n) :
    MayPrecede a b where
  space := hspace
  key := hkey
  before_comparator c hc := absurd hc (hb.1 c)
  behind_comparator c hc := absurd hc (ha c)
  before_value raw hraw := absurd hraw (hb.2 raw)

theorem Piece.isChain {p : List Char} {ts : List Token} (h : Piece p ts) :
    ts.IsChain MayPrecede := by
  cases h with
  | @comparison field raw c _ _ =>
    refine .cons_cons ⟨nofun, fun _ _ _ => nofun, fun _ _ => ⟨field, rfl⟩, nofun, nofun⟩ ?_
    exact .cons_cons ⟨nofun, nofun, nofun, fun _ _ => ⟨raw, rfl⟩, fun _ _ => ⟨c, rfl⟩⟩
      (.singleton _)
  | _ => exact .singleton _

/-- The first token of a text begins a piece, and the text begins accordingly. -/
theorem Cut.head {s : List Char} {us : List Token} (h : Cut s us) :
    ∀ t ∈ (us ++ [Token.endOfInput]).head?, IsInitial t ∧
      (t = .space → ∃ c ∈ s.head?, isBlank c = true) ∧
      ∀ name, t = .key name → ∃ c ∈ s.head?, isKeyChar c = true := by
  intro t ht
  cases us with
  | nil =>
    obtain rfl := Option.some.inj ht
    exact ⟨⟨nofun, nofun⟩, nofun, nofun⟩
  | cons u us =>
    obtain rfl : u = t := Option.some.inj ht
    obtain ⟨p, rest, vs, ws, hpiece, rfl, hvs, -⟩ := h.exists_piece
    have hkeyHead : ∀ {key : List Char} (rest : List Char), IsKey key →
        ∃ c ∈ (key ++ rest).head?, isKeyChar c = true := by
      intro key rest hkey
      obtain ⟨c, key, rfl⟩ := List.exists_cons_of_ne_nil hkey.1
      exact ⟨c, rfl, hkey.head rest c rfl⟩
    cases hpiece with
    | openParen => cases hvs; exact ⟨⟨nofun, nofun⟩, nofun, nofun⟩
    | closeParen => cases hvs; exact ⟨⟨nofun, nofun⟩, nofun, nofun⟩
    | space hgap =>
      cases hvs
      obtain ⟨c, gap, rfl⟩ := List.exists_cons_of_ne_nil hgap.1
      exact ⟨⟨nofun, nofun⟩, fun _ => ⟨c, rfl, List.all_eq_true.1 hgap.2 c List.mem_cons_self⟩,
        nofun⟩
    | key hkey =>
      cases hvs
      exact ⟨⟨nofun, nofun⟩, nofun, fun _ _ => hkeyHead rest hkey⟩
    | comparison hkey _ =>
      cases hvs
      rw [List.append_assoc, List.append_assoc]
      exact ⟨⟨nofun, nofun⟩, nofun, fun _ _ => hkeyHead _ hkey⟩

/-- A piece ends before the text behind it, so the next token does not go on with it. -/
theorem PieceAt.mayPrecede {p rest : List Char} {ts us : List Token} (h : PieceAt p ts rest)
    (hcut : Cut rest us) {a b : Token} (ha : a ∈ ts.getLast?)
    (hb : b ∈ (us ++ [Token.endOfInput]).head?) : MayPrecede a b := by
  obtain ⟨hinitial, hspace, hkey⟩ := hcut.head b hb
  obtain ⟨hpiece, hspaceEnds, hkeyEnds, -⟩ := h
  cases hpiece with
  | openParen => cases ha; exact hinitial.mayPrecede nofun nofun nofun
  | closeParen => cases ha; exact hinitial.mayPrecede nofun nofun nofun
  | space _ =>
    cases ha
    refine hinitial.mayPrecede nofun (fun _ hb => ?_) nofun
    obtain ⟨c, hc, hblank⟩ := hspace hb
    exact absurd hblank (Bool.eq_false_iff.1 (hspaceEnds rfl c hc))
  | @key name _ =>
    cases ha
    refine hinitial.mayPrecede nofun nofun fun m n _ hb => ?_
    obtain ⟨c, hc, hchar⟩ := hkey n hb
    exact absurd hchar (Bool.eq_false_iff.1 (hkeyEnds name rfl c hc).1)
  | comparison _ _ => cases ha; exact hinitial.mayPrecede nofun nofun nofun

/-- The tokens of a text stand in their order. -/
theorem Cut.isChain {s : List Char} {us : List Token} (h : Cut s us) :
    (us ++ [Token.endOfInput]).IsChain MayPrecede := by
  induction h with
  | nil => exact .singleton _
  | piece hp hcut ih =>
    obtain ⟨p, hpiece, -⟩ := readPiece?_eq_some_iff.1 hp
    rw [List.append_assoc, List.isChain_append]
    exact ⟨hpiece.piece.isChain, ih, fun a ha b hb => hpiece.mayPrecede hcut ha hb⟩

/-- The order of all neighbours, from that of each two. -/
theorem inOrder_of_isChain {us : List Token} (h : (us ++ [Token.endOfInput]).IsChain MayPrecede)
    (hhead : ∀ t ∈ (us ++ [Token.endOfInput]).head?, IsInitial t) :
    InOrder (us ++ [Token.endOfInput]) where
  spaces before after hts := by
    rw [hts, List.isChain_append_cons_cons] at h
    exact h.2.1.space rfl rfl
  keys before m n after hts := by
    rw [hts, List.isChain_append_cons_cons] at h
    exact h.2.1.key m n rfl rfl
  comparators before c after hts := by
    constructor
    · rcases List.eq_nil_or_concat before with rfl | ⟨init, a, rfl⟩
      · rw [hts] at hhead
        exact absurd rfl ((hhead _ rfl).1 c)
      · rw [hts, List.concat_eq_append, List.append_assoc, List.singleton_append,
          List.isChain_append_cons_cons] at h
        obtain ⟨name, rfl⟩ := h.2.1.before_comparator c rfl
        exact ⟨init, name, List.concat_eq_append⟩
    · cases after with
      | nil =>
        -- the end mark is the last token, and it is no comparator
        have hlast := congrArg List.getLast? hts
        rw [List.getLast?_concat, List.getLast?_concat] at hlast
        exact nomatch hlast
      | cons b rest =>
        rw [hts, List.isChain_append_cons_cons] at h
        obtain ⟨raw, rfl⟩ := h.2.1.behind_comparator c rfl
        exact ⟨raw, rest, rfl⟩
  values before raw after hts := by
    rcases List.eq_nil_or_concat before with rfl | ⟨init, a, rfl⟩
    · rw [hts] at hhead
      exact absurd rfl ((hhead _ rfl).2 raw)
    · rw [hts, List.concat_eq_append, List.append_assoc, List.singleton_append,
        List.isChain_append_cons_cons] at h
      obtain ⟨c, rfl⟩ := h.2.1.before_value raw rfl
      exact ⟨init, c, List.concat_eq_append⟩

theorem Cut.inOrder {s : List Char} {us : List Token} (h : Cut s us) :
    InOrder (us ++ [Token.endOfInput]) :=
  inOrder_of_isChain h.isChain fun t ht => (h.head t ht).1

/-! ## Where cutting stops -/

/-- A parenthesis, a blank, a key without a colon behind it or a whole comparison stands at the
head of the text. -/
inductive Begins : List Char → Prop where
  | openParen (rest : List Char) : Begins ('(' :: rest)
  | closeParen (rest : List Char) : Begins (')' :: rest)
  | blank {c : Char} (rest : List Char) : isBlank c = true → Begins (c :: rest)
  | key {key rest : List Char} : IsKey key →
      (∀ c ∈ rest.head?, isKeyChar c = false ∧ c ≠ ':') → Begins (key ++ rest)
  | comparison {key raw : List Char} (c : Comparator) (rest : List Char) : IsKey key →
      IsValue raw → Begins (key ++ (c.symbol.toList ++ (raw ++ rest)))

/-- A text that begins with a character of a class begins with a longest run of it. -/
theorem exists_run {p : Char → Bool} {c : Char} (hc : p c = true) (s : List Char) :
    ∃ run rest, c :: s = run ++ rest ∧ run ≠ [] ∧ run.all p = true ∧
      ∀ d ∈ rest.head?, p d = false := by
  have hrun : readRun? p (c :: s) = some (c :: s.takeWhile p, s.dropWhile p) := by
    simp [readRun?, hc]
  obtain ⟨hne, hall, hsplit, hrest⟩ := readRun?_eq_some_iff_append.1 hrun
  exact ⟨_, _, hsplit, hne, hall, hrest⟩

/-- A value at the head of a text can be continued to one that ends there. -/
theorem IsValue.exists_longest {raw : List Char} (h : IsValue raw) (rest : List Char) :
    ∃ raw' rest', raw ++ rest = raw' ++ rest' ∧ IsValue raw' ∧
      (IsBareValue raw' → ∀ d ∈ rest'.head?, isValueChar d = false) := by
  cases h with
  | bare hbare =>
    obtain ⟨hne, hall⟩ := (isBareValue_iff raw).1 hbare
    obtain ⟨c, raw, rfl⟩ := List.exists_cons_of_ne_nil hne
    obtain ⟨run, rest', hsplit, hrun, hrunAll, hrest'⟩ :=
      exists_run (List.all_eq_true.1 hall c List.mem_cons_self) (raw ++ rest)
    exact ⟨run, rest', hsplit, .bare ((isBareValue_iff run).2 ⟨hrun, hrunAll⟩), fun _ => hrest'⟩
  | @quoted q inner hq hne hmem =>
    exact ⟨_, rest, rfl, .quoted hq hne hmem, fun hbare => absurd hq hbare.head_ne_quote⟩

theorem exists_toList_eq (s : List Char) : ∃ t : String, t.toList = s :=
  ⟨String.ofList s, String.toList_ofList⟩

theorem Begins.exists_pieceAt {s : List Char} (h : Begins s) :
    ∃ p ts rest, PieceAt p ts rest ∧ s = p ++ rest := by
  cases h with
  | openParen rest => exact ⟨['('], [.openParen], rest, .openParen, rfl⟩
  | closeParen rest => exact ⟨[')'], [.closeParen], rest, .closeParen, rfl⟩
  | @blank c rest hc =>
    obtain ⟨gap, rest', hsplit, hne, hall, hrest'⟩ := exists_run hc rest
    exact ⟨gap, [.space], rest', .space ⟨hne, hall⟩ hrest', hsplit⟩
  | @key key rest hkey hrest =>
    obtain ⟨name, rfl⟩ := exists_toList_eq key
    exact ⟨_, _, rest, .key hkey hrest, rfl⟩
  | @comparison key raw c rest hkey hvalue =>
    obtain ⟨raw', rest', hsplit, hvalue', hrest'⟩ := hvalue.exists_longest rest
    obtain ⟨field, rfl⟩ := exists_toList_eq key
    obtain ⟨value, rfl⟩ := exists_toList_eq raw'
    refine ⟨_, _, rest', .comparison c hkey hvalue' hrest', ?_⟩
    rw [hsplit, List.append_assoc, List.append_assoc]

theorem PieceAt.begins {p rest : List Char} {ts : List Token} (h : PieceAt p ts rest) :
    Begins (p ++ rest) := by
  obtain ⟨hpiece, -, hkeyEnds, -⟩ := h
  cases hpiece with
  | openParen => exact .openParen rest
  | closeParen => exact .closeParen rest
  | space hgap =>
    obtain ⟨c, gap, rfl⟩ := List.exists_cons_of_ne_nil hgap.1
    exact .blank _ (List.all_eq_true.1 hgap.2 c List.mem_cons_self)
  | @key name hkey => exact .key hkey (hkeyEnds name rfl)
  | @comparison field raw c hkey hvalue =>
    rw [List.append_assoc, List.append_assoc]
    exact .comparison c rest hkey hvalue

/-- Nothing is read exactly where no piece begins. -/
theorem readPiece?_eq_none_iff {s : List Char} : readPiece? s = none ↔ ¬ Begins s := by
  constructor
  · intro hnone hbegins
    obtain ⟨p, ts, rest, hpiece⟩ := hbegins.exists_pieceAt
    exact nomatch hnone.symm.trans (readPiece?_eq_some_iff.2 ⟨p, hpiece⟩)
  · intro hbegins
    refine Option.eq_none_iff_forall_ne_some.2 ?_
    rintro ⟨ts, rest⟩ hsome
    obtain ⟨p, hpiece, rfl⟩ := readPiece?_eq_some_iff.1 hsome
    exact hbegins hpiece.begins

/-- The rest that is given back begins with no piece, and the text before it is cut by itself. -/
theorem exists_cut_of_tokenizeFrom_eq_error {done : List Token} {s rest : List Char}
    (h : tokenizeFrom done s = .error rest) :
    rest ≠ [] ∧ ¬ Begins rest ∧ ∃ before us, s = before ++ rest ∧ Cut before us := by
  -- on the pieces, as they are cut off
  fun_induction tokenizeFrom done s with
  | case1 => cases h
  | case2 done s hs hp =>
    obtain rfl := Except.error.inj h
    exact ⟨hs, readPiece?_eq_none_iff.1 hp, [], [], rfl, .nil⟩
  | case3 done s hs ts mid hp ih =>
    obtain ⟨hne, hbegins, before, us, rfl, hcut⟩ := ih h
    obtain ⟨p, hpiece, rfl⟩ := readPiece?_eq_some_iff.1 hp
    -- without the rest behind it the piece ends in the same place, or at the end of the text
    have hpiece' : PieceAt p ts before := by
      refine hpiece.of_head? fun c hc => ?_
      obtain ⟨before', rfl⟩ := List.head?_eq_some_iff.1 hc
      exact hc
    exact ⟨hne, hbegins, p ++ before, ts ++ us, (List.append_assoc _ _ _).symm,
      .piece (readPiece?_eq_some_iff.2 ⟨p, hpiece', rfl⟩) hcut⟩

/-- **Cutting is lossless.** A text is cut into tokens that make it up, the only end mark behind
them, and that stand in their order; or cutting stops at a rest of the text that begins with no
piece, and the text before this rest is cut by itself. -/
theorem tokenize_outcome (s : List Char) :
    (∃ us, tokenize s = .ok (us ++ [Token.endOfInput]) ∧ Token.endOfInput ∉ us ∧
      us.length ≤ s.length ∧ MadeUpOf (us ++ [Token.endOfInput]) s ∧
      InOrder (us ++ [Token.endOfInput])) ∨
    ∃ before rest, tokenize s = .error rest ∧ s = before ++ rest ∧ rest ≠ [] ∧ ¬ Begins rest ∧
      ∃ ts, tokenize before = .ok ts := by
  cases h : tokenize s with
  | ok ts =>
    obtain ⟨us, hcut, rfl⟩ := tokenize_eq_ok_iff.1 h
    have hmade := hcut.madeUpOf.append madeUpOf_endOfInput
    rw [List.append_nil] at hmade
    exact .inl ⟨us, rfl, hcut.endOfInput_not_mem,
      hcut.madeUpOf.length_le hcut.endOfInput_not_mem, hmade, hcut.inOrder⟩
  | error rest =>
    obtain ⟨hne, hbegins, before, us, hs, hcut⟩ := exists_cut_of_tokenizeFrom_eq_error h
    exact .inr ⟨before, rest, rfl, hs, hne, hbegins, _, tokenize_eq_ok_iff.2 ⟨us, hcut, rfl⟩⟩

end Criteria.Filter
