import Criteria.Proofs.Filter.Grammar

/-!
# Pieces of filter texts

A piece of a text is a parenthesis, a blank run, a key or a comparison. `PieceAt` says of a piece
that the text behind it does not lengthen it. Main statement: such pieces, and nothing else, are
taken off the head of a text (`readPiece?_eq_some_iff`).
-/

namespace Criteria.Filter

open Criteria.Text

/-- The texts of single pieces with their tokens. -/
inductive Piece : List Char → List Token → Prop where
  | openParen : Piece ['('] [.openParen]
  | closeParen : Piece [')'] [.closeParen]
  | space {s : List Char} : IsGap s → Piece s [.space]
  | key {name : String} : IsKey name.toList → Piece name.toList [.key name]
  | comparison {field raw : String} {c : Comparator} : IsKey field.toList → IsValue raw.toList →
      Piece (field.toList ++ c.symbol.toList ++ raw.toList) [.key field, .comparator c, .value raw]

/-- A piece that the text `rest` behind it does not lengthen: blanks go on to the last one, and so
do the characters of keys and of bare values; a key with a colon behind it is none by itself. -/
structure PieceAt (p : List Char) (ts : List Token) (rest : List Char) : Prop where
  piece : Piece p ts
  space_ends : ts = [.space] → ∀ c ∈ rest.head?, isBlank c = false
  key_ends : ∀ name, ts = [.key name] → ∀ c ∈ rest.head?, isKeyChar c = false ∧ c ≠ ':'
  value_ends : ∀ field c raw, ts = [.key field, .comparator c, .value raw] →
    IsBareValue raw.toList → ∀ d ∈ rest.head?, isValueChar d = false

/-- Whether a piece ends is seen from the character behind it. -/
theorem PieceAt.of_head? {p rest rest' : List Char} {ts : List Token} (h : PieceAt p ts rest)
    (hrest : ∀ c ∈ rest'.head?, c ∈ rest.head?) : PieceAt p ts rest' where
  piece := h.piece
  space_ends hts c hc := h.space_ends hts c (hrest c hc)
  key_ends name hts c hc := h.key_ends name hts c (hrest c hc)
  value_ends field c raw hts hraw d hd := h.value_ends field c raw hts hraw d (hrest d hd)

section

variable {rest : List Char}

theorem PieceAt.openParen : PieceAt ['('] [.openParen] rest where
  piece := .openParen
  space_ends := by simp
  key_ends := by simp
  value_ends := by simp

theorem PieceAt.closeParen : PieceAt [')'] [.closeParen] rest where
  piece := .closeParen
  space_ends := by simp
  key_ends := by simp
  value_ends := by simp

theorem PieceAt.space {s : List Char} (hs : IsGap s)
    (hrest : ∀ c ∈ rest.head?, isBlank c = false) : PieceAt s [.space] rest where
  piece := .space hs
  space_ends := fun _ => hrest
  key_ends := by simp
  value_ends := by simp

theorem PieceAt.key {name : String} (hname : IsKey name.toList)
    (hrest : ∀ c ∈ rest.head?, isKeyChar c = false ∧ c ≠ ':') :
    PieceAt name.toList [.key name] rest where
  piece := .key hname
  space_ends := by simp
  key_ends := fun _ _ => hrest
  value_ends := by simp

theorem PieceAt.comparison {field raw : String} (c : Comparator) (hfield : IsKey field.toList)
    (hraw : IsValue raw.toList)
    (hrest : IsBareValue raw.toList → ∀ d ∈ rest.head?, isValueChar d = false) :
    PieceAt (field.toList ++ c.symbol.toList ++ raw.toList)
      [.key field, .comparator c, .value raw] rest where
  piece := .comparison hfield hraw
  space_ends := by simp
  key_ends := by simp
  value_ends := by
    rintro _ _ _ ⟨⟩
    exact hrest

end

/-! ## Values -/

theorem readQuoted?_eq_some_iff {q : Char} {s raw rest : List Char} :
    readQuoted? q s = some (raw, rest) ↔
      ∃ inner, inner ≠ [] ∧ q ∉ inner ∧ raw = q :: (inner ++ [q]) ∧ s = raw ++ rest := by
  constructor
  · intro h
    unfold readQuoted? at h
    split at h
    · exact nomatch h
    · next c s =>
      split at h
      · next hc =>
        split at h
        · next inner d rest' hrun =>
          obtain ⟨rfl, rfl⟩ := Prod.mk.inj (Option.some.inj h)
          obtain ⟨hne, hall, rfl, hd⟩ := readRun?_eq_some_iff_append.1 hrun
          -- the run stops at a character of the other class, which is the closing quote
          obtain rfl : d = q := by simpa using hd d rfl
          exact ⟨inner, hne, not_mem_of_class hall (by simp), rfl, by simp [hc]⟩
        · exact nomatch h
      · exact nomatch h
  · rintro ⟨inner, hne, hq, rfl, rfl⟩
    have hall : inner.all (· != q) = true :=
      List.all_eq_true.2 fun c hc => by simpa using fun h : c = q => hq (h ▸ hc)
    have hrun : readRun? (· != q) (inner ++ q :: rest) = some (inner, q :: rest) :=
      readRun?_append hne hall (by simp)
    simp [readQuoted?, hrun]

theorem readQuoted?_eq_none {q c : Char} (h : c ≠ q) (s : List Char) :
    readQuoted? q (c :: s) = none := by
  rw [readQuoted?, if_neg h]

/-- What is read as a value is one, and a bare one goes on to its last character. -/
theorem readValue?_eq_some_iff {s raw rest : List Char} :
    readValue? s = some (raw, rest) ↔
      IsValue raw ∧ s = raw ++ rest ∧
        (IsBareValue raw → ∀ c ∈ rest.head?, isValueChar c = false) := by
  constructor
  · have hquoted : ∀ {q : Char}, q = '\'' ∨ q = '"' → readQuoted? q s = some (raw, rest) →
        IsValue raw ∧ s = raw ++ rest ∧
          (IsBareValue raw → ∀ c ∈ rest.head?, isValueChar c = false) := by
      intro q hq h
      obtain ⟨inner, hne, hmem, rfl, hs⟩ := readQuoted?_eq_some_iff.1 h
      exact ⟨.quoted hq hne hmem, hs, fun hbare => absurd hq hbare.head_ne_quote⟩
    intro h
    unfold readValue? at h
    rcases Option.or_eq_some_iff.1 h with h | ⟨-, h⟩
    · exact hquoted (.inl rfl) h
    · rcases Option.or_eq_some_iff.1 h with h | ⟨-, h⟩
      · exact hquoted (.inr rfl) h
      · obtain ⟨hne, hall, hs, hrest⟩ := readRun?_eq_some_iff_append.1 h
        exact ⟨.bare ((isBareValue_iff raw).2 ⟨hne, hall⟩), hs, fun _ => hrest⟩
  · rintro ⟨hvalue, rfl, hrest⟩
    unfold readValue?
    cases hvalue with
    | bare hbare =>
      obtain ⟨hne, hall⟩ := (isBareValue_iff raw).1 hbare
      have hrun : readBareValue? (raw ++ rest) = some (raw, rest) :=
        readRun?_append hne hall (hrest hbare)
      obtain ⟨c, raw, rfl⟩ := List.exists_cons_of_ne_nil hne
      have hsingle : c ≠ '\'' := fun hc => hbare.head_ne_quote (.inl hc)
      have hdouble : c ≠ '"' := fun hc => hbare.head_ne_quote (.inr hc)
      rw [hrun, List.cons_append, readQuoted?_eq_none hsingle, readQuoted?_eq_none hdouble]
      rfl
    | @quoted q inner hq hne hmem =>
      have hread : readQuoted? q (q :: (inner ++ [q]) ++ rest) = _ :=
        readQuoted?_eq_some_iff.2 ⟨inner, hne, hmem, rfl, rfl⟩
      rcases hq with rfl | rfl
      · rw [hread]
        rfl
      · rw [hread, List.cons_append, readQuoted?_eq_none (by decide)]
        rfl

/-! ## Comparisons -/

/-- No value begins with the rest of a longer symbol. -/
theorem IsValue.head_not_symbol {s : List Char} (h : IsValue s) :
    ∃ d t, s = d :: t ∧ d ≠ '=' ∧ d ≠ '!' ∧ d ≠ '>' ∧ d ≠ '<' := by
  cases h with
  | bare hbare =>
    obtain ⟨hne, hall⟩ := (isBareValue_iff s).1 hbare
    obtain ⟨d, t, rfl⟩ := List.exists_cons_of_ne_nil hne
    have hd : isValueChar d = true := List.all_eq_true.1 hall d List.mem_cons_self
    exact ⟨d, t, rfl, ne_of_class hd rfl, ne_of_class hd rfl, ne_of_class hd rfl,
      ne_of_class hd rfl⟩
  | @quoted q inner hq _ _ =>
    refine ⟨q, inner ++ [q], rfl, ?_⟩
    rcases hq with rfl | rfl <;> decide

/-- A symbol is read in full where a value follows. -/
theorem read?_symbol_append (c : Comparator) {raw : List Char} (h : IsValue raw)
    (rest : List Char) :
    Comparator.read? (c.symbol.toList ++ (raw ++ rest)) = some (c, raw ++ rest) := by
  obtain ⟨d, t, rfl, heq, hbang, hgt, hlt⟩ := h.head_not_symbol
  cases c <;> simp [Comparator.symbol, Comparator.read?, heq, hbang, hgt, hlt]

theorem exists_symbol_eq_cons (c : Comparator) : ∃ s, c.symbol.toList = ':' :: s := by
  cases c <;> exact ⟨_, rfl⟩

theorem readOperand?_eq_some_iff {s rest : List Char} {ts : List Token} :
    readOperand? s = some (ts, rest) ↔
      ∃ c raw, ts = [.comparator c, .value raw] ∧ IsValue raw.toList ∧
        s = c.symbol.toList ++ (raw.toList ++ rest) ∧
        (IsBareValue raw.toList → ∀ d ∈ rest.head?, isValueChar d = false) := by
  unfold readOperand?
  constructor
  · intro h
    split at h
    · exact nomatch h
    · next c s' hc =>
      split at h
      · exact nomatch h
      · next raw rest' hv =>
        obtain ⟨rfl, rfl⟩ := Prod.mk.inj (Option.some.inj h)
        obtain ⟨hvalue, rfl, hrest⟩ := readValue?_eq_some_iff.1 hv
        refine ⟨c, String.ofList raw, rfl, ?_⟩
        rw [String.toList_ofList]
        exact ⟨hvalue, Comparator.append_of_read? hc, hrest⟩
  · rintro ⟨c, raw, rfl, hvalue, rfl, hrest⟩
    have hread := readValue?_eq_some_iff.2 ⟨hvalue, rfl, hrest⟩
    simp [read?_symbol_append c hvalue, hread]

/-- What is read as a term is a key or a comparison. -/
theorem readTerm?_eq_some_iff {s rest : List Char} {ts : List Token} :
    readTerm? s = some (ts, rest) ↔
      (∃ name : String, ts = [.key name] ∧ IsKey name.toList ∧ s = name.toList ++ rest ∧
        ∀ c ∈ rest.head?, isKeyChar c = false ∧ c ≠ ':') ∨
      ∃ (field : String) (c : Comparator) (raw : String),
        ts = [.key field, .comparator c, .value raw] ∧ IsKey field.toList ∧
        IsValue raw.toList ∧ s = field.toList ++ (c.symbol.toList ++ (raw.toList ++ rest)) ∧
        (IsBareValue raw.toList → ∀ d ∈ rest.head?, isValueChar d = false) := by
  constructor
  · intro h
    unfold readTerm? at h
    split at h
    · exact nomatch h
    · next key rest' hk =>
      obtain ⟨hkey, rfl⟩ := isKey_of_readKey? hk
      split at h
      · exact nomatch h
      · next operand rest'' ho =>
        obtain ⟨rfl, rfl⟩ := Prod.mk.inj (Option.some.inj h)
        obtain ⟨c, raw, rfl, hvalue, hs, hrest⟩ := readOperand?_eq_some_iff.1 ho
        refine .inr ⟨String.ofList key, c, raw, rfl, ?_⟩
        rw [String.toList_ofList, hs]
        exact ⟨hkey, hvalue, rfl, hrest⟩
    · next key rest' hcolon hk =>
      obtain ⟨rfl, rfl⟩ := Prod.mk.inj (Option.some.inj h)
      obtain ⟨hne, hall, rfl, hrest⟩ := readRun?_eq_some_iff_append.1 hk
      refine .inl ⟨String.ofList key, rfl, ?_⟩
      rw [String.toList_ofList]
      refine ⟨(isKey_iff key).2 ⟨hne, hall⟩, rfl, fun c hc => ⟨hrest c hc, ?_⟩⟩
      rintro rfl
      obtain ⟨t, rfl⟩ := List.head?_eq_some_iff.1 hc
      exact hcolon t rfl
  · rintro (⟨name, rfl, hkey, rfl, hrest⟩ | ⟨field, c, raw, rfl, hkey, hvalue, rfl, hrest⟩)
    · rw [readTerm?, readKey?_append hkey fun c hc => (hrest c hc).1]
      split
      · next heq => exact nomatch heq
      · next rest' heq =>
        obtain ⟨-, rfl⟩ := Prod.mk.inj (Option.some.inj heq)
        exact absurd rfl (hrest ':' rfl).2
      · next heq =>
        obtain ⟨rfl, rfl⟩ := Prod.mk.inj (Option.some.inj heq)
        rw [String.ofList_toList]
    · -- the colon is no key character, so the key ends before it
      have hoperand := readOperand?_eq_some_iff.2 ⟨c, raw, rfl, hvalue, rfl, hrest⟩
      obtain ⟨s, hs⟩ := exists_symbol_eq_cons c
      rw [hs, List.cons_append] at hoperand ⊢
      rw [readTerm?, readKey?_append hkey fun d hd => by cases hd; decide]
      simp [hoperand]

/-! ## Pieces at the head of a text -/

theorem readPiece?_eq_readTerm? {s : List Char} (h : ∀ c ∈ s.head?, isKeyChar c = true) :
    readPiece? s = readTerm? s := by
  cases s with
  | nil => rfl
  | cons c s =>
    have hc := h c rfl
    have hopen : c ≠ '(' := ne_of_class hc rfl
    have hclose : c ≠ ')' := ne_of_class hc rfl
    rw [readPiece?, if_neg hopen, if_neg hclose, isBlank_eq_false_of_isKeyChar hc,
      if_neg Bool.false_ne_true]

/-- Exactly the pieces that the text behind them does not lengthen are taken off its head. -/
theorem readPiece?_eq_some_iff {s rest : List Char} {ts : List Token} :
    readPiece? s = some (ts, rest) ↔ ∃ p, PieceAt p ts rest ∧ s = p ++ rest := by
  constructor
  · intro h
    unfold readPiece? at h
    split at h
    · exact nomatch h
    · next c s =>
      split at h
      · next hc =>
        obtain ⟨rfl, rfl⟩ := Prod.mk.inj (Option.some.inj h)
        exact ⟨['('], .openParen, by rw [hc]; rfl⟩
      · split at h
        · next hc =>
          obtain ⟨rfl, rfl⟩ := Prod.mk.inj (Option.some.inj h)
          exact ⟨[')'], .closeParen, by rw [hc]; rfl⟩
        · split at h
          · next hblank =>
            obtain ⟨rfl, rfl⟩ := Prod.mk.inj (Option.some.inj h)
            have hgap : IsGap (c :: s.takeWhile isBlank) := by
              refine ⟨List.cons_ne_nil _ _, ?_⟩
              rw [blank, List.all_cons, hblank, List.all_takeWhile]
              rfl
            refine ⟨_, .space hgap fun d hd => ?_, ?_⟩
            · have hstop := List.head?_dropWhile_not isBlank s
              rw [Option.mem_def.1 hd] at hstop
              simpa using hstop
            · rw [List.cons_append, List.takeWhile_append_dropWhile]
          · rcases readTerm?_eq_some_iff.1 h with
              ⟨name, rfl, hkey, hs, hrest⟩ | ⟨field, c, raw, rfl, hkey, hvalue, hs, hrest⟩
            · exact ⟨_, .key hkey hrest, hs⟩
            · exact ⟨_, .comparison c hkey hvalue hrest, by simpa using hs⟩
  · rintro ⟨p, ⟨hpiece, hspace, hkey_ends, hvalue_ends⟩, rfl⟩
    cases hpiece with
    | openParen => rw [List.singleton_append, readPiece?, if_pos rfl]
    | closeParen => rw [List.singleton_append, readPiece?, if_neg (by decide), if_pos rfl]
    | space hgap =>
      obtain ⟨hne, hall⟩ := hgap
      obtain ⟨c, gap, rfl⟩ := List.exists_cons_of_ne_nil hne
      rw [blank, List.all_cons, Bool.and_eq_true] at hall
      have hopen : c ≠ '(' := ne_of_class hall.1 rfl
      have hclose : c ≠ ')' := ne_of_class hall.1 rfl
      rw [List.cons_append, readPiece?, if_neg hopen, if_neg hclose, if_pos hall.1,
        List.dropWhile_append_of_pos (List.all_eq_true.1 hall.2),
        dropWhile_isBlank_eq_self (hspace rfl)]
    | @key name hkey =>
      rw [readPiece?_eq_readTerm? (hkey.head rest)]
      exact readTerm?_eq_some_iff.2 (.inl ⟨name, rfl, hkey, rfl, hkey_ends name rfl⟩)
    | @comparison field raw c hkey hvalue =>
      rw [List.append_assoc, List.append_assoc, readPiece?_eq_readTerm? (hkey.head _)]
      exact readTerm?_eq_some_iff.2
        (.inr ⟨field, c, raw, rfl, hkey, hvalue, rfl, hvalue_ends field c raw rfl⟩)

end Criteria.Filter
