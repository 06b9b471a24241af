import Criteria.Text
import Mathlib.Data.List.Forall2

/-!
# Texts cut at separators

What a text comes to that is parted at the first separator or cut at each, and the case of words,
which are the pieces between blanks that hold something. Words with one blank between them are cut
apart again (`wordsOf_intercalate`). Reading all words gives the value of each
(`mapM_eq_ok_iff_forall₂`) or fails as the first that is not read does (`mapM_eq_error_iff`).
-/

namespace Criteria.Text

/-! ## The first separator -/

section First

variable {α : Type} [DecidableEq α] {d : α}

theorem decide_ne_of_not_mem {xs : List α} (h : d ∉ xs) : ∀ x ∈ xs, decide (x ≠ d) = true := by
  intro x hx
  refine decide_eq_true fun heq => ?_
  subst heq
  exact h hx

theorem takeWhile_ne_eq_self {xs : List α} (h : d ∉ xs) : xs.takeWhile (· ≠ d) = xs := by
  have htake := @List.takeWhile_append_of_pos _ _ _ [] (decide_ne_of_not_mem h)
  rwa [List.append_nil, List.takeWhile_nil, List.append_nil] at htake

theorem takeWhile_ne_append_cons {xs : List α} (h : d ∉ xs) (rest : List α) :
    (xs ++ d :: rest).takeWhile (· ≠ d) = xs := by
  rw [List.takeWhile_append_of_pos (decide_ne_of_not_mem h), List.takeWhile_cons_of_neg (by simp),
    List.append_nil]

theorem dropWhile_ne_append_cons {xs : List α} (h : d ∉ xs) (rest : List α) :
    (xs ++ d :: rest).dropWhile (· ≠ d) = d :: rest := by
  rw [List.dropWhile_append_of_pos (decide_ne_of_not_mem h), List.dropWhile_cons_of_neg (by simp)]

/-- What follows the text before a separator is nothing or begins with the separator. -/
theorem dropWhile_ne_eq (d : α) (s : List α) :
    s.dropWhile (· ≠ d) = [] ∨ ∃ rest, s.dropWhile (· ≠ d) = d :: rest := by
  induction s with
  | nil => exact .inl rfl
  | cons c s ih =>
    by_cases hc : c = d
    · exact .inr ⟨s, by rw [hc, List.dropWhile_cons_of_neg (by simp)]⟩
    · rw [List.dropWhile_cons_of_pos (by simpa using hc)]
      exact ih

end First

/-! ## Pieces -/

section Pieces

variable {α : Type} {p : α → Bool}

/-- Pieces hold what the text holds apart from the separators. -/
theorem of_mem_splitOnP {s piece : List α} (h : piece ∈ s.splitOnP p) :
    ∀ c ∈ piece, c ∈ s ∧ p c = false := by
  -- on the text; its first character opens a new piece or goes to the front of the first one
  induction s generalizing piece with
  | nil =>
    rw [List.splitOnP_nil, List.mem_singleton] at h
    subst h
    exact nofun
  | cons d s ih =>
    have hlift : ∀ {piece' : List α}, piece' ∈ s.splitOnP p →
        ∀ c ∈ piece', c ∈ d :: s ∧ p c = false := by
      intro piece' hmem c hc
      obtain ⟨hs, hp⟩ := ih hmem c hc
      exact ⟨List.mem_cons_of_mem d hs, hp⟩
    rw [List.splitOnP_cons_eq_if_modifyHead] at h
    split at h
    · rcases List.mem_cons.1 h with rfl | h
      · exact nofun
      · exact hlift h
    · next hd =>
      obtain ⟨first, rest, hsplit⟩ := List.exists_cons_of_ne_nil (List.splitOnP_ne_nil p s)
      rw [hsplit, List.modifyHead_cons] at h
      rw [hsplit] at hlift
      rcases List.mem_cons.1 h with rfl | h
      · intro c hc
        rcases List.mem_cons.1 hc with rfl | hc
        · exact ⟨List.mem_cons_self, Bool.eq_false_iff.2 hd⟩
        · exact hlift List.mem_cons_self c hc
      · exact hlift (List.mem_cons_of_mem first h)

/-- All pieces are empty exactly when there are separators only. -/
theorem all_isEmpty_splitOnP (s : List α) :
    (s.splitOnP p).all List.isEmpty = s.all p := by
  induction s with
  | nil => rfl
  | cons c s ih =>
    rw [List.splitOnP_cons_eq_if_modifyHead, List.all_cons]
    split
    · next hc => rw [List.all_cons, ih, hc, List.isEmpty_nil]
    · next hc =>
      obtain ⟨first, rest, hsplit⟩ := List.exists_cons_of_ne_nil (List.splitOnP_ne_nil p s)
      rw [hsplit, List.modifyHead_cons, List.all_cons, List.isEmpty_cons,
        Bool.eq_false_iff.2 hc, Bool.false_and, Bool.false_and]

theorem splitOn_append_of_not_mem [BEq α] [LawfulBEq α] {a : α} {xs : List α} (h : a ∉ xs)
    (s : List α) : (xs ++ s).splitOn a = (s.splitOn a).modifyHead (xs ++ ·) := by
  induction xs with
  | nil =>
    obtain ⟨first, rest, hsplit⟩ := List.exists_cons_of_ne_nil (List.splitOn_ne_nil a s)
    rw [List.nil_append, hsplit]
    rfl
  | cons x xs ih =>
    obtain ⟨hx, hxs⟩ := not_or.1 (mt List.mem_cons.2 h)
    rw [List.cons_append, List.splitOn_cons_eq_if_modifyHead,
      if_neg (by simpa using Ne.symm hx), ih hxs, List.modifyHead_modifyHead]
    rfl

/-- Pieces without separators come out again when each further one stands behind a separator. -/
theorem splitOnP_append_flatMap_cons {sep : α} (hsep : p sep = true) {first : List α}
    (hfirst : ∀ c ∈ first, p c = false) {rest : List (List α)}
    (hrest : ∀ piece ∈ rest, ∀ c ∈ piece, p c = false) :
    (first ++ rest.flatMap (sep :: ·)).splitOnP p = first :: rest := by
  induction rest generalizing first with
  | nil =>
    rw [List.flatMap_nil, List.append_nil]
    exact List.splitOnP_eq_singleton hfirst
  | cons piece rest ih =>
    obtain ⟨hpiece, hrest⟩ := List.forall_mem_cons.1 hrest
    rw [List.flatMap_cons, List.cons_append,
      List.splitOnP_append_cons_of_forall_mem hfirst sep hsep, ih hpiece hrest]

theorem splitOn_append_flatMap_cons [BEq α] [LawfulBEq α] {a : α} {first : List α}
    (hfirst : a ∉ first) {rest : List (List α)} (hrest : ∀ piece ∈ rest, a ∉ piece) :
    (first ++ rest.flatMap (a :: ·)).splitOn a = first :: rest := by
  have hne : ∀ {piece : List α}, a ∉ piece → ∀ c ∈ piece, (c == a) = false := by
    intro piece hpiece c hc
    refine beq_eq_false_iff_ne.2 fun heq => ?_
    exact hpiece (heq ▸ hc)
  rw [List.splitOn_eq_splitOnP]
  exact splitOnP_append_flatMap_cons (p := (· == a)) (beq_self_eq_true a) (hne hfirst)
    fun piece hpiece => hne (hrest piece hpiece)

end Pieces

/-! ## Words -/

theorem words_eq_nil_iff {s : List Char} : words s = [] ↔ blank s = true := by
  rw [words, blank, ← all_isEmpty_splitOnP, List.filter_eq_nil_iff, List.all_eq_true]
  simp only [Bool.not_eq_true, Bool.not_eq_false']

theorem wordsOf_eq_nil_iff {s : String} : wordsOf s = [] ↔ blank s.toList = true := by
  rw [wordsOf, List.map_eq_nil_iff, words_eq_nil_iff]

/-- A blank parts the words before it from those behind it. -/
theorem words_append_cons (s : List Char) {c : Char} (hc : isBlank c = true) (t : List Char) :
    words (s ++ c :: t) = words s ++ words t := by
  rw [words, List.splitOnP_append_cons s t hc, List.filter_append, words, words]

/-- Blanks in front of a text hold no words. -/
theorem words_blank_append {gap s : List Char} (hgap : blank gap = true) :
    words (gap ++ s) = words s := by
  induction gap with
  | nil => rfl
  | cons c gap ih =>
    rw [blank, List.all_cons, Bool.and_eq_true] at hgap
    have hcut : words (c :: (gap ++ s)) = words (gap ++ s) := words_append_cons [] hgap.1 _
    exact hcut.trans (ih hgap.2)

theorem words_append_gap (s : List Char) {gap : List Char} (hne : gap ≠ [])
    (hgap : blank gap = true) (t : List Char) : words (s ++ (gap ++ t)) = words s ++ words t := by
  obtain ⟨c, gap, rfl⟩ := List.exists_cons_of_ne_nil hne
  rw [blank, List.all_cons, Bool.and_eq_true] at hgap
  rw [List.cons_append, words_append_cons s hgap.1, words_blank_append hgap.2]

/-- Nor do blanks behind a text. -/
theorem words_append_blank (s : List Char) {gap : List Char} (hgap : blank gap = true) :
    words (s ++ gap) = words s := by
  by_cases hne : gap = []
  · rw [hne, List.append_nil]
  · have hsplit := words_append_gap s hne hgap []
    rwa [List.append_nil, words_eq_nil_iff.2 (show blank [] = true from rfl),
      List.append_nil] at hsplit

theorem wordsOf_trim (s : String) : wordsOf (String.ofList (trim s.toList)) = wordsOf s := by
  obtain ⟨before, after, hbefore, hafter, hs⟩ := exists_append_trim s.toList
  have hwords : words s.toList = words (trim s.toList) := by
    conv_lhs => rw [hs, words_append_blank _ hafter, words_blank_append hbefore]
  rw [wordsOf, wordsOf, String.toList_ofList, hwords]

theorem toList_intercalate_cons (sep first : String) (rest : List String) :
    (sep.intercalate (first :: rest)).toList =
      first.toList ++ rest.flatMap fun t => sep.toList ++ t.toList := by
  induction rest generalizing first with
  | nil => rw [String.intercalate_singleton, List.flatMap_nil, List.append_nil]
  | cons t rest ih =>
    rw [String.intercalate_cons_cons, String.toList_append, String.toList_append, ih,
      List.flatMap_cons]
    simp only [List.append_assoc]

/-- Words with a blank between them are cut apart again. -/
theorem wordsOf_intercalate {words : List String}
    (h : ∀ word ∈ words, word ≠ "" ∧ ∀ c ∈ word.toList, isBlank c = false) :
    wordsOf (" ".intercalate words) = words := by
  cases words with
  | nil => rfl
  | cons first rest =>
    obtain ⟨hfirst, hrest⟩ := List.forall_mem_cons.1 h
    have hpieces : ∀ piece ∈ rest.map String.toList, ∀ c ∈ piece, isBlank c = false := by
      intro piece hpiece
      obtain ⟨word, hword, rfl⟩ := List.mem_map.1 hpiece
      exact (hrest word hword).2
    have hsplit := splitOnP_append_flatMap_cons (show isBlank ' ' = true from rfl) hfirst.2 hpieces
    rw [List.flatMap_map] at hsplit
    have hnonempty : ∀ word ∈ (first :: rest).map String.toList, (!word.isEmpty) = true := by
      intro word hword
      obtain ⟨w, hw, rfl⟩ := List.mem_map.1 hword
      simpa using (h w hw).1
    have hwords : words (" ".intercalate (first :: rest)).toList =
        (first :: rest).map String.toList := by
      rw [Text.words, toList_intercalate_cons]
      exact (congrArg _ hsplit).trans (List.filter_eq_self.2 hnonempty)
    rw [wordsOf, hwords, List.map_map]
    exact (List.map_congr_left fun w _ => String.ofList_toList).trans (List.map_id _)

/-! ## Reading words -/

section Reading

variable {α ε : Type} {read : String → Except ε α}

/-- All words are read when each is, and to their values in order. -/
theorem mapM_eq_ok_iff_forall₂ {words : List String} {as : List α} :
    words.mapM read = .ok as ↔ List.Forall₂ (fun word a => read word = .ok a) words as := by
  induction words generalizing as with
  | nil =>
    rw [List.mapM_nil, List.forall₂_nil_left_iff]
    constructor
    · intro heq
      exact (Except.ok.inj heq).symm
    · rintro rfl
      rfl
  | cons word words ih =>
    rw [List.mapM_cons, List.forall₂_cons_left_iff]
    constructor
    · intro heq
      cases hread : read word with
      | error e =>
        rw [hread] at heq
        exact nomatch heq
      | ok a =>
        cases hrest : words.mapM read with
        | error e =>
          rw [hread, hrest] at heq
          exact nomatch heq
        | ok rest =>
          rw [hread, hrest] at heq
          exact ⟨a, rest, rfl, ih.1 hrest, (Except.ok.inj heq).symm⟩
    · rintro ⟨a, rest, hread, hrest, rfl⟩
      rw [hread, ih.2 hrest]
      rfl

/-- All words are read exactly when each is. -/
theorem exists_mapM_eq_ok_iff {words : List String} :
    (∃ as, words.mapM read = .ok as) ↔ ∀ word ∈ words, ∃ a, read word = .ok a := by
  simp only [mapM_eq_ok_iff_forall₂]
  induction words with
  | nil => exact ⟨fun _ _ h => absurd h List.not_mem_nil, fun _ => ⟨[], .nil⟩⟩
  | cons word words ih =>
    rw [List.forall_mem_cons, ← ih]
    constructor
    · rintro ⟨as, h⟩
      cases h with
      | cons hfirst hrest => exact ⟨⟨_, hfirst⟩, ⟨_, hrest⟩⟩
    · rintro ⟨⟨a, hfirst⟩, ⟨as, hrest⟩⟩
      exact ⟨a :: as, .cons hfirst hrest⟩

/-- Reading fails with the reason of the first word that is not read. -/
theorem mapM_eq_error_iff {words : List String} {e : ε} :
    words.mapM read = .error e ↔
      ∃ before word after, words = before ++ word :: after ∧
        (∀ w ∈ before, ∃ a, read w = .ok a) ∧ read word = .error e := by
  induction words with
  | nil =>
    rw [List.mapM_nil]
    constructor
    · exact nofun
    · rintro ⟨before, word, after, heq, -⟩
      exact absurd heq (by simp)
  | cons word words ih =>
    rw [List.mapM_cons]
    cases hread : read word with
    | error e' =>
      constructor
      · intro heq
        obtain rfl := Except.error.inj heq
        exact ⟨[], word, words, rfl, nofun, hread⟩
      · rintro ⟨before, word', after, heq, hbefore, hword⟩
        cases before with
        | nil =>
          obtain ⟨rfl, -⟩ := List.cons.inj heq
          rw [hread] at hword
          obtain rfl := Except.error.inj hword
          rfl
        | cons w before =>
          -- the word that fails would be read
          obtain ⟨rfl, -⟩ := List.cons.inj heq
          obtain ⟨a, ha⟩ := hbefore word List.mem_cons_self
          rw [hread] at ha
          exact nomatch ha
    | ok a =>
      have hrest : (do let b ← words.mapM read; pure (a :: b)) = .error e ↔
          words.mapM read = .error e := by
        cases words.mapM read with
        | error e' => exact Iff.rfl
        | ok as => exact ⟨nofun, nofun⟩
      refine hrest.trans (ih.trans ?_)
      constructor
      · rintro ⟨before, word', after, rfl, hbefore, hword⟩
        refine ⟨word :: before, word', after, rfl, ?_, hword⟩
        exact List.forall_mem_cons.2 ⟨⟨a, hread⟩, hbefore⟩
      · rintro ⟨before, word', after, heq, hbefore, hword⟩
        cases before with
        | nil =>
          obtain ⟨rfl, -⟩ := List.cons.inj heq
          rw [hread] at hword
          exact nomatch hword
        | cons w before =>
          obtain ⟨-, rfl⟩ := List.cons.inj heq
          exact ⟨before, word', after, rfl, (List.forall_mem_cons.1 hbefore).2, hword⟩

/-- Where reading one word inverts its display, reading all words inverts theirs. -/
theorem mapM_eq_ok_iff {display : α → String} {valid : α → Prop}
    (h : ∀ word a, read word = .ok a ↔ word = display a ∧ valid a)
    {words : List String} {as : List α} :
    words.mapM read = .ok as ↔ words = as.map display ∧ ∀ a ∈ as, valid a := by
  rw [mapM_eq_ok_iff_forall₂]
  simp only [h]
  constructor
  · intro hall
    induction hall with
    | nil => exact ⟨rfl, nofun⟩
    | cons hword _ ih =>
      rw [hword.1, ih.1]
      exact ⟨rfl, List.forall_mem_cons.2 ⟨hword.2, ih.2⟩⟩
  · rintro ⟨rfl, hvalid⟩
    exact List.forall₂_map_left_iff.2 (List.forall₂_same.2 fun a ha => ⟨rfl, hvalid a ha⟩)

end Reading

end Criteria.Text
