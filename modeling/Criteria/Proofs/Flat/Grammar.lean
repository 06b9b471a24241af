import Criteria.Flat.Parser
import Criteria.Proofs.Filter.Tokens
import Criteria.Proofs.Text.Words

/-!
# The grammar of flat filters

A word is read as a term exactly when it displays a valid one (`Term.parse_eq_ok_iff`), and a flat
filter is read from the words that display its terms (`parse_eq_ok_iff`). Main statement
(`parse_tokens`): a token is read exactly when it is in the grammar and is no connector, and as the
one term that it displays; a flat filter is read token by token or refused for its first bad one.
-/

namespace Criteria.Flat

open Criteria.Text

/-- A term over the alphabets of keys and bare values. Without a mark a word is no connector and
does not begin with a sign. -/
inductive Term.Valid : Term → Prop where
  | text {mark : Option Mark} {word : String} :
      IsKey word.toList →
      (mark = none → Connector.ofWord? word = none ∧ word.toList.head? ≠ some '-') →
      Term.Valid (.text mark word)
  | comparison {field value : String} {c : Comparator} :
      IsKey field.toList → IsBareValue value.toList → Term.Valid (.comparison field c value)

/-! ## From words to terms -/

theorem of_readComparison? {s rest : List Char} {term : Term}
    (h : readComparison? s = some (term, rest)) :
    term.Valid ∧ s = term.display.toList ++ rest := by
  unfold readComparison? at h
  split at h
  · exact nomatch h
  · next field s' hfield =>
    obtain ⟨hkey, rfl⟩ := isKey_of_readKey? hfield
    split at h
    · exact nomatch h
    · next c s'' hc =>
      obtain rfl := Comparator.append_of_read? hc
      split at h
      · exact nomatch h
      · next value rest' hvalue =>
        obtain ⟨hbare, rfl⟩ := isBareValue_of_readBareValue? hvalue
        obtain ⟨rfl, rfl⟩ := Prod.mk.inj (Option.some.inj h)
        refine ⟨.comparison (by simpa using hkey) (by simpa using hbare), ?_⟩
        simp [Term.display, String.toList_append]

theorem append_of_readMark (s : List Char) :
    s = (((readMark s).1.map Mark.sign).getD "").toList ++ (readMark s).2 := by
  unfold readMark
  split <;> simp [Mark.sign]

theorem head?_of_readMark {s : List Char} (h : (readMark s).1 = none) : s.head? ≠ some '-' := by
  unfold readMark at h
  split at h
  · exact nomatch h
  · exact nomatch h
  · next _ hminus =>
    intro hhead
    obtain ⟨rest, rfl⟩ := List.head?_eq_some_iff.1 hhead
    exact hminus rest rfl

theorem of_readText? {s rest : List Char} {term : Term} (h : readText? s = some (term, rest)) :
    ∃ word, IsKey word.toList ∧ term = .text (readMark s).1 word ∧
      s = term.display.toList ++ rest := by
  obtain ⟨⟨word, rest'⟩, hword, heq⟩ := Option.map_eq_some_iff.1 h
  obtain ⟨rfl, rfl⟩ := Prod.mk.inj heq
  obtain ⟨hkey, happend⟩ := isKey_of_readKey? hword
  refine ⟨String.ofList word, by simpa using hkey, rfl, ?_⟩
  have hmark := append_of_readMark s
  rw [happend] at hmark
  simpa [Term.display, String.toList_append] using hmark

/-- What is read from a word is valid and displays the word. -/
theorem Term.of_parse {token : String} {term : Term} (h : Term.parse token = .ok term) :
    token = term.display ∧ term.Valid := by
  unfold Term.parse at h
  split at h
  · exact nomatch h
  · next hconnector =>
    have hconnector : Connector.ofWord? token = none := by simpa using hconnector
    split at h
    · exact nomatch h
    · next term' hread =>
      obtain rfl := Except.ok.inj h
      rcases Option.or_eq_some_iff.1 hread with hread | ⟨-, hread⟩
      · obtain ⟨hvalid, htoken⟩ := of_readComparison? hread
        rw [List.append_nil] at htoken
        exact ⟨String.toList_inj.1 htoken, hvalid⟩
      · obtain ⟨word, hkey, hterm, htoken⟩ := of_readText? hread
        rw [List.append_nil] at htoken
        have htoken := String.toList_inj.1 htoken
        refine ⟨htoken, ?_⟩
        rw [hterm]
        refine .text hkey fun hnone => ?_
        have hword : token = word := by
          rw [htoken, hterm, hnone]
          simp [Term.display]
        subst hword
        exact ⟨hconnector, head?_of_readMark hnone⟩
    · exact nomatch h

/-! ## From terms to words -/

theorem readComparison?_display {field value : String} {c : Comparator}
    (hfield : IsKey field.toList) (hvalue : IsBareValue value.toList) :
    readComparison? (Term.comparison field c value).display.toList =
      some (.comparison field c value, []) := by
  -- a colon ends the key
  have hsymbol : ∃ s, c.symbol.toList ++ (value.toList ++ []) = ':' :: s := by
    cases c <;> exact ⟨_, rfl⟩
  have hread := Filter.read?_symbol_append c (.bare hvalue) []
  obtain ⟨s, hs⟩ := hsymbol
  have hkey : readKey? (field.toList ++ ':' :: s) = some (field.toList, ':' :: s) :=
    readKey?_append hfield fun d hd => by
      obtain rfl : ':' = d := Option.some.inj hd
      decide
  have hdisplay : (Term.comparison field c value).display.toList = field.toList ++ ':' :: s := by
    rw [Term.display, String.toList_append, String.toList_append, List.append_assoc, ← hs,
      List.append_nil]
  rw [hs] at hread
  rw [hdisplay, readComparison?, hkey]
  simp [hread, readBareValue?_self hvalue]

theorem readComparison?_of_isKey {s : List Char} (h : IsKey s) : readComparison? s = none := by
  rw [readComparison?, readKey?_self h]
  rfl

theorem toList_display_text (mark : Option Mark) (word : String) :
    (Term.text mark word).display.toList =
      ((mark.map Mark.sign).getD "").toList ++ word.toList := by
  rw [Term.display, String.toList_append]

/-- A plus sign is no key character, and a minus sign makes up a key with the word behind it. -/
theorem readComparison?_display_text (mark : Option Mark) {word : String}
    (h : IsKey word.toList) : readComparison? (Term.text mark word).display.toList = none := by
  rw [toList_display_text]
  cases mark with
  | none => exact readComparison?_of_isKey h
  | some mark =>
    cases mark with
    | required => rfl
    | prohibited =>
      -- so no symbol is left behind the key that is read
      exact readComparison?_of_isKey (h.cons rfl)

theorem readMark_display {mark : Option Mark} {word : String} (h : IsKey word.toList)
    (hnone : mark = none → word.toList.head? ≠ some '-') :
    readMark (Term.text mark word).display.toList = (mark, word.toList) := by
  rw [toList_display_text]
  cases mark with
  | none =>
    show readMark word.toList = (none, word.toList)
    unfold readMark
    split
    · next rest heq =>
      have hplus := h.head [] '+' (by rw [heq]; rfl)
      exact absurd hplus (by decide)
    · next rest heq => exact absurd (heq ▸ rfl) (hnone rfl)
    · rfl
  | some mark => cases mark <;> rfl

theorem readText?_display {mark : Option Mark} {word : String} (h : IsKey word.toList)
    (hnone : mark = none → word.toList.head? ≠ some '-') :
    readText? (Term.text mark word).display.toList = some (.text mark word, []) := by
  rw [readText?, readMark_display h hnone, readKey?_self h]
  simp

/-- No valid term displays as a connector. -/
theorem Term.Valid.ofWord?_display {term : Term} (h : term.Valid) :
    Connector.ofWord? term.display = none := by
  cases hconnector : Connector.ofWord? term.display with
  | none => rfl
  | some d =>
    have hdisplay := congrArg String.toList (Connector.ofWord?_eq_some_iff.1 hconnector)
    cases h with
    | comparison hfield hvalue =>
      next field value c =>
      -- a comparison has a colon
      have hcolon : ':' ∈ (Term.comparison field c value).display.toList := by
        rw [Term.display, String.toList_append, String.toList_append]
        cases c <;> simp [Comparator.symbol]
      rw [hdisplay] at hcolon
      cases d <;> exact absurd hcolon (by decide)
    | text hword hnone =>
      next mark word =>
      rw [toList_display_text] at hdisplay
      cases mark with
      | none =>
        have hword' : word = d.word := String.toList_inj.1 hdisplay
        have hfree := (hnone rfl).1
        rw [hword', Connector.ofWord?_eq_some_iff.2 rfl] at hfree
        exact absurd hfree (Option.some_ne_none d)
      | some mark =>
        -- a sign stands in front
        cases mark <;> cases d <;> simp [Mark.sign, Connector.word] at hdisplay

/-- A word is read exactly when it displays a valid term, and as that term. -/
theorem Term.parse_eq_ok_iff {token : String} {term : Term} :
    Term.parse token = .ok term ↔ token = term.display ∧ term.Valid := by
  refine ⟨Term.of_parse, ?_⟩
  rintro ⟨rfl, hvalid⟩
  rw [Term.parse, hvalid.ofWord?_display]
  cases hvalid with
  | comparison hfield hvalue =>
    rw [readComparison?_display hfield hvalue]
    rfl
  | text hword hnone =>
    rw [readComparison?_display_text _ hword, readText?_display hword fun h => (hnone h).2]
    rfl

/-- A flat filter is read exactly from the words that display its terms. -/
theorem parse_eq_ok_iff {text : String} {terms : List Term} :
    parse text = .ok terms ↔
      wordsOf text = terms.map Term.display ∧ ∀ term ∈ terms, term.Valid := by
  rw [← mapM_eq_ok_iff fun _ _ => Term.parse_eq_ok_iff, parse]
  cases (wordsOf text).mapM Term.parse with
  | error reason => exact ⟨nofun, nofun⟩
  | ok terms' => rw [Except.ok.injEq, Except.ok.injEq]

/-! ## Tokens

`IsTerm` is the grammar of single terms over texts. -/

/-- The texts of terms. A sign before a key is a mark, and a text that begins with a minus sign
and has no symbol is never read without one. -/
inductive IsTerm : List Char → Prop where
  | comparison {field value : List Char} {c : Comparator} :
      IsKey field → IsBareValue value → IsTerm (field ++ c.symbol.toList ++ value)
  | marked {sign : Char} {word : List Char} :
      sign = '+' ∨ sign = '-' → IsKey word → IsTerm (sign :: word)
  | plain {word : List Char} : IsKey word → word.head? ≠ some '-' → IsTerm word

theorem Term.Valid.isTerm_display {term : Term} (h : term.Valid) :
    IsTerm term.display.toList := by
  cases h with
  | comparison hfield hvalue =>
    rw [Term.display, String.toList_append, String.toList_append]
    exact .comparison hfield hvalue
  | @text mark word hword hplain =>
    rw [toList_display_text]
    cases mark with
    | none => exact .plain hword (hplain rfl).2
    | some mark =>
      cases mark with
      | required => exact .marked (.inl rfl) hword
      | prohibited => exact .marked (.inr rfl) hword

/-- A text in the grammar is a connector or displays a valid term. -/
theorem IsTerm.exists_valid {token : String} (h : IsTerm token.toList)
    (hconnector : Connector.ofWord? token = none) :
    ∃ term : Term, term.Valid ∧ token = term.display := by
  generalize hs : token.toList = s at h
  -- each form gives the term that has its parts, but a plain word is one only off the connectors
  cases h with
  | @comparison field value c hfield hvalue =>
    refine ⟨.comparison (String.ofList field) c (String.ofList value), ?_, ?_⟩
    · exact .comparison (by simpa using hfield) (by simpa using hvalue)
    · apply String.toList_inj.1
      simpa [Term.display, String.toList_append] using hs
  | @marked sign word hsign hword =>
    have hvalid : ∀ mark, (Term.text (some mark) (String.ofList word)).Valid := by
      intro mark
      refine .text (by simpa using hword) ?_
      intro hnone
      cases hnone
    rcases hsign with rfl | rfl
    · refine ⟨.text (some .required) (String.ofList word), hvalid .required, ?_⟩
      apply String.toList_inj.1
      simpa [toList_display_text, Mark.sign] using hs
    · refine ⟨.text (some .prohibited) (String.ofList word), hvalid .prohibited, ?_⟩
      apply String.toList_inj.1
      simpa [toList_display_text, Mark.sign] using hs
  | plain hword hhead =>
    subst hs
    refine ⟨.text none token, .text hword fun _ => ⟨hconnector, hhead⟩, ?_⟩
    apply String.toList_inj.1
    simp [toList_display_text]

/-- Which tokens are read. -/
theorem Term.exists_parse_eq_ok_iff {token : String} :
    (∃ term, Term.parse token = .ok term) ↔
      token ≠ "AND" ∧ token ≠ "OR" ∧ IsTerm token.toList := by
  rw [← and_assoc, ← Connector.ofWord?_eq_none_iff]
  constructor
  · rintro ⟨term, h⟩
    obtain ⟨rfl, hvalid⟩ := Term.of_parse h
    exact ⟨hvalid.ofWord?_display, hvalid.isTerm_display⟩
  · rintro ⟨hconnector, hterm⟩
    obtain ⟨term, hvalid, hdisplay⟩ := hterm.exists_valid hconnector
    exact ⟨term, Term.parse_eq_ok_iff.2 ⟨hdisplay, hvalid⟩⟩

theorem parse_eq_ok_iff_forall₂ {text : String} {terms : List Term} :
    parse text = .ok terms ↔
      List.Forall₂ (fun token term => Term.parse token = .ok term) (wordsOf text) terms := by
  rw [← mapM_eq_ok_iff_forall₂, parse]
  cases (wordsOf text).mapM Term.parse with
  | error reason =>
    constructor
    · intro h
      cases h
    · intro h
      cases h
  | ok terms' => rw [Except.ok.injEq, Except.ok.injEq]

theorem parse_eq_error_iff {text : String} {refusal : Filter.Refusal Reason} :
    parse text = .error refusal ↔
      refusal.filter = text ∧ ∃ before token after, wordsOf text = before ++ token :: after ∧
        (∀ t ∈ before, ∃ term, Term.parse t = .ok term) ∧
          Term.parse token = .error refusal.reason := by
  rw [← mapM_eq_error_iff, parse]
  cases (wordsOf text).mapM Term.parse with
  | ok terms =>
    constructor
    · intro h
      cases h
    · rintro ⟨-, h⟩
      cases h
  | error reason =>
    constructor
    · intro h
      obtain rfl := Except.error.inj h
      exact ⟨rfl, rfl⟩
    · rintro ⟨rfl, h⟩
      obtain rfl := Except.error.inj h
      rfl

/-- A flat filter is read exactly when each of its tokens is. -/
theorem exists_parse_eq_ok_iff {text : String} :
    (∃ terms, parse text = .ok terms) ↔
      ∀ token ∈ wordsOf text, ∃ term, Term.parse token = .ok term := by
  simp only [parse_eq_ok_iff_forall₂, ← mapM_eq_ok_iff_forall₂]
  exact exists_mapM_eq_ok_iff

/-- **Flat reading is its grammar, and display inverts it.** A token is read exactly when it is in
the grammar and is no connector, and as a term exactly when the term is valid and displays it. A
flat filter is read exactly when all its tokens are, to their terms in order, and is refused as it
was given with the reason of the first token that is not read. -/
theorem parse_tokens :
    (∀ token, (∃ term, Term.parse token = .ok term) ↔
      token ≠ "AND" ∧ token ≠ "OR" ∧ IsTerm token.toList) ∧
    (∀ token term, Term.parse token = .ok term ↔ token = term.display ∧ term.Valid) ∧
    (∀ text, (∃ terms, parse text = .ok terms) ↔
      ∀ token ∈ wordsOf text, ∃ term, Term.parse token = .ok term) ∧
    (∀ text terms, parse text = .ok terms ↔
      List.Forall₂ (fun token term => Term.parse token = .ok term) (wordsOf text) terms) ∧
    (∀ text refusal, parse text = .error refusal ↔
      refusal.filter = text ∧ ∃ before token after, wordsOf text = before ++ token :: after ∧
        (∀ t ∈ before, ∃ term, Term.parse t = .ok term) ∧
          Term.parse token = .error refusal.reason) := by
  refine ⟨?_, ?_, ?_, ?_, ?_⟩
  · exact fun token => Term.exists_parse_eq_ok_iff
  · exact fun token term => Term.parse_eq_ok_iff
  · exact fun text => exists_parse_eq_ok_iff
  · exact fun text terms => parse_eq_ok_iff_forall₂
  · exact fun text refusal => parse_eq_error_iff

end Criteria.Flat
