import Criteria.Literal.Inference
import Criteria.Proofs.Calendar.Language
import Criteria.Proofs.Calendar.Order
import Criteria.Proofs.Text.Runs

/-!
# Literals that are inferred

A literal is plain when it is a plain instant, a finite number, a truth value or a pattern that is
not empty. A bare value and a quoted text that is not empty denote plain literals
(`plain_infer_bare`, `plain_infer_quoted`). A text is read as a numeral exactly when it is in the
language of numerals (`read?_eq_some_iff`).
-/

namespace Criteria.Literal

open Criteria.Text

/-- What holds of every literal that a value denotes. -/
def Plain : Literal → Prop
  | .date t => t.Plain
  | .number x => x.isFinite = true
  | .boolean _ => True
  | .pattern source => source ≠ ""

/-! ## Quotes -/

theorem unquote?_quoted {q : Char} (hq : q = '\'' ∨ q = '"') (inner : List Char) :
    unquote? (q :: (inner ++ [q])) = some inner := by
  rw [unquote?, if_pos ⟨hq, List.getLast?_concat⟩, List.dropLast_concat]

/-- No quote is a character of bare values. -/
theorem unquote?_bare {s : List Char} (h : IsBareValue s) : unquote? s = none := by
  have hall := ((isBareValue_iff s).1 h).2
  cases s with
  | nil => rfl
  | cons c rest =>
    have hc : isValueChar c = true := List.all_eq_true.1 hall c List.mem_cons_self
    have hquote : ¬ (c = '\'' ∨ c = '"') := by
      rintro (rfl | rfl) <;> exact absurd hc (by decide)
    rw [unquote?, if_neg fun hboth => hquote hboth.1]

theorem infer_quoted {raw : String} {q : Char} {inner : List Char} (hq : q = '\'' ∨ q = '"')
    (hraw : raw.toList = q :: (inner ++ [q])) : infer raw = ofQuoted inner := by
  rw [infer, hraw, unquote?_quoted hq]

theorem infer_bare {raw : String} (h : IsBareValue raw.toList) :
    infer raw = ofBare raw.toList := by
  rw [infer, unquote?_bare h]

/-! ## The parts of an inference -/

theorem plain_of_readDate? {s : List Char} {t : Instant} (h : readDate? s = some t) :
    t.Plain := by
  obtain ⟨d, hd, rfl⟩ := Option.map_eq_some_iff.1 h
  exact (DateTime.valid_of_readDateTime? hd).plain_instant

theorem isFinite_of_readNumber? {s : List Char} {x : Binary64} (h : readNumber? s = some x) :
    x.isFinite = true := by
  unfold readNumber? at h
  split at h
  · split at h
    · next hfinite =>
      cases h
      exact hfinite
    · exact nomatch h
  · exact nomatch h

theorem plain_pattern {s : List Char} (h : s ≠ []) : (pattern (String.ofList s)).Plain := by
  intro hempty
  have hlist := congrArg String.toList hempty
  rw [String.toList_ofList] at hlist
  exact h hlist

theorem plain_ofQuoted {inner : List Char} (h : inner ≠ []) : (ofQuoted inner).Plain := by
  unfold ofQuoted
  split
  · next hdate => exact plain_of_readDate? hdate
  · exact plain_pattern h

theorem plain_ofBare {s : List Char} (h : s ≠ []) : (ofBare s).Plain := by
  unfold ofBare
  split
  · next hdate => exact plain_of_readDate? hdate
  · split
    · next hnumber => exact isFinite_of_readNumber? hnumber
    · split
      · trivial
      · exact plain_pattern h

theorem plain_infer_quoted {raw : String} {q : Char} {inner : List Char} (hq : q = '\'' ∨ q = '"')
    (hraw : raw.toList = q :: (inner ++ [q])) (hinner : inner ≠ []) : (infer raw).Plain := by
  rw [infer_quoted hq hraw]
  exact plain_ofQuoted hinner

theorem plain_infer_bare {raw : String} (h : IsBareValue raw.toList) : (infer raw).Plain := by
  rw [infer_bare h]
  exact plain_ofBare h.1

end Criteria.Literal

/-! ## The language of numerals

`Numeral.Spells` is the grammar `-?[0-9]+(.[0-9]+)?`, with the sign, the digits and the count of
digits behind the point that a text has. -/

namespace Criteria

open Text

/-- One digit or more, and nothing else. -/
def Text.IsDigits (s : List Char) : Prop := s ≠ [] ∧ s.all Char.isDigit = true

namespace Numeral

/-- The sign of a numeral; there is none for positive ones. -/
def signText (negative : Bool) : List Char := if negative then ['-'] else []

/-- The text of a numeral. -/
inductive Spells : Numeral → List Char → Prop where
  | whole {negative : Bool} {digits : List Char} : IsDigits digits →
      Spells ⟨negative, decimalValue digits, 0⟩ (signText negative ++ digits)
  | fraction {negative : Bool} {digits fraction : List Char} : IsDigits digits →
      IsDigits fraction →
      Spells ⟨negative, decimalValue (digits ++ fraction), fraction.length⟩
        (signText negative ++ (digits ++ '.' :: fraction))

/-- The language of numerals. -/
def IsNumeral (s : List Char) : Prop := ∃ n : Numeral, n.Spells s

/-! ### Reading -/

theorem readUnsigned?_whole {digits : List Char} (h : IsDigits digits) (negative : Bool) :
    readUnsigned? negative digits = some ⟨negative, decimalValue digits, 0⟩ := by
  obtain ⟨-, htake, hdrop⟩ := readRun?_eq_some_iff.1 (readRun?_self h.1 h.2)
  have hempty : digits.isEmpty = false := List.isEmpty_eq_false_iff.2 h.1
  rw [readUnsigned?]
  simp only [htake, hdrop, hempty, Bool.false_eq_true, if_false]

theorem readUnsigned?_fraction {digits fraction : List Char} (h : IsDigits digits)
    (hfraction : IsDigits fraction) (negative : Bool) :
    readUnsigned? negative (digits ++ '.' :: fraction) =
      some ⟨negative, decimalValue (digits ++ fraction), fraction.length⟩ := by
  have hpoint : ∀ c ∈ ('.' :: fraction).head?, c.isDigit = false := by
    intro c hc
    obtain rfl : '.' = c := Option.some.inj hc
    rfl
  obtain ⟨-, htake, hdrop⟩ := readRun?_eq_some_iff.1 (readRun?_append h.1 h.2 hpoint)
  have hempty : digits.isEmpty = false := List.isEmpty_eq_false_iff.2 h.1
  rw [readUnsigned?]
  simp only [htake, hdrop, hempty, Bool.false_eq_true, if_false]
  exact if_pos hfraction

/-- What is read without a sign has the form of a numeral. -/
theorem spells_of_readUnsigned? {negative : Bool} {s : List Char} {n : Numeral}
    (h : readUnsigned? negative s = some n) : n.Spells (signText negative ++ s) := by
  rw [readUnsigned?] at h
  have hwhole : s = s.takeWhile Char.isDigit ++ s.dropWhile Char.isDigit :=
    List.takeWhile_append_dropWhile.symm
  have hall : (s.takeWhile Char.isDigit).all Char.isDigit = true := List.all_takeWhile
  generalize s.takeWhile Char.isDigit = digits at h hwhole hall
  generalize s.dropWhile Char.isDigit = rest at h hwhole
  subst hwhole
  split at h
  · exact nomatch h
  · next hempty =>
    have hdigits : IsDigits digits := ⟨fun hnil => hempty (List.isEmpty_iff.2 hnil), hall⟩
    split at h
    · obtain rfl := Option.some.inj h
      rw [List.append_nil]
      exact .whole hdigits
    · split at h
      · next hfraction =>
        obtain rfl := Option.some.inj h
        exact .fraction hdigits hfraction
      · exact nomatch h
    · exact nomatch h

theorem read?_of_head_ne {s : List Char} (h : s.head? ≠ some '-') :
    read? s = readUnsigned? false s := by
  unfold read?
  split
  · exact absurd rfl h
  · rfl

theorem head?_digits_append_ne {digits : List Char} (h : IsDigits digits) (rest : List Char) :
    (digits ++ rest).head? ≠ some '-' := by
  obtain ⟨c, digits, rfl⟩ := List.exists_cons_of_ne_nil h.1
  intro hhead
  obtain rfl : c = '-' := Option.some.inj hhead
  exact absurd (List.all_eq_true.1 h.2 '-' List.mem_cons_self) (by decide)

/-- **Reading numerals is their grammar.** A text is read as a numeral exactly when it is a text of
that numeral. -/
theorem read?_eq_some_iff {s : List Char} {n : Numeral} : read? s = some n ↔ n.Spells s := by
  constructor
  · intro h
    unfold read? at h
    split at h
    · exact spells_of_readUnsigned? h
    · exact spells_of_readUnsigned? h
  · rintro (@⟨negative, digits, hdigits⟩ | @⟨negative, digits, fraction, hdigits, hfraction⟩)
    · cases negative with
      | true => exact readUnsigned?_whole hdigits true
      | false =>
        have hhead := head?_digits_append_ne hdigits []
        rw [List.append_nil] at hhead
        exact (read?_of_head_ne hhead).trans (readUnsigned?_whole hdigits false)
    · cases negative with
      | true => exact readUnsigned?_fraction hdigits hfraction true
      | false =>
        exact (read?_of_head_ne (head?_digits_append_ne hdigits _)).trans
          (readUnsigned?_fraction hdigits hfraction false)

end Numeral

end Criteria
