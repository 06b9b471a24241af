import Criteria.Proofs.Options
import Criteria.Proofs.Params.Lookup

/-!
# Sort orders and the texts of them

Reading a sort order and displaying one undo each other: a text is read as the order that its words
display, and the display of an order is read as the order. Main statement (`readSort_outcome`):
which values of `sort` are accepted, by the grammar of tokens alone, and what they come to.
-/

namespace Criteria

namespace SortKey

/-- A token of a sort order: a key, a colon and one of the words `asc` and `desc`. -/
def IsToken (s : List Char) : Prop :=
  ∃ field word, Text.IsKey field ∧ (word = "asc" ∨ word = "desc") ∧ s = field ++ ':' :: word.toList

/-- The tokens are what keys display. -/
theorem isToken_iff {token : String} :
    IsToken token.toList ↔ ∃ k : SortKey, token = k.display ∧ k.Valid := by
  constructor
  · rintro ⟨field, word, hfield, hword, htoken⟩
    obtain ⟨d, rfl⟩ : ∃ d : Direction, word = d.word := by
      rcases hword with rfl | rfl
      · exact ⟨.ascending, rfl⟩
      · exact ⟨.descending, rfl⟩
    refine ⟨⟨String.ofList field, d⟩, String.toList_inj.1 ?_, ?_⟩
    · rw [toList_display, htoken, String.toList_ofList]
    · rw [Valid, String.toList_ofList]
      exact hfield
  · rintro ⟨k, rfl, hk⟩
    refine ⟨k.field.toList, k.direction.word, hk, ?_, toList_display k⟩
    cases k.direction with
    | ascending => exact .inl rfl
    | descending => exact .inr rfl

theorem Valid.display_not_blank {k : SortKey} (h : k.Valid) :
    k.display ≠ "" ∧ ∀ c ∈ k.display.toList, Text.isBlank c = false := by
  rw [ne_eq, ← String.toList_inj, toList_display]
  refine ⟨by simp, ?_⟩
  intro c hc
  rcases List.mem_append.1 hc with hc | hc
  · exact h.not_blank c hc
  · have hdirection : (':' :: k.direction.word.toList).all Text.isValueChar = true := by
      cases k.direction <;> rfl
    exact Text.isBlank_eq_false_of_isValueChar (List.all_eq_true.1 hdirection c hc)

end SortKey

namespace SortOrder

variable {order : SortOrder}

/-- The words of a displayed order are its tokens. -/
theorem wordsOf_display (h : ∀ k ∈ order, k.Valid) :
    Text.wordsOf order.display = order.map SortKey.display := by
  refine Text.wordsOf_intercalate fun word hword => ?_
  obtain ⟨k, hk, rfl⟩ := List.mem_map.1 hword
  exact (h k hk).display_not_blank

/-- Only the empty order displays as a blank text, since every token has a colon. -/
theorem blank_display_iff : Text.blank order.display.toList = true ↔ order = [] := by
  cases order with
  | nil => exact ⟨fun _ => rfl, fun _ => rfl⟩
  | cons k rest =>
    refine ⟨fun hblank => ?_, nofun⟩
    have hcolon : ':' ∈ (display (k :: rest)).toList := by
      rw [display, List.map_cons, Text.toList_intercalate_cons, SortKey.toList_display]
      exact List.mem_append_left _ (List.mem_append_right _ List.mem_cons_self)
    exact absurd (List.all_eq_true.1 hblank ':' hcolon) (by decide)

end SortOrder

namespace Options

variable {p : Params} {value text : String} {order : SortOrder} {log : List Warning}

/-- A displayed order is read back exactly when its fields are keys. -/
theorem readSortOrder?_display_iff :
    readSortOrder? order.display = some order ↔ ∀ k ∈ order, k.Valid := by
  rw [readSortOrder?_eq_some_iff]
  exact ⟨And.right, fun h => ⟨SortOrder.wordsOf_display h, h⟩⟩

/-- What is read displays as the words that it was read from. -/
theorem display_of_readSortOrder? (h : readSortOrder? value = some order) :
    order.display = " ".intercalate (Text.wordsOf value) := by
  rw [(readSortOrder?_eq_some_iff.1 h).1, SortOrder.display]

theorem exists_readSortOrder?_iff :
    (∃ order, readSortOrder? value = some order) ↔
      ∀ word ∈ Text.wordsOf value, SortKey.IsToken word.toList := by
  simp only [exists_readSortOrder?_eq_some_iff, SortKey.isToken_iff]

theorem readSortOrder?_eq_none_iff :
    readSortOrder? value = none ↔ ∃ word ∈ Text.wordsOf value, ¬ SortKey.IsToken word.toList := by
  rw [← not_iff_not, ← ne_eq, Option.ne_none_iff_exists', exists_readSortOrder?_iff]
  simp only [not_exists, not_and, not_not]

theorem readSort_of_given (h : p.get? Parameter.sort.name = some value) :
    readSort p = Validation.orReject .sort value (readSortOrder? value) := by
  rw [readSort, h]

/-- What is written under `sort` is what is read, also when it is blank. -/
theorem outcome_readSort_insert_iff :
    (readSort (p.insert Parameter.sort.name text)).outcome = (.ok order, log) ↔
      readSortOrder? text = some order ∧ log = [] := by
  rw [outcome_readSort_eq_ok_iff, Params.get?_insert_self]
  split
  · next hblank =>
    have hempty : Text.wordsOf text = Text.wordsOf "" :=
      (Text.wordsOf_eq_nil_iff.2 hblank).trans (Text.wordsOf_eq_nil_iff.2 rfl).symm
    rw [Option.getD_none, readSortOrder?_eq_some_iff, readSortOrder?_eq_some_iff, hempty]
  · rw [Option.getD_some]

/-- **A sort order is accepted by its grammar and given back as it was written.** A given value is
accepted exactly when all its words are tokens. Then nothing is logged, the order displays as these
words with one blank between them, and this display is read as the same order. Any other value is
rejected whole, with one warning. Whatever the other parameters are, the display of an order is
read as the order exactly when its fields are keys, and only the empty order displays as a blank
text. -/
theorem readSort_outcome (p : Params) :
    (∀ value, p.get? Parameter.sort.name = some value →
      ((∃ order log, (readSort p).outcome = (.ok order, log)) ↔
        ∀ word ∈ Text.wordsOf value, SortKey.IsToken word.toList) ∧
      (∀ order log, (readSort p).outcome = (.ok order, log) →
        log = [] ∧ order.display = " ".intercalate (Text.wordsOf value) ∧
          ∀ p' : Params, (readSort (p'.insert Parameter.sort.name order.display)).outcome =
            (.ok order, [])) ∧
      (∀ e log, (readSort p).outcome = (.error e, log) ↔
        (∃ word ∈ Text.wordsOf value, ¬ SortKey.IsToken word.toList) ∧
          e = ⟨.sort, value⟩ ∧ log = [⟨.sort, value, none⟩])) ∧
    (∀ order : SortOrder,
      ((readSort (p.insert Parameter.sort.name order.display)).outcome = (.ok order, []) ↔
        ∀ k ∈ order, k.Valid) ∧
      (Text.blank order.display.toList = true ↔ order = [])) := by
  constructor
  · intro value hvalue
    rw [readSort_of_given hvalue]
    refine ⟨?_, ?_, ?_⟩
    · rw [← exists_readSortOrder?_iff]
      simp only [Validation.outcome_orReject_eq_ok_iff]
      exact exists_congr fun order => ⟨fun ⟨_, h, _⟩ => h, fun h => ⟨[], h, rfl⟩⟩
    · intro order log h
      obtain ⟨hread, rfl⟩ := Validation.outcome_orReject_eq_ok_iff.1 h
      have hvalid := (readSortOrder?_eq_some_iff.1 hread).2
      refine ⟨rfl, display_of_readSortOrder? hread, fun _ => ?_⟩
      exact outcome_readSort_insert_iff.2 ⟨readSortOrder?_display_iff.2 hvalid, rfl⟩
    · intro e log
      rw [Validation.outcome_orReject_eq_error_iff, readSortOrder?_eq_none_iff]
  · intro order
    rw [outcome_readSort_insert_iff, and_iff_left rfl]
    exact ⟨readSortOrder?_display_iff, SortOrder.blank_display_iff⟩

/-- Repeated fields stay as they are, and only the blanks between tokens change. -/
theorem readSort_outcome_repeated_field :
    let p := Params.ofList [("SORT", "  name:asc \t $a.b:desc\u3000name:desc")]
    let order : SortOrder := [⟨"name", .ascending⟩, ⟨"$a.b", .descending⟩, ⟨"name", .descending⟩]
    (readSort p).outcome = (.ok order, []) ∧ order.display = "name:asc $a.b:desc name:desc" ∧
      (readSort (p.insert "sort" "name:asc $a.b:desc name:desc")).outcome = (.ok order, []) := by
  intro p order
  have hvalue : p.get? Parameter.sort.name = some "  name:asc \t $a.b:desc\u3000name:desc" := by
    decide
  have hread : (readSort p).outcome = (.ok order, []) := rfl
  obtain ⟨-, haccepted, -⟩ := (readSort_outcome p).1 _ hvalue
  obtain ⟨-, hdisplay, hagain⟩ := haccepted order [] hread
  have htext : order.display = "name:asc $a.b:desc name:desc" := by
    rw [hdisplay]
    decide
  exact ⟨hread, htext, htext ▸ hagain p⟩

end Options

end Criteria
