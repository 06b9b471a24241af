import Criteria.Options
import Criteria.Proofs.Params.Validation
import Criteria.Proofs.Text.Runs
import Criteria.Proofs.Text.Words

/-!
# Accepted options

Checking the options is a settled validation, and `outcome_read_eq_ok_iff` takes its acceptance
apart into that of its parts.
-/

namespace Criteria

/-! ## The grammar of sort orders

A sort order is read from the words that display its keys, and from no others
(`readSortOrder?_eq_some_iff`). -/

theorem Direction.ofWord?_eq_some_iff {s : String} {d : Direction} :
    Direction.ofWord? s = some d ↔ s = d.word := by
  unfold Direction.ofWord?
  constructor
  · intro h
    split at h
    · next hs =>
      obtain rfl := Option.some.inj h
      exact hs
    · split at h
      · next hs =>
        obtain rfl := Option.some.inj h
        exact hs
      · exact nomatch h
  · rintro rfl
    cases d <;> rfl

namespace SortKey

/-- The field is a key. -/
def Valid (k : SortKey) : Prop := Text.IsKey k.field.toList

theorem toList_display (k : SortKey) :
    k.display.toList = k.field.toList ++ ':' :: k.direction.word.toList := by
  simp [display, String.toList_append]

/-- A token is read exactly when it displays a key, and as that key. -/
theorem parse_eq_ok_iff {token : String} {k : SortKey} :
    parse token = .ok k ↔ token = k.display ∧ k.Valid := by
  unfold parse
  constructor
  · intro h
    rcases Text.dropWhile_ne_eq ':' token.toList with hdrop | ⟨rest, hdrop⟩
    · rw [hdrop] at h
      exact nomatch h
    · simp only [hdrop] at h
      split at h
      · next hfield =>
        split at h
        · next direction hword =>
          obtain rfl := Except.ok.inj h
          refine ⟨String.toList_inj.1 ?_, ?_⟩
          · rw [toList_display, ← Direction.ofWord?_eq_some_iff.1 hword, String.toList_ofList,
              String.toList_ofList, ← hdrop, List.takeWhile_append_dropWhile]
          · rw [Valid, Text.isKey_iff, String.toList_ofList]
            exact hfield
        · exact nomatch h
      · exact nomatch h
  · rintro ⟨rfl, hvalid⟩
    have hcolon : ':' ∉ k.field.toList :=
      Text.not_mem_of_class ((Text.isKey_iff _).1 hvalid).2 rfl
    rw [toList_display, Text.takeWhile_ne_append_cons hcolon, Text.dropWhile_ne_append_cons hcolon]
    simp only [String.ofList_toList, Direction.ofWord?_eq_some_iff.2 rfl]
    exact if_pos ((Text.isKey_iff _).1 hvalid)

end SortKey

namespace Options

theorem readSortOrder?_eq_some_iff_mapM {value : String} {order : SortOrder} :
    readSortOrder? value = some order ↔ (Text.wordsOf value).mapM SortKey.parse = .ok order := by
  rw [readSortOrder?]
  cases (Text.wordsOf value).mapM SortKey.parse with
  | error e => exact ⟨nofun, nofun⟩
  | ok order' => rw [Except.toOption, Option.some.injEq, Except.ok.injEq]

/-- A sort order is read exactly from the words that display it. -/
theorem readSortOrder?_eq_some_iff {value : String} {order : SortOrder} :
    readSortOrder? value = some order ↔
      Text.wordsOf value = order.map SortKey.display ∧ ∀ k ∈ order, k.Valid := by
  rw [readSortOrder?_eq_some_iff_mapM, Text.mapM_eq_ok_iff fun _ _ => SortKey.parse_eq_ok_iff]

/-- A sort order is read exactly where every word displays a key. -/
theorem exists_readSortOrder?_eq_some_iff {value : String} :
    (∃ order, readSortOrder? value = some order) ↔
      ∀ word ∈ Text.wordsOf value, ∃ k : SortKey, word = k.display ∧ k.Valid := by
  simp only [readSortOrder?_eq_some_iff_mapM, Text.exists_mapM_eq_ok_iff, SortKey.parse_eq_ok_iff]

/-! ## Options -/

open Validation

theorem settled_readCount (p : Params) (parameter : Parameter) (default : UInt64) :
    Settled (readCount p parameter default) := by
  unfold readCount
  split
  · exact settled_pure default
  · exact settled_orReject parameter _ _

theorem settled_readSkip (p : Params) : Settled (readSkip p) := settled_readCount p _ _

theorem settled_readLimit (p : Params) : Settled (readLimit p) := settled_readCount p _ _

theorem settled_readSort (p : Params) : Settled (readSort p) := by
  unfold readSort
  split
  · exact settled_pure []
  · exact settled_orReject .sort _ _

theorem settled_readDefaultOperator (p : Params) : Settled (readDefaultOperator p) := by
  unfold readDefaultOperator
  split
  · exact settled_pure Connector.and
  · exact settled_orReject .defaultOperator _ _

theorem settled_read (p : Params) : Settled (read p) :=
  (settled_readSkip p).bind fun _ => (settled_readLimit p).bind fun _ =>
    (settled_readSort p).bind fun _ => (settled_readDefaultOperator p).bind fun _ =>
      settled_pure _

/-- Options are accepted exactly when their parts are; fields are never rejected. -/
theorem outcome_read_eq_ok_iff {p : Params} {o : Options} {log : List Warning} :
    (read p).outcome = (.ok o, log) ↔
      (readSkip p).outcome = (.ok o.skip, []) ∧ (readLimit p).outcome = (.ok o.limit, []) ∧
        (readSort p).outcome = (.ok o.sort, []) ∧ o.fields = readFields p ∧
          (readDefaultOperator p).outcome = (.ok o.defaultOperator, []) ∧ log = [] := by
  unfold read
  rw [outcome_bind_eq_ok_iff (settled_readSkip p)]
  simp only [outcome_bind_eq_ok_iff (settled_readLimit p),
    outcome_bind_eq_ok_iff (settled_readSort p),
    outcome_bind_eq_ok_iff (settled_readDefaultOperator p), outcome_pure_eq_ok_iff]
  constructor
  · rintro ⟨skip, hskip, limit, hlimit, sort, hsort, operator, hoperator, rfl, hlog⟩
    exact ⟨hskip, hlimit, hsort, rfl, hoperator, hlog⟩
  · rintro ⟨hskip, hlimit, hsort, hfields, hoperator, hlog⟩
    refine ⟨_, hskip, _, hlimit, _, hsort, _, hoperator, ?_, hlog⟩
    rw [← hfields]

/-! ### The values of options -/

/-- A text of decimal digits, with blanks at its ends or without, that denote a number. -/
def IsCount (value : String) (n : UInt64) : Prop :=
  Text.trim value.toList ≠ [] ∧ (Text.trim value.toList).all Char.isDigit = true ∧
    Text.decimalValue (Text.trim value.toList) = n.toNat

theorem readCount?_eq_some_iff {value : String} {n : UInt64} :
    readCount? value = some n ↔ IsCount value n := by
  unfold readCount? Text.readNatural? IsCount
  constructor
  · intro h
    split at h
    · next m hm =>
      split at h
      · next hlt =>
        obtain rfl := Option.some.inj h
        split at hm
        · next hdigits =>
          obtain rfl := Option.some.inj hm
          exact ⟨hdigits.1, hdigits.2, UInt64.toNat_ofNatLT.symm⟩
        · exact nomatch hm
      · exact nomatch h
    · exact nomatch h
  · rintro ⟨hne, hdigits, hvalue⟩
    have hlt : n.toNat < UInt64.size := n.toNat_lt
    simp only [ne_eq, hne, not_false_eq_true, hdigits, and_self, if_true, hvalue, hlt, dif_pos,
      UInt64.ofNatLT_toNat]

theorem readConnector?_eq_some_iff {value : String} {c : Connector} :
    readConnector? value = some c ↔
      (Text.trim value.toList).map Char.toUpper = c.word.toList := by
  rw [readConnector?, Connector.ofWordAnyCase?, Connector.ofWord?_eq_some_iff, ← String.toList_inj,
    String.toList_map, String.toList_ofList]

/-- An absent sort order is read as an empty text would be. -/
theorem outcome_readSort_eq_ok_iff {p : Params} {order : SortOrder} {log : List Warning} :
    (readSort p).outcome = (.ok order, log) ↔
      readSortOrder? ((p.get? Parameter.sort.name).getD "") = some order ∧ log = [] := by
  unfold readSort
  cases p.get? Parameter.sort.name with
  | none =>
    have hempty : readSortOrder? "" = some [] := rfl
    rw [outcome_pure_eq_ok_iff, Option.getD_none, hempty, Option.some.injEq]
  | some value => rw [outcome_orReject_eq_ok_iff, Option.getD_some]

/-- The words of an accepted sort order are the tokens of its keys. -/
theorem wordsOf_sort_eq {p : Params} {o : Options} {log : List Warning}
    (h : (read p).outcome = (.ok o, log)) :
    Text.wordsOf ((p.get? Parameter.sort.name).getD "") = o.sort.map SortKey.display ∧
      ∀ k ∈ o.sort, k.Valid := by
  obtain ⟨-, -, hsort, -⟩ := outcome_read_eq_ok_iff.1 h
  exact readSortOrder?_eq_some_iff.1 (outcome_readSort_eq_ok_iff.1 hsort).1

end Options

end Criteria
