import Criteria.Text
import Mathlib.Data.Nat.Digits.Defs
import Mathlib.Data.List.Induction

/-!
# Keys, bare values and numbers in texts

A reader of a run takes it off the head of a longer text, and takes all of it where a character of
another class follows (`readRun?_append`). The runs of digits are the numbers that place value gives
them.
-/

namespace Criteria.Text

/-! ## Keys and bare values

The texts over the alphabets of keys and of bare values as the grammars name them. -/

/-- A letter or a digit of ASCII. -/
def IsAlphanumeric (c : Char) : Prop :=
  ('a' ≤ c ∧ c ≤ 'z') ∨ ('A' ≤ c ∧ c ≤ 'Z') ∨ ('0' ≤ c ∧ c ≤ '9')

/-- A nonempty text of letters, digits and the marks `_ $ . -`. -/
def IsKey (s : List Char) : Prop :=
  s ≠ [] ∧ ∀ c ∈ s, IsAlphanumeric c ∨ c ∈ ['_', '$', '.', '-']

/-- A nonempty text of letters, digits and the marks `@ . - : _`. -/
def IsBareValue (s : List Char) : Prop :=
  s ≠ [] ∧ ∀ c ∈ s, IsAlphanumeric c ∨ c ∈ ['@', '.', '-', ':', '_']

/-! ### The classes of the readers -/

theorem ne_of_class {p : Char → Bool} {c d : Char} (hc : p c = true) (hd : p d = false) :
    c ≠ d := by
  intro heq
  rw [heq, hd] at hc
  exact Bool.false_ne_true hc

theorem not_mem_of_class {p : Char → Bool} {s : List Char} {d : Char} (hs : s.all p = true)
    (hd : p d = false) : d ∉ s := by
  intro hmem
  exact ne_of_class (List.all_eq_true.1 hs d hmem) hd rfl

theorem isDigit_iff (c : Char) : c.isDigit = true ↔ '0' ≤ c ∧ c ≤ '9' := by
  show (decide (c.val ≥ '0'.val) && decide (c.val ≤ '9'.val)) = true ↔ _
  rw [Bool.and_eq_true, decide_eq_true_iff, decide_eq_true_iff]
  exact Iff.rfl

theorem isAlphanum_iff (c : Char) : c.isAlphanum = true ↔ IsAlphanumeric c := by
  have hupper : c.isUpper = true ↔ 'A' ≤ c ∧ c ≤ 'Z' := by
    show decide (c.val ≥ 'A'.val ∧ c.val ≤ 'Z'.val) = true ↔ _
    exact decide_eq_true_iff
  have hlower : c.isLower = true ↔ 'a' ≤ c ∧ c ≤ 'z' := by
    show (decide (c.val ≥ 'a'.val) && decide (c.val ≤ 'z'.val)) = true ↔ _
    rw [Bool.and_eq_true, decide_eq_true_iff, decide_eq_true_iff]
    exact Iff.rfl
  show ((c.isUpper || c.isLower) || c.isDigit) = true ↔ _
  rw [Bool.or_eq_true, Bool.or_eq_true, hupper, hlower, isDigit_iff,
    or_comm (a := 'A' ≤ c ∧ c ≤ 'Z'), or_assoc]
  exact Iff.rfl

theorem isKey_iff (s : List Char) : IsKey s ↔ s ≠ [] ∧ s.all isKeyChar = true := by
  simp [IsKey, isKeyChar, ← isAlphanum_iff, or_assoc]

theorem isBareValue_iff (s : List Char) : IsBareValue s ↔ s ≠ [] ∧ s.all isValueChar = true := by
  simp [IsBareValue, isValueChar, ← isAlphanum_iff, or_assoc]

theorem isBlank_eq_false_of_isAlphanum {c : Char} (h : c.isAlphanum = true) :
    isBlank c = false := by
  have hle : ∀ {a b : Char}, a ≤ b → a.toNat ≤ b.toNat := fun hab => hab
  have hrange : 48 ≤ c.toNat ∧ c.toNat ≤ 122 := by
    rcases (isAlphanum_iff c).1 h with ⟨hlow, hhigh⟩ | ⟨hlow, hhigh⟩ | ⟨hlow, hhigh⟩
    · have hlow : 97 ≤ c.toNat := hle hlow
      have hhigh : c.toNat ≤ 122 := hle hhigh
      omega
    · have hlow : 65 ≤ c.toNat := hle hlow
      have hhigh : c.toNat ≤ 90 := hle hhigh
      omega
    · have hlow : 48 ≤ c.toNat := hle hlow
      have hhigh : c.toNat ≤ 57 := hle hhigh
      omega
  simp only [isBlank, Bool.or_eq_false_iff, Bool.and_eq_false_iff, decide_eq_false_iff_not,
    beq_eq_false_iff_ne]
  omega

theorem isBlank_eq_false_of_isKeyChar {c : Char} (h : isKeyChar c = true) : isBlank c = false := by
  simp only [isKeyChar, Bool.or_eq_true, beq_iff_eq] at h
  rcases h with (((h | rfl) | rfl) | rfl) | rfl
  · exact isBlank_eq_false_of_isAlphanum h
  all_goals decide

theorem isBlank_eq_false_of_isValueChar {c : Char} (h : isValueChar c = true) :
    isBlank c = false := by
  simp only [isValueChar, Bool.or_eq_true, beq_iff_eq] at h
  rcases h with ((((h | rfl) | rfl) | rfl) | rfl) | rfl
  · exact isBlank_eq_false_of_isAlphanum h
  all_goals decide

theorem IsKey.not_blank {s : List Char} (h : IsKey s) : ∀ c ∈ s, isBlank c = false :=
  fun c hc => isBlank_eq_false_of_isKeyChar (List.all_eq_true.1 ((isKey_iff s).1 h).2 c hc)

theorem IsBareValue.not_blank {s : List Char} (h : IsBareValue s) : ∀ c ∈ s, isBlank c = false :=
  fun c hc =>
    isBlank_eq_false_of_isValueChar (List.all_eq_true.1 ((isBareValue_iff s).1 h).2 c hc)

/-- No quote is a character of bare values. -/
theorem IsBareValue.head_ne_quote {q : Char} {s : List Char} (h : IsBareValue (q :: s)) :
    ¬ (q = '\'' ∨ q = '"') := by
  have hq : isValueChar q = true :=
    List.all_eq_true.1 ((isBareValue_iff _).1 h).2 q List.mem_cons_self
  rintro (rfl | rfl) <;> exact absurd hq (by decide)

/-! ### Runs -/

theorem isKey_of_readKey? {s key rest : List Char} (h : readKey? s = some (key, rest)) :
    IsKey key ∧ s = key ++ rest :=
  ⟨(isKey_iff key).2 ⟨ne_nil_of_readRun? h, all_of_readRun? h⟩, append_of_readRun? h⟩

theorem isBareValue_of_readBareValue? {s value rest : List Char}
    (h : readBareValue? s = some (value, rest)) : IsBareValue value ∧ s = value ++ rest :=
  ⟨(isBareValue_iff value).2 ⟨ne_nil_of_readRun? h, all_of_readRun? h⟩, append_of_readRun? h⟩

/-- A run of a class is read in full where a character of another class follows. -/
theorem readRun?_append {p : Char → Bool} {run rest : List Char} (hne : run ≠ [])
    (hall : run.all p = true) (hrest : ∀ c ∈ rest.head?, p c = false) :
    readRun? p (run ++ rest) = some (run, rest) := by
  have hall' : ∀ c ∈ run, p c = true := List.all_eq_true.1 hall
  refine readRun?_eq_some_iff.2 ⟨hne, ?_, ?_⟩
  · rw [List.takeWhile_append_of_pos hall']
    cases rest with
    | nil => simp
    | cons c rest => simp [hrest c rfl]
  · rw [List.dropWhile_append_of_pos hall']
    cases rest with
    | nil => rfl
    | cons c rest => simp [hrest c rfl]

/-- A run is read exactly where it stands at the head and a character of another class, or none,
follows. -/
theorem readRun?_eq_some_iff_append {p : Char → Bool} {s run rest : List Char} :
    readRun? p s = some (run, rest) ↔
      run ≠ [] ∧ run.all p = true ∧ s = run ++ rest ∧ ∀ c ∈ rest.head?, p c = false := by
  constructor
  · intro h
    refine ⟨ne_nil_of_readRun? h, all_of_readRun? h, append_of_readRun? h, ?_⟩
    intro c hc
    have hstop := List.head?_dropWhile_not p s
    rw [(readRun?_eq_some_iff.1 h).2.2, Option.mem_def.1 hc] at hstop
    simpa using hstop
  · rintro ⟨hne, hall, rfl, hrest⟩
    exact readRun?_append hne hall hrest

theorem readRun?_self {p : Char → Bool} {run : List Char} (hne : run ≠ [])
    (hall : run.all p = true) : readRun? p run = some (run, []) := by
  have hend : ∀ c ∈ ([] : List Char).head?, p c = false := nofun
  have hrun := readRun?_append hne hall hend
  rwa [List.append_nil] at hrun

theorem readKey?_self {key : List Char} (h : IsKey key) : readKey? key = some (key, []) :=
  readRun?_self ((isKey_iff key).1 h).1 ((isKey_iff key).1 h).2

theorem readBareValue?_self {value : List Char} (h : IsBareValue value) :
    readBareValue? value = some (value, []) :=
  readRun?_self ((isBareValue_iff value).1 h).1 ((isBareValue_iff value).1 h).2

theorem readKey?_append {key rest : List Char} (h : IsKey key)
    (hrest : ∀ c ∈ rest.head?, isKeyChar c = false) :
    readKey? (key ++ rest) = some (key, rest) :=
  readRun?_append ((isKey_iff key).1 h).1 ((isKey_iff key).1 h).2 hrest

theorem IsKey.cons {c : Char} {key : List Char} (h : IsKey key) (hc : isKeyChar c = true) :
    IsKey (c :: key) := by
  refine (isKey_iff _).2 ⟨List.cons_ne_nil c key, ?_⟩
  rw [List.all_cons, hc, ((isKey_iff key).1 h).2, Bool.and_self]

/-- A key begins with a key character, whatever follows it. -/
theorem IsKey.head {key : List Char} (h : IsKey key) (rest : List Char) :
    ∀ c ∈ (key ++ rest).head?, isKeyChar c = true := by
  obtain ⟨hne, hall⟩ := (isKey_iff key).1 h
  obtain ⟨c, key, rfl⟩ := List.exists_cons_of_ne_nil hne
  intro d hd
  obtain rfl : c = d := Option.some.inj hd
  exact List.all_eq_true.1 hall c List.mem_cons_self

/-! ## Numbers in decimal digits

The value that is read from digits is the one that place value gives them
(`decimalValue_eq_ofDigits`), zeros in front do not count, and the decimal text of a number is read
as that number. `SpellsNumber` says all of this of a text and a number. -/

/-- One decimal digit of ASCII or more, of which each counts the power of ten of its place. -/
structure SpellsNumber (s : List Char) (n : Nat) : Prop where
  nonempty : s ≠ []
  digits : ∀ c ∈ s, '0' ≤ c ∧ c ≤ '9'
  value : Nat.ofDigits 10 (s.reverse.map digitValue) = n

/-! ### Place value -/

/-- A digit behind a text moves all others up one place. -/
theorem decimalValue_eq_ofDigits (s : List Char) :
    decimalValue s = Nat.ofDigits 10 (s.reverse.map digitValue) := by
  induction s using List.reverseRecOn with
  | nil => rfl
  | append_singleton s c ih =>
    rw [decimalValue_concat, ih, List.reverse_append, List.reverse_singleton,
      List.singleton_append, List.map_cons, Nat.ofDigits_cons, Nat.add_comm]

theorem decimalValue_zeros_append (count : Nat) (s : List Char) :
    decimalValue (List.replicate count '0' ++ s) = decimalValue s := by
  induction count with
  | zero => rfl
  | succ count ih => exact ih

theorem decimalValue_toString (n : Nat) : decimalValue (toString n).toList = n := by
  rw [Nat.toString_eq_repr, Nat.toList_repr]
  exact Nat.ofDigitChars_toDigits (by decide) (by decide)

theorem all_isDigit_toString (n : Nat) : (toString n).toList.all Char.isDigit = true := by
  rw [Nat.toString_eq_repr, Nat.toList_repr]
  exact List.all_eq_true.2 fun c hc => Nat.isDigit_of_mem_toDigits (by decide) (by decide) hc

/-! ### Texts of numbers -/

theorem spellsNumber_iff {s : List Char} {n : Nat} :
    SpellsNumber s n ↔ s ≠ [] ∧ s.all Char.isDigit = true ∧ decimalValue s = n := by
  simp only [List.all_eq_true, isDigit_iff, decimalValue_eq_ofDigits]
  exact ⟨fun h => ⟨h.nonempty, h.digits, h.value⟩, fun h => ⟨h.1, h.2.1, h.2.2⟩⟩

/-- A text spells one number at most. -/
theorem SpellsNumber.unique {s : List Char} {m n : Nat} (hm : SpellsNumber s m)
    (hn : SpellsNumber s n) : m = n := hm.value.symm.trans hn.value

/-- The decimal text of a number spells it, with any count of zeros in front. -/
theorem spellsNumber_zeros_toString (count n : Nat) :
    SpellsNumber (List.replicate count '0' ++ (toString n).toList) n := by
  refine spellsNumber_iff.2 ⟨?_, ?_, ?_⟩
  · rw [Nat.toString_eq_repr, Nat.toList_repr]
    exact List.append_ne_nil_of_right_ne_nil _ Nat.toDigits_ne_nil
  · rw [List.all_append, all_isDigit_toString, Bool.and_true, List.all_replicate]
    cases count <;> rfl
  · rw [decimalValue_zeros_append, decimalValue_toString]

theorem SpellsNumber.not_blank {s : List Char} {n : Nat} (h : SpellsNumber s n) :
    ∀ c ∈ s, isBlank c = false :=
  fun c hc => isBlank_eq_false_of_isAlphanum ((isAlphanum_iff c).2 (.inr (.inr (h.digits c hc))))

/-- Blanks around the text of a number are taken away, and nothing else. -/
theorem SpellsNumber.trim_append {before s after : List Char} {n : Nat} (h : SpellsNumber s n)
    (hbefore : blank before = true) (hafter : blank after = true) :
    trim (before ++ s ++ after) = s :=
  Text.trim_append hbefore hafter h.nonempty
    (fun c hc => h.not_blank c (List.mem_of_head? hc))
    (fun c hc => h.not_blank c (List.mem_of_getLast? hc))

end Criteria.Text
