
/-!
# Texts

The characters of a text and the runs of them that mean something: blanks and the words between
them, keys and bare values, and decimal digits.
-/

namespace Criteria.Text

/-! ## Blank characters

The Unicode property `White_Space`, and the two things texts do with it here: losing it at both
ends (`trim`) and being cut into the words it separates (`words`). -/

/-- The characters with the Unicode property `White_Space`. -/
def isBlank (c : Char) : Bool :=
  let n := c.toNat
  (0x09 ≤ n && n ≤ 0x0D) || n == 0x20 || n == 0x85 || n == 0xA0 || n == 0x1680 ||
    (0x2000 ≤ n && n ≤ 0x200A) || n == 0x2028 || n == 0x2029 || n == 0x202F || n == 0x205F ||
    n == 0x3000

/-- A text is blank when it holds blank characters only; the empty text is blank. -/
def blank (s : List Char) : Bool := s.all isBlank

/-- The text without the blank characters at either end. -/
def trim (s : List Char) : List Char :=
  ((s.dropWhile isBlank).reverse.dropWhile isBlank).reverse

/-- The maximal runs of characters that are not blank, in order. -/
def words (s : List Char) : List (List Char) :=
  (s.splitOnP isBlank).filter fun w => !w.isEmpty

/-- The words of a text, as texts. -/
def wordsOf (s : String) : List String :=
  (words s.toList).map String.ofList

theorem blank_append {s t : List Char} :
    blank (s ++ t) = true ↔ blank s = true ∧ blank t = true := by
  rw [blank, List.all_append, Bool.and_eq_true, blank, blank]

theorem dropWhile_isBlank_eq_nil {s : List Char} :
    s.dropWhile isBlank = [] ↔ ∀ c ∈ s, isBlank c = true := by
  induction s with
  | nil => simp
  | cons c s ih => by_cases h : isBlank c <;> simp [h, ih]

/-- Nothing is left of a text by trimming exactly when it is blank. -/
theorem trim_eq_nil_iff (s : List Char) : trim s = [] ↔ blank s = true := by
  simp only [trim, blank, List.reverse_eq_nil_iff, dropWhile_isBlank_eq_nil, List.mem_reverse,
    List.all_eq_true]
  constructor
  · intro h c hc
    rw [← List.takeWhile_append_dropWhile (p := isBlank) (l := s)] at hc
    rcases List.mem_append.1 hc with hc | hc
    · exact List.all_eq_true.1 List.all_takeWhile c hc
    · exact h c hc
  · exact fun h c hc => h c ((List.dropWhile_sublist _).subset hc)

theorem dropWhile_isBlank_eq_self {s : List Char} (h : ∀ c ∈ s.head?, isBlank c = false) :
    s.dropWhile isBlank = s := by
  cases s with
  | nil => rfl
  | cons c s => exact List.dropWhile_cons_of_neg (by simp [h c rfl])

/-- A text without blanks at its ends is left as it is. -/
theorem trim_eq_self {s : List Char} (hhead : ∀ c ∈ s.head?, isBlank c = false)
    (hlast : ∀ c ∈ s.getLast?, isBlank c = false) : trim s = s := by
  have hreverse : ∀ c ∈ s.reverse.head?, isBlank c = false := by
    rw [List.head?_reverse]
    exact hlast
  rw [trim, dropWhile_isBlank_eq_self hhead, dropWhile_isBlank_eq_self hreverse,
    List.reverse_reverse]

/-- Trimming leaves of a text what follows the blanks at its head, up to further blanks. -/
theorem exists_trim_append (s : List Char) :
    ∃ after, blank after = true ∧ trim s ++ after = s.dropWhile isBlank := by
  refine ⟨((s.dropWhile isBlank).reverse.takeWhile isBlank).reverse, ?_, ?_⟩
  · rw [blank, List.all_reverse]
    exact List.all_takeWhile
  · rw [trim, ← List.reverse_append, List.takeWhile_append_dropWhile, List.reverse_reverse]

/-- A text is what is left of it by trimming, between blanks. -/
theorem exists_append_trim (s : List Char) :
    ∃ before after, blank before = true ∧ blank after = true ∧ s = before ++ trim s ++ after := by
  obtain ⟨after, hafter, htrim⟩ := exists_trim_append s
  refine ⟨s.takeWhile isBlank, after, List.all_takeWhile, hafter, ?_⟩
  rw [List.append_assoc, htrim, List.takeWhile_append_dropWhile]

/-- A trimmed text does not begin with a blank. -/
theorem head?_trim_not_blank (s : List Char) : ∀ c ∈ (trim s).head?, isBlank c = false := by
  intro c hc
  obtain ⟨after, -, htrim⟩ := exists_trim_append s
  obtain ⟨rest, hrest⟩ := List.head?_eq_some_iff.1 hc
  have hstop := List.head?_dropWhile_not isBlank s
  rw [← htrim, hrest, List.cons_append, List.head?_cons] at hstop
  simpa using hstop

/-- Trimming takes the blanks around a text away that does not begin or end with one. -/
theorem trim_append {before s after : List Char} (hbefore : blank before = true)
    (hafter : blank after = true) (hne : s ≠ []) (hhead : ∀ c ∈ s.head?, isBlank c = false)
    (hlast : ∀ c ∈ s.getLast?, isBlank c = false) : trim (before ++ s ++ after) = s := by
  have hhead' : ∀ c ∈ (s ++ after).head?, isBlank c = false := by
    obtain ⟨c, s, rfl⟩ := List.exists_cons_of_ne_nil hne
    exact hhead
  have hreverse : ∀ c ∈ s.reverse.head?, isBlank c = false := by
    rwa [List.head?_reverse]
  rw [trim, List.append_assoc, List.dropWhile_append_of_pos (List.all_eq_true.1 hbefore),
    dropWhile_isBlank_eq_self hhead', List.reverse_append,
    List.dropWhile_append_of_pos (fun c hc => List.all_eq_true.1 hafter c (List.mem_reverse.1 hc)),
    dropWhile_isBlank_eq_self hreverse, List.reverse_reverse]

/-! ## The alphabets of keys and of bare values

A key names a field or is a search word; a bare value stands after a comparator without quotes.
Both are runs of ASCII characters from fixed classes, and `readRun?` takes such a run off the
head of a text. -/

/-- Letters and digits of ASCII and the four marks `_ $ . -` make up keys. -/
def isKeyChar (c : Char) : Bool :=
  c.isAlphanum || c == '_' || c == '$' || c == '.' || c == '-'

/-- Letters and digits of ASCII and the five marks `@ . - : _` make up bare values. -/
def isValueChar (c : Char) : Bool :=
  c.isAlphanum || c == '@' || c == '.' || c == '-' || c == ':' || c == '_'

/-- The longest run of characters of a class at the head of a text, and what follows it; a text
that does not begin with such a character has none. -/
def readRun? (p : Char → Bool) (s : List Char) : Option (List Char × List Char) :=
  if (s.takeWhile p).isEmpty then none else some (s.takeWhile p, s.dropWhile p)

/-- A key at the head of a text. -/
def readKey? (s : List Char) : Option (List Char × List Char) := readRun? isKeyChar s

/-- A bare value at the head of a text. -/
def readBareValue? (s : List Char) : Option (List Char × List Char) := readRun? isValueChar s

theorem readRun?_eq_some_iff {p : Char → Bool} {s run rest : List Char} :
    readRun? p s = some (run, rest) ↔
      run ≠ [] ∧ s.takeWhile p = run ∧ s.dropWhile p = rest := by
  unfold readRun?
  constructor
  · intro h
    split at h
    · exact nomatch h
    · next hne =>
      obtain ⟨rfl, rfl⟩ := Prod.mk.inj (Option.some.inj h)
      exact ⟨fun hnil => hne (List.isEmpty_iff.2 hnil), rfl, rfl⟩
  · rintro ⟨hne, rfl, rfl⟩
    rw [if_neg (fun h => hne (List.isEmpty_iff.1 h))]

/-- A run and its rest make up the text. -/
theorem append_of_readRun? {p : Char → Bool} {s run rest : List Char}
    (h : readRun? p s = some (run, rest)) : s = run ++ rest := by
  obtain ⟨-, rfl, rfl⟩ := readRun?_eq_some_iff.1 h
  exact List.takeWhile_append_dropWhile.symm

theorem ne_nil_of_readRun? {p : Char → Bool} {s run rest : List Char}
    (h : readRun? p s = some (run, rest)) : run ≠ [] := (readRun?_eq_some_iff.1 h).1

/-- A run holds characters of its class only. -/
theorem all_of_readRun? {p : Char → Bool} {s run rest : List Char}
    (h : readRun? p s = some (run, rest)) : run.all p = true := by
  obtain ⟨-, rfl, -⟩ := readRun?_eq_some_iff.1 h
  exact List.all_takeWhile

theorem length_of_readRun? {p : Char → Bool} {s run rest : List Char}
    (h : readRun? p s = some (run, rest)) : rest.length < s.length := by
  have hpos := List.length_pos_iff.2 (ne_nil_of_readRun? h)
  rw [append_of_readRun? h, List.length_append]
  omega

/-! ## Decimal digits

Reading runs of decimal digits as natural numbers and writing numbers with a fixed count of
digits. `decimalValue_lt` bounds a number by the count of its digits, and
`decimalValue_fixedDigits` says that a number written in enough digits reads back. -/

/-- What a decimal digit counts. -/
def digitValue (c : Char) : Nat := c.toNat - 48

/-- The digit that counts `d`, for `d` below ten. -/
def digitChar (d : Nat) : Char := Char.ofNat (48 + d)

/-- The number that a run of digits denotes. -/
def decimalValue (digits : List Char) : Nat :=
  digits.foldl (fun n c => 10 * n + digitValue c) 0

/-- The last `width` decimal digits of a number, zeros in front. -/
def fixedDigits : Nat → Nat → List Char
  | 0, _ => []
  | width + 1, n => fixedDigits width (n / 10) ++ [digitChar (n % 10)]

/-- Exactly `width` digits at the head of a text as a number, and what follows them. -/
def readDigits? (width : Nat) (s : List Char) : Option (Nat × List Char) :=
  let digits := s.take width
  if digits.length = width ∧ digits.all Char.isDigit then
    some (decimalValue digits, s.drop width)
  else
    none

/-- A text that consists of digits only, and of at least one, as a number. -/
def readNatural? (s : List Char) : Option Nat :=
  if s ≠ [] ∧ s.all Char.isDigit then some (decimalValue s) else none

theorem digitValue_digitChar {d : Nat} (h : d < 10) : digitValue (digitChar d) = d := by
  have : ∀ d : Fin 10, digitValue (digitChar d) = d := by decide
  exact this ⟨d, h⟩

theorem isDigit_digitChar {d : Nat} (h : d < 10) : (digitChar d).isDigit = true := by
  have : ∀ d : Fin 10, (digitChar d).isDigit = true := by decide
  exact this ⟨d, h⟩

@[simp] theorem decimalValue_nil : decimalValue [] = 0 := rfl

theorem decimalValue_concat (s : List Char) (c : Char) :
    decimalValue (s ++ [c]) = 10 * decimalValue s + digitValue c := by
  simp [decimalValue]

theorem digitValue_lt {c : Char} (h : c.isDigit = true) : digitValue c < 10 := by
  simp only [Char.isDigit, Bool.and_eq_true, decide_eq_true_eq, UInt32.le_iff_toNat_le] at h
  have hle : c.toNat ≤ 57 := h.2
  unfold digitValue
  omega

/-- A number of so many digits is below that power of ten. -/
theorem decimalValue_lt {s : List Char} (h : s.all Char.isDigit = true) :
    decimalValue s < Nat.pow 10 s.length := by
  -- on the digits, with any number read before them
  have hfold : ∀ n,
      s.foldl (fun n c => 10 * n + digitValue c) n < (n + 1) * Nat.pow 10 s.length := by
    induction s with
    | nil =>
      intro n
      simp
    | cons c rest ih =>
      intro n
      obtain ⟨hc, hrest⟩ := Bool.and_eq_true_iff.1 h
      have hlt := digitValue_lt hc
      calc rest.foldl (fun n c => 10 * n + digitValue c) (10 * n + digitValue c)
        _ < (10 * n + digitValue c + 1) * Nat.pow 10 rest.length := ih hrest _
        _ ≤ (n + 1) * 10 * Nat.pow 10 rest.length := Nat.mul_le_mul_right _ (by omega)
        _ = (n + 1) * Nat.pow 10 (rest.length + 1) := by
          rw [Nat.mul_assoc, Nat.mul_comm 10]
          rfl
  have hzero := hfold 0
  rwa [Nat.zero_add, Nat.one_mul] at hzero

@[simp] theorem length_fixedDigits (width n : Nat) : (fixedDigits width n).length = width := by
  induction width generalizing n with
  | zero => rfl
  | succ w ih => simp [fixedDigits, ih]

theorem all_isDigit_fixedDigits (width n : Nat) :
    (fixedDigits width n).all Char.isDigit = true := by
  induction width generalizing n with
  | zero => rfl
  | succ w ih =>
    simp [fixedDigits, ih, isDigit_digitChar (Nat.mod_lt n (by decide : 10 > 0))]

/-- A number written in enough digits reads back. -/
theorem decimalValue_fixedDigits {width n : Nat} (h : n < Nat.pow 10 width) :
    decimalValue (fixedDigits width n) = n := by
  induction width generalizing n with
  | zero => simp at h; simp [fixedDigits, h]
  | succ w ih =>
    have hdiv : n / 10 < Nat.pow 10 w := by
      have hpow : Nat.pow 10 (w + 1) = Nat.pow 10 w * 10 := rfl
      omega
    rw [fixedDigits, decimalValue_concat, ih hdiv,
      digitValue_digitChar (Nat.mod_lt n (by decide : 10 > 0))]
    omega

theorem digitChar_digitValue {c : Char} (h : c.isDigit = true) : digitChar (digitValue c) = c := by
  simp only [Char.isDigit, Bool.and_eq_true, decide_eq_true_eq, UInt32.le_iff_toNat_le] at h
  have hle : 48 ≤ c.toNat := h.1
  rw [digitChar, digitValue, Nat.add_sub_cancel' hle, Char.ofNat_toNat]

/-- Digits are what their number is written as with their count of digits. -/
theorem fixedDigits_decimalValue {width : Nat} {s : List Char} (hlength : s.length = width)
    (hall : s.all Char.isDigit = true) : fixedDigits width (decimalValue s) = s := by
  induction width generalizing s with
  | zero =>
    rw [List.eq_nil_of_length_eq_zero hlength]
    rfl
  | succ width ih =>
    -- the last digit comes off the end
    rcases List.eq_nil_or_concat s with rfl | ⟨init, c, rfl⟩
    · exact absurd hlength (Nat.succ_ne_zero width).symm
    · rw [List.concat_eq_append] at hlength hall ⊢
      rw [List.length_append, List.length_singleton] at hlength
      simp only [List.all_append, List.all_cons, List.all_nil, Bool.and_true,
        Bool.and_eq_true] at hall
      have hlt := digitValue_lt hall.2
      have hdiv : (10 * decimalValue init + digitValue c) / 10 = decimalValue init := by omega
      have hmod : (10 * decimalValue init + digitValue c) % 10 = digitValue c := by omega
      rw [decimalValue_concat, fixedDigits, hdiv, hmod, ih (Nat.succ.inj hlength) hall.1,
        digitChar_digitValue hall.2]

theorem readDigits?_eq_some_iff {width n : Nat} {s rest : List Char} :
    readDigits? width s = some (n, rest) ↔
      n < Nat.pow 10 width ∧ s = fixedDigits width n ++ rest := by
  rw [readDigits?]
  constructor
  · intro h
    split at h
    · next hdigits =>
      obtain ⟨hlength, hall⟩ := hdigits
      obtain ⟨rfl, rfl⟩ := Prod.mk.inj (Option.some.inj h)
      have hlt := decimalValue_lt hall
      rw [hlength] at hlt
      refine ⟨hlt, ?_⟩
      rw [fixedDigits_decimalValue hlength hall, List.take_append_drop]
    · exact nomatch h
  · rintro ⟨hlt, rfl⟩
    have htake : (fixedDigits width n ++ rest).take width = fixedDigits width n :=
      List.take_left' (length_fixedDigits width n)
    have hdrop : (fixedDigits width n ++ rest).drop width = rest :=
      List.drop_left' (length_fixedDigits width n)
    simp only [htake, hdrop, length_fixedDigits, all_isDigit_fixedDigits, and_self, if_true,
      decimalValue_fixedDigits hlt]

/-- Zeros filled in on the right. -/
theorem decimalValue_append_zeros (s : List Char) (count : Nat) :
    decimalValue (s ++ List.replicate count '0') = decimalValue s * Nat.pow 10 count := by
  induction count with
  | zero => simp
  | succ count ih =>
    have hzero : digitValue '0' = 0 := rfl
    rw [List.replicate_succ', ← List.append_assoc, decimalValue_concat, ih, hzero, Nat.add_zero,
      Nat.mul_left_comm, Nat.mul_comm 10]
    rfl

/-- A multiple of a power of ten is written with zeros at its end. -/
theorem fixedDigits_mul_pow (width n count : Nat) :
    fixedDigits (width + count) (n * Nat.pow 10 count) =
      fixedDigits width n ++ List.replicate count '0' := by
  induction count with
  | zero => simp
  | succ count ih =>
    have hpow : n * Nat.pow 10 (count + 1) = 10 * (n * Nat.pow 10 count) := by
      rw [Nat.mul_left_comm, Nat.mul_comm 10]
      rfl
    have hdiv : n * Nat.pow 10 (count + 1) / 10 = n * Nat.pow 10 count := by omega
    have hmod : n * Nat.pow 10 (count + 1) % 10 = 0 := by omega
    have hzero : digitChar 0 = '0' := rfl
    rw [← Nat.add_assoc, fixedDigits, hdiv, hmod, ih, hzero, List.append_assoc,
      ← List.replicate_succ']

end Criteria.Text
