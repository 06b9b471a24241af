import Criteria.Datum.Json
import Criteria.Proofs.Text.Runs

/-!
# The nulls of a text in JSON

A null of a text is an occurrence of the word outside strings. `Shows` says how many of them a text
holds whatever follows it, and is kept by what the writer adds (`Shows.writeAt`). Main statement
(`nullCount_write`): a tree is written with as many nulls as it has nulls and numbers that are not
finite.
-/

namespace Criteria.Binary64

/-! ## The characters of numbers

Whatever the style, a finite number is written with digits, points, signs and the letter of the
exponent (`all_write`). -/

/-- The characters of a number. -/
def isNumberChar (c : Char) : Bool := c.isDigit || ['.', '-', '+', 'e'].contains c

theorem all_toDigits (n : Nat) : (Nat.toDigits 10 n).all isNumberChar = true := by
  refine List.all_eq_true.2 fun c hc => ?_
  rw [isNumberChar, Nat.isDigit_of_mem_toDigits (by decide) (by decide) hc, Bool.true_or]

theorem all_zeros (n : Nat) : (List.replicate n '0').all isNumberChar = true :=
  List.all_eq_true.2 fun c hc => by
    rw [List.eq_of_mem_replicate hc]
    rfl

section Digits

variable {digits : List Char} (h : digits.all isNumberChar = true)

include h

theorem all_take (n : Nat) : (digits.take n).all isNumberChar = true :=
  List.all_eq_true.2 fun c hc => List.all_eq_true.1 h c (List.mem_of_mem_take hc)

theorem all_drop (n : Nat) : (digits.drop n).all isNumberChar = true :=
  List.all_eq_true.2 fun c hc => List.all_eq_true.1 h c (List.mem_of_mem_drop hc)

theorem all_positionalText (pointZero : Bool) (lead : Int) :
    (positionalText pointZero digits lead).all isNumberChar = true := by
  have hpoint : isNumberChar '.' = true := rfl
  have hzero : isNumberChar '0' = true := rfl
  unfold positionalText
  split
  · simp only [List.cons_append, List.all_cons, List.all_append, all_zeros, h, hpoint, hzero,
      Bool.and_self]
  · dsimp only
    rw [List.all_append, List.all_append, all_take h, all_zeros, Bool.true_and, Bool.true_and]
    split
    · split <;> rfl
    · rw [List.all_cons, all_drop h, hpoint, Bool.and_self]

theorem all_exponentText {plus : String} (hplus : plus.toList.all isNumberChar = true)
    (lead : Int) : (exponentText plus digits lead).all isNumberChar = true := by
  have hfraction : (if digits.length ≤ 1 then [] else '.' :: digits.drop 1).all isNumberChar =
      true := by
    split
    · rfl
    · rw [List.all_cons, all_drop h]
      rfl
  have hsign : (if lead < 0 then ['-'] else plus.toList).all isNumberChar = true := by
    split
    · rfl
    · exact hplus
  have hletter : isNumberChar 'e' = true := rfl
  simp only [exponentText, List.all_append, List.all_cons, all_take h, hfraction,
    hletter, hsign, all_toDigits, Bool.and_self]

end Digits

section Styles

variable {style : Style} (hplus : style.plus.toList.all isNumberChar = true)

include hplus

theorem all_writeMagnitude (rank : Nat) :
    (writeMagnitude style rank).all isNumberChar = true := by
  unfold writeMagnitude
  split
  · split <;> rfl
  · dsimp only
    split
    · exact all_positionalText (all_toDigits _) _ _
    · exact all_exponentText (all_toDigits _) hplus _

theorem all_write {x : Binary64} (h : x.isFinite = true) :
    (x.write style).toList.all isNumberChar = true := by
  have hnan : x.isNaN = false := by
    simp only [isFinite, decide_eq_true_eq] at h
    simp only [isNaN, decide_eq_false_iff_not]
    omega
  rw [write, hnan, if_neg Bool.false_ne_true, if_pos h, String.toList_append,
    String.toList_ofList, List.all_append, all_writeMagnitude hplus, Bool.and_true]
  split <;> rfl

end Styles

end Criteria.Binary64

/-! ## Nulls -/

namespace Criteria

mutual

/-- The keys on the way to each value that is written as null: a null, or a number that is not
finite. -/
def Datum.nullPaths : Datum → List (List String)
  | .null => [[]]
  | .number x => if x.isFinite then [] else [[]]
  | .array items => Datum.itemNullPaths items
  | .object entries => Datum.entryNullPaths entries
  | _ => []

/-- The keys on the way to each null in some items; a place in an array has no key. -/
def Datum.itemNullPaths : List Datum → List (List String)
  | [] => []
  | item :: items => item.nullPaths ++ Datum.itemNullPaths items

/-- The keys on the way to each null in some entries. -/
def Datum.entryNullPaths : List (String × Datum) → List (List String)
  | [] => []
  | (key, value) :: entries => value.nullPaths.map (key :: ·) ++ Datum.entryNullPaths entries

end

namespace Json

/-- Where a character of a text stands: outside strings, inside a string, or behind a backslash
there. -/
inductive Place where
  | outside
  | inside
  | escaped
deriving Repr, DecidableEq

/-- The place behind a character that stands at a place. -/
def Place.next : Place → Char → Place
  | .outside, c => if c = '"' then .inside else .outside
  | .inside, c => if c = '"' then .outside else if c = '\\' then .escaped else .inside
  | .escaped, _ => .inside

/-- The characters that stand outside strings, where a text begins at a place. The quote at which a
string begins stands outside it. -/
def outside : Place → List Char → List Char
  | _, [] => []
  | .outside, c :: rest => c :: outside (Place.next .outside c) rest
  | p, c :: rest => outside (p.next c) rest

/-- How often the word for null occurs among some characters. -/
def wordCount : List Char → Nat
  | [] => 0
  | c :: rest => (if ['n', 'u', 'l', 'l'].isPrefixOf (c :: rest) then 1 else 0) + wordCount rest

/-- How many nulls a text holds. -/
def nullCount (s : String) : Nat := wordCount (outside .outside s.toList)

/-- A text ends outside strings, and holds so many nulls whatever follows it. -/
structure Shows (s : String) (count : Nat) : Prop where
  ends : s.toList.foldl Place.next .outside = .outside
  counts : ∀ rest, wordCount (outside .outside s.toList ++ rest) = count + wordCount rest

theorem Shows.nullCount_eq {s : String} {count : Nat} (h : Shows s count) :
    nullCount s = count := by
  have hcount := h.counts []
  rwa [List.append_nil] at hcount

/-! ### Texts put together -/

theorem outside_append (p : Place) (s t : List Char) :
    outside p (s ++ t) = outside p s ++ outside (s.foldl Place.next p) t := by
  induction s generalizing p with
  | nil => cases p <;> rfl
  | cons c s ih => cases p <;> simp [outside, ih]

theorem Shows.append {s t : String} {m n : Nat} (hs : Shows s m) (ht : Shows t n) :
    Shows (s ++ t) (m + n) where
  ends := by rw [String.toList_append, List.foldl_append, hs.ends, ht.ends]
  counts rest := by
    rw [String.toList_append, outside_append, hs.ends, List.append_assoc, hs.counts, ht.counts,
      Nat.add_assoc]

/-- Adding what holds no null. -/
theorem Shows.append_zero {s t : String} {n : Nat} (hs : Shows s n) (ht : Shows t 0) :
    Shows (s ++ t) n := hs.append ht

theorem shows_empty : Shows "" 0 := ⟨rfl, fun _ => (Nat.zero_add _).symm⟩

theorem shows_null : Shows "null" 1 where
  ends := rfl
  counts rest := by simp [outside, Place.next, wordCount]

/-- Without a quote a text stays outside strings. -/
theorem outside_of_not_mem {s : List Char} (h : '"' ∉ s) :
    s.foldl Place.next .outside = .outside ∧ outside .outside s = s := by
  induction s with
  | nil => exact ⟨rfl, rfl⟩
  | cons c s ih =>
    obtain ⟨hc, hs⟩ := not_or.1 (mt List.mem_cons.2 h)
    obtain ⟨hends, hall⟩ := ih hs
    have hnext : Place.next .outside c = .outside := if_neg (Ne.symm hc)
    rw [List.foldl_cons, outside, hnext, hends, hall]
    exact ⟨rfl, rfl⟩

/-- Characters without its first letter are no part of the word. -/
theorem wordCount_append_of_not_mem {s : List Char} (h : 'n' ∉ s) (rest : List Char) :
    wordCount (s ++ rest) = wordCount rest := by
  induction s with
  | nil => rfl
  | cons c s ih =>
    obtain ⟨hc, hs⟩ := not_or.1 (mt List.mem_cons.2 h)
    have hword : ['n', 'u', 'l', 'l'].isPrefixOf (c :: (s ++ rest)) = false := by
      rw [List.isPrefixOf, beq_false_of_ne hc, Bool.false_and]
    rw [List.cons_append, wordCount, hword, ih hs]
    exact Nat.zero_add _

theorem shows_of_not_mem {s : String} (hquote : '"' ∉ s.toList) (hn : 'n' ∉ s.toList) :
    Shows s 0 where
  ends := (outside_of_not_mem hquote).1
  counts rest := by
    rw [(outside_of_not_mem hquote).2, wordCount_append_of_not_mem hn, Nat.zero_add]

/-! ### Strings -/

/-- Characters that stand in a string from its inside to its inside. -/
structure Stays (s : List Char) : Prop where
  ends : s.foldl Place.next .inside = .inside
  outside : outside .inside s = []

theorem Stays.append {s t : List Char} (hs : Stays s) (ht : Stays t) : Stays (s ++ t) where
  ends := by rw [List.foldl_append, hs.ends, ht.ends]
  outside := by rw [outside_append, hs.ends, hs.outside, ht.outside, List.nil_append]

theorem stays_singleton {c : Char} (hquote : c ≠ '"') (hbackslash : c ≠ '\\') : Stays [c] := by
  have hnext : Place.next .inside c = .inside := by simp [Place.next, hquote, hbackslash]
  refine ⟨hnext, ?_⟩
  rw [outside, hnext, outside]
  exact nofun

theorem stays_hexDigit {n : Nat} (h : n < 16) : Stays [hexDigit n] := by
  have hall : ∀ n : Fin 16, hexDigit n ≠ '"' ∧ hexDigit n ≠ '\\' := by decide
  exact stays_singleton (hall ⟨n, h⟩).1 (hall ⟨n, h⟩).2

/-- However a character is written, the string goes on behind it. -/
theorem stays_escape (c : Char) : Stays (escape c) := by
  unfold escape
  split
  · exact ⟨rfl, rfl⟩
  next hquote =>
  split
  · exact ⟨rfl, rfl⟩
  next hbackslash =>
  split
  · exact stays_singleton hquote hbackslash
  next hcontrol =>
  split
  · exact ⟨rfl, rfl⟩
  split
  · exact ⟨rfl, rfl⟩
  split
  · exact ⟨rfl, rfl⟩
  split
  · exact ⟨rfl, rfl⟩
  split
  · exact ⟨rfl, rfl⟩
  · -- a code of four digits, of which the last two depend on the character
    have hcode : Stays ['\\', 'u', '0', '0'] := ⟨rfl, rfl⟩
    exact hcode.append ((stays_hexDigit (by omega)).append (stays_hexDigit (by omega)))

theorem stays_flatMap_escape (s : List Char) : Stays (s.flatMap escape) := by
  induction s with
  | nil => exact ⟨rfl, rfl⟩
  | cons c s ih =>
    rw [List.flatMap_cons]
    exact (stays_escape c).append ih

theorem shows_quote (s : String) : Shows (quote s) 0 := by
  have hstays := stays_flatMap_escape s.toList
  have hends : ('"' :: s.toList.flatMap escape ++ ['"']).foldl Place.next .outside = .outside := by
    rw [List.cons_append, List.foldl_cons, List.foldl_append]
    show List.foldl Place.next (List.foldl Place.next .inside _) ['"'] = .outside
    rw [hstays.ends]
    rfl
  have houtside : outside .outside ('"' :: s.toList.flatMap escape ++ ['"']) = ['"'] := by
    rw [List.cons_append, outside]
    show '"' :: outside .inside _ = _
    rw [outside_append, hstays.ends, hstays.outside]
    rfl
  refine ⟨?_, fun rest => ?_⟩
  · rw [quote, String.toList_ofList, hends]
  · rw [quote, String.toList_ofList, houtside, wordCount_append_of_not_mem (by decide),
      Nat.zero_add]

/-! ### Numbers -/

theorem shows_of_number {s : String} (h : s.toList.all Binary64.isNumberChar = true) :
    Shows s 0 :=
  shows_of_not_mem (Text.not_mem_of_class h (by decide)) (Text.not_mem_of_class h (by decide))

theorem shows_toString (n : Int) : Shows (toString n) 0 := by
  refine shows_of_number ?_
  show n.repr.toList.all Binary64.isNumberChar = true
  cases n with
  | ofNat n =>
    show n.repr.toList.all Binary64.isNumberChar = true
    rw [Nat.toList_repr, Binary64.all_toDigits]
  | negSucc n =>
    show ("-" ++ n.succ.repr).toList.all Binary64.isNumberChar = true
    rw [String.toList_append, List.all_append, Nat.toList_repr, Binary64.all_toDigits]
    rfl

/-- A number that is not finite is written as null. -/
theorem shows_writeNumber (x : Binary64) : Shows (writeNumber x) (if x.isFinite then 0 else 1) := by
  unfold writeNumber
  split
  · next hfinite => exact shows_of_number (Binary64.all_write (by decide) hfinite)
  · exact shows_null

/-! ### Trees -/

theorem shows_lineBreak (layout : Layout) (level : Nat) : Shows (layout.lineBreak level) 0 := by
  cases layout with
  | compact => exact shows_empty
  | indented =>
    have hbreak : Shows "\n" 0 := shows_of_not_mem (by decide) (by decide)
    refine hbreak.append_zero (shows_of_not_mem ?_ ?_) <;> rw [String.toList_ofList] <;>
      exact fun h => absurd (List.eq_of_mem_replicate h) (by decide)

theorem shows_colon (layout : Layout) : Shows layout.colon 0 := by
  cases layout <;> exact shows_of_not_mem (by decide) (by decide)

/-- What the writer adds before the value of an entry. -/
theorem Shows.append_key {out mark : String} {n : Nat} (h : Shows out n) (hmark : Shows mark 0)
    (layout : Layout) (level : Nat) (key : String) :
    Shows (out ++ mark ++ layout.lineBreak level ++ quote key ++ layout.colon) n := by
  have hbegin := (h.append_zero hmark).append_zero (shows_lineBreak layout level)
  exact (hbegin.append_zero (shows_quote key)).append_zero (shows_colon layout)

mutual

/-- The writer adds as many nulls to a text as the tree shows. -/
theorem Shows.writeAt (layout : Layout) : ∀ (d : Datum) (level : Nat) {out : String} {n : Nat},
    Shows out n → Shows (writeAt layout level out d) (n + d.nullPaths.length)
  | .null, level, out, n, h => by
    rw [Json.writeAt]
    exact h.append shows_null
  | .boolean b, level, out, n, h => by
    rw [Json.writeAt]
    refine h.append_zero ?_
    cases b <;> exact shows_of_not_mem (by decide) (by decide)
  | .integer i, level, out, n, h => by
    rw [Json.writeAt]
    exact h.append_zero (shows_toString i)
  | .number x, level, out, n, h => by
    have hlength : (Datum.number x).nullPaths.length = if x.isFinite then 0 else 1 := by
      rw [Datum.nullPaths]
      split <;> rfl
    rw [Json.writeAt, hlength]
    exact h.append (shows_writeNumber x)
  | .text s, level, out, n, h => by
    rw [Json.writeAt]
    exact h.append_zero (shows_quote s)
  | .array [], level, out, n, h => by
    rw [Json.writeAt]
    exact h.append_zero (shows_of_not_mem (by decide) (by decide))
  | .array (item :: items), level, out, n, h => by
    have hopen : Shows "[" 0 := shows_of_not_mem (by decide) (by decide)
    have hclose : Shows "]" 0 := shows_of_not_mem (by decide) (by decide)
    have hitem := Shows.writeAt layout item (level + 1)
      ((h.append_zero hopen).append_zero (shows_lineBreak layout (level + 1)))
    have hitems := Shows.writeItems layout items (level + 1) hitem
    rw [Json.writeAt, Datum.nullPaths, Datum.itemNullPaths, List.length_append, ← Nat.add_assoc]
    exact (hitems.append_zero (shows_lineBreak layout level)).append_zero hclose
  | .object [], level, out, n, h => by
    rw [Json.writeAt]
    exact h.append_zero (shows_of_not_mem (by decide) (by decide))
  | .object ((key, value) :: entries), level, out, n, h => by
    have hopen : Shows "\x7b" 0 := shows_of_not_mem (by decide) (by decide)
    have hclose : Shows "\x7d" 0 := shows_of_not_mem (by decide) (by decide)
    have hvalue :=
      Shows.writeAt layout value (level + 1) (h.append_key hopen layout (level + 1) key)
    have hentries := Shows.writeEntries layout entries (level + 1) hvalue
    rw [Json.writeAt, Datum.nullPaths, Datum.entryNullPaths, List.length_append, List.length_map,
      ← Nat.add_assoc]
    exact (hentries.append_zero (shows_lineBreak layout level)).append_zero hclose

theorem Shows.writeItems (layout : Layout) : ∀ (items : List Datum) (level : Nat) {out : String}
    {n : Nat}, Shows out n →
      Shows (writeItems layout level out items) (n + (Datum.itemNullPaths items).length)
  | [], level, out, n, h => by
    rw [Json.writeItems]
    exact h
  | item :: items, level, out, n, h => by
    have hcomma : Shows "," 0 := shows_of_not_mem (by decide) (by decide)
    have hitem := Shows.writeAt layout item level
      ((h.append_zero hcomma).append_zero (shows_lineBreak layout level))
    rw [Json.writeItems, Datum.itemNullPaths, List.length_append, ← Nat.add_assoc]
    exact Shows.writeItems layout items level hitem

theorem Shows.writeEntries (layout : Layout) : ∀ (entries : List (String × Datum)) (level : Nat)
    {out : String} {n : Nat}, Shows out n →
      Shows (writeEntries layout level out entries) (n + (Datum.entryNullPaths entries).length)
  | [], level, out, n, h => by
    rw [Json.writeEntries]
    exact h
  | (key, value) :: entries, level, out, n, h => by
    have hcomma : Shows "," 0 := shows_of_not_mem (by decide) (by decide)
    have hvalue := Shows.writeAt layout value level (h.append_key hcomma layout level key)
    rw [Json.writeEntries, Datum.entryNullPaths, List.length_append, List.length_map,
      ← Nat.add_assoc]
    exact Shows.writeEntries layout entries level hvalue

end

/-- A tree is written with a null for each of its nulls and its numbers that are not finite, and
with no other. -/
theorem nullCount_write (layout : Layout) (d : Datum) :
    nullCount (write layout d) = d.nullPaths.length := by
  have hshows := Shows.writeAt layout d 0 shows_empty
  rw [Nat.zero_add] at hshows
  exact hshows.nullCount_eq

/-- The word for null in a string is none. -/
example : nullCount (write .compact (.array [.null, .text "a \"null\""])) = 1 := by decide

end Json

end Criteria
