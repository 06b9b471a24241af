import Criteria.Proofs.Percent

/-!
# Query strings read back

`QueryString.pairs` reads a query string as a server does, and an encoded query string is read as
the text that was encoded would be, but for the decoding (`parts_encode`). Main statement
(`pairs_encodeUri_assemble`): an assembled and encoded query string is read as the pairs that it
was assembled from exactly when no value has a `&` or a `#`.
-/

namespace Criteria.QueryString

open Percent

/-! ## The reader -/

/-- The text behind a question mark in front. -/
def afterMark : List Char → List Char
  | '?' :: rest => rest
  | s => s

/-- The pieces between the `&` signs; an empty one in front is none. -/
def pieces (s : List Char) : List (List Char) :=
  match s.splitOn '&' with
  | [] :: rest => rest
  | all => all

/-- The value behind an `=`. -/
def afterEquals? : List Char → Option (List Char)
  | [] => none
  | _ :: value => some value

/-- The name of a piece, up to the first `=`, and the value behind it, if there is one. -/
def part (piece : List Char) : List Char × Option (List Char) :=
  (piece.takeWhile (· ≠ '='), afterEquals? (piece.dropWhile (· ≠ '=')))

/-- The names of a query string up to the first `#`, with their values before they are decoded. -/
def parts (s : List Char) : List (List Char × Option (List Char)) :=
  (pieces ((afterMark s).takeWhile (· ≠ '#'))).map part

/-- The names of a query string with their decoded values, where a name has such a value. -/
def pairs (s : String) : List (String × Option String) :=
  (parts s.toList).map fun (name, value) => (String.ofList name, value.bind decode?)

/-! ## Encoded query strings -/

theorem afterMark_cons {c : Char} (h : c ≠ '?') (s : List Char) : afterMark (c :: s) = c :: s := by
  rw [afterMark]
  intro rest heq
  exact h (List.cons.inj heq).1

theorem afterMark_encode (s : List Char) :
    afterMark (s.flatMap encodeChar) = (afterMark s).flatMap encodeChar := by
  cases s with
  | nil => rfl
  | cons c s =>
    by_cases hc : c = '?'
    · subst hc
      rfl
    · have hmark := not_mem_encodeChar (by decide) hc
      obtain ⟨d, ds, hd⟩ := List.exists_cons_of_ne_nil (encodeChar_ne_nil c)
      rw [hd] at hmark
      have hne : d ≠ '?' := by
        intro heq
        subst heq
        exact hmark List.mem_cons_self
      rw [afterMark_cons hc, List.flatMap_cons, hd, List.cons_append, afterMark_cons hne]

theorem pieces_encode (s : List Char) :
    pieces (s.flatMap encodeChar) = (pieces s).map (List.flatMap encodeChar) := by
  unfold pieces
  rw [splitOn_encode (by decide)]
  cases s.splitOn '&' with
  | nil => rfl
  | cons first rest =>
    cases first with
    | nil => rfl
    | cons c first =>
      -- a first piece that holds something is encoded as something, so it stays a piece
      rw [List.map_cons]
      split
      · next heq =>
        have hnil := encode_eq_nil_iff.1 (List.cons.inj heq).1
        exact absurd hnil (List.cons_ne_nil c first)
      · rfl

theorem part_encode (piece : List Char) :
    part (piece.flatMap encodeChar) =
      ((part piece).1.flatMap encodeChar, (part piece).2.map (List.flatMap encodeChar)) := by
  have hmark : '=' ∈ uriMarks := by decide
  rw [part, part, takeWhile_encode hmark, dropWhile_encode hmark]
  rcases Text.dropWhile_ne_eq '=' piece with heq | ⟨value, heq⟩
  · rw [heq]
    rfl
  · rw [heq]
    rfl

/-- Encoding a query string encodes its names and values. -/
theorem parts_encode (s : List Char) :
    parts (s.flatMap encodeChar) =
      (parts s).map fun (name, value) =>
        (name.flatMap encodeChar, value.map (List.flatMap encodeChar)) := by
  rw [parts, afterMark_encode, takeWhile_encode (by decide), pieces_encode, parts, List.map_map,
    List.map_map]
  apply List.map_congr_left
  intro piece _
  exact part_encode piece

/-- An encoded query string is read as the text that was encoded would be without decoding. -/
theorem pairs_encodeUri (s : String) :
    pairs (encodeUri s) =
      (parts s.toList).map fun (name, value) =>
        (String.ofList (name.flatMap encodeChar), value.map String.ofList) := by
  rw [pairs, encodeUri, String.toList_ofList, parts_encode, List.map_map]
  apply List.map_congr_left
  rintro ⟨name, value⟩ -
  cases value with
  | none => rfl
  | some value => exact congrArg (Prod.mk _) (decode?_encode value)

/-! ## Assembled query strings -/

/-- A text without the characters that end a value. -/
def Contained (s : List Char) : Prop := '&' ∉ s ∧ '#' ∉ s

/-- A text that is a name as it stands. -/
def IsName (s : List Char) : Prop := s.all isUriChar = true ∧ Contained s ∧ '=' ∉ s

/-- A name and a value around an `=`. -/
def piece (p : String × String) : List Char := p.1.toList ++ '=' :: p.2.toList

/-- The pieces of some pairs with a `&` in front of each. -/
def assemble (ps : List (String × String)) : List Char := ps.flatMap fun p => '&' :: piece p

theorem mem_splitOn_of_mem_pieces {s piece : List Char} (h : piece ∈ pieces s) :
    piece ∈ s.splitOn '&' := by
  unfold pieces at h
  split at h
  · next heq =>
    rw [heq]
    exact List.mem_cons_of_mem [] h
  · exact h

theorem mem_of_mem_part {piece name value : List Char} (h : part piece = (name, some value))
    {c : Char} (hc : c ∈ value) : c ∈ piece := by
  refine (List.dropWhile_sublist (· ≠ '=')).subset ?_
  have hvalue : afterEquals? (piece.dropWhile (· ≠ '=')) = some value := (Prod.mk.inj h).2
  cases hdrop : piece.dropWhile (· ≠ '=') with
  | nil =>
    rw [hdrop] at hvalue
    exact nomatch hvalue
  | cons d rest =>
    rw [hdrop] at hvalue
    obtain rfl := Option.some.inj hvalue
    exact List.mem_cons_of_mem d hc

/-- No value that is read holds a character that ends one. -/
theorem contained_of_mem_parts {s name value : List Char} (h : (name, some value) ∈ parts s) :
    Contained value := by
  obtain ⟨piece, hpiece, hpart⟩ := List.mem_map.1 h
  have hsplit := mem_splitOn_of_mem_pieces hpiece
  rw [List.splitOn_eq_splitOnP] at hsplit
  have hmem := Text.of_mem_splitOnP hsplit
  constructor
  · intro hc
    exact absurd (hmem '&' (mem_of_mem_part hpart hc)).2 (by decide)
  · intro hc
    have htake := (hmem '#' (mem_of_mem_part hpart hc)).1
    exact absurd (List.all_eq_true.1 List.all_takeWhile '#' htake) (by decide)

theorem part_piece {p : String × String} (h : IsName p.1.toList) :
    part (piece p) = (p.1.toList, some p.2.toList) := by
  rw [part, piece, Text.takeWhile_ne_append_cons h.2.2, Text.dropWhile_ne_append_cons h.2.2]
  rfl

theorem contained_piece {p : String × String} (hname : IsName p.1.toList)
    (hvalue : Contained p.2.toList) : Contained (piece p) := by
  obtain ⟨hand, hhash⟩ := hname.2.1
  constructor
  · simp [piece, hand, hvalue.1]
  · simp [piece, hhash, hvalue.2]

theorem pieces_flatMap_cons {all : List (List Char)} (h : ∀ s ∈ all, '&' ∉ s) :
    pieces (all.flatMap ('&' :: ·)) = all := by
  have hsplit := Text.splitOn_append_flatMap_cons List.not_mem_nil h
  rw [List.nil_append] at hsplit
  rw [pieces, hsplit]

theorem assemble_eq_flatMap (ps : List (String × String)) :
    assemble ps = (ps.map piece).flatMap ('&' :: ·) := by
  rw [List.flatMap_map]
  rfl

theorem hash_not_mem_assemble {ps : List (String × String)}
    (h : ∀ p ∈ ps, Contained (piece p)) : '#' ∉ assemble ps := by
  intro hc
  obtain ⟨p, hp, hmem⟩ := List.mem_flatMap.1 hc
  rcases List.mem_cons.1 hmem with heq | hmem
  · exact absurd heq (by decide)
  · exact (h p hp).2 hmem

/-- An assembled query string is read as its pairs when no value holds a character that ends
one. -/
theorem parts_assemble {ps : List (String × String)} (hnames : ∀ p ∈ ps, IsName p.1.toList)
    (hvalues : ∀ p ∈ ps, Contained p.2.toList) :
    parts ('?' :: assemble ps) = ps.map fun p => (p.1.toList, some p.2.toList) := by
  have hpieces : ∀ p ∈ ps, Contained (piece p) := by
    intro p hp
    exact contained_piece (hnames p hp) (hvalues p hp)
  have hand : ∀ s ∈ ps.map piece, '&' ∉ s := by
    intro s hs
    obtain ⟨p, hp, rfl⟩ := List.mem_map.1 hs
    exact (hpieces p hp).1
  rw [parts, afterMark, Text.takeWhile_ne_eq_self (hash_not_mem_assemble hpieces),
    assemble_eq_flatMap, pieces_flatMap_cons hand, List.map_map]
  apply List.map_congr_left
  intro p hp
  exact part_piece (hnames p hp)

/-- An assembled and encoded query string is read as the pairs that it was assembled from exactly
when no value holds a character that ends one. -/
theorem pairs_encodeUri_assemble {ps : List (String × String)}
    (hnames : ∀ p ∈ ps, IsName p.1.toList) :
    pairs (encodeUri (String.ofList ('?' :: assemble ps))) = ps.map (fun p => (p.1, some p.2)) ↔
      ∀ p ∈ ps, Contained p.2.toList := by
  rw [pairs_encodeUri, String.toList_ofList]
  constructor
  · -- a value that was read as it stands is contained, since all values that are read are
    intro h p hp
    have hread : (p.1, some p.2) ∈ ps.map fun p => (p.1, some p.2) := List.mem_map_of_mem hp
    rw [← h] at hread
    obtain ⟨⟨name, value⟩, hmem, heq⟩ := List.mem_map.1 hread
    obtain ⟨value, rfl, hvalue⟩ := Option.map_eq_some_iff.1 (Prod.mk.inj heq).2
    rw [← hvalue, String.toList_ofList]
    exact contained_of_mem_parts hmem
  · intro h
    rw [parts_assemble hnames h, List.map_map]
    apply List.map_congr_left
    intro p hp
    show (String.ofList (p.1.toList.flatMap encodeChar), some (String.ofList p.2.toList)) = _
    rw [encode_eq_self (hnames p hp).1, String.ofList_toList, String.ofList_toList]

end Criteria.QueryString
