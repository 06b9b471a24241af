import Criteria.Percent
import Criteria.Proofs.Text.Runs
import Criteria.Proofs.Text.Words

/-!
# Encoded texts

Main statements: an encoded text decodes to the text (`decode?_encodeUri`), and encoding loses
nothing, stays in the language of encoded texts, escapes exactly the characters that a URI may not
hold, and works piece by piece (`encodeUri_reversible`).
-/

namespace Criteria.Percent

/-! ## Decoding -/

theorem hexValue?_hexDigit {n : Nat} (h : n < 16) : hexValue? (hexDigit n) = some n := by
  have hdigit : ∀ n : Fin 16, hexValue? (hexDigit n) = some n.val := by decide
  exact hdigit ⟨n, h⟩

theorem byte?_hexDigit (b : UInt8) :
    byte? (hexDigit (b.toNat / 16)) (hexDigit (b.toNat % 16)) = some b := by
  have hlt : b.toNat < 256 := UInt8.toNat_lt b
  have hhigh : b.toNat / 16 < 16 := by omega
  have hlow : b.toNat % 16 < 16 := by omega
  rw [byte?, hexValue?_hexDigit hhigh, hexValue?_hexDigit hlow, Option.bind_some,
    Option.map_some, Nat.div_add_mod, UInt8.ofNat_toNat]

theorem decodeBytes_escapeByte (b : UInt8) (rest : List Char) :
    decodeBytes (escapeByte b ++ rest) = b :: decodeBytes rest := by
  simp only [escapeByte, List.cons_append, List.nil_append]
  rw [decodeBytes, byte?_hexDigit]

theorem decodeBytes_escapeBytes (bs : List UInt8) (rest : List Char) :
    decodeBytes (bs.flatMap escapeByte ++ rest) = bs ++ decodeBytes rest := by
  induction bs with
  | nil => rfl
  | cons b bs ih =>
    rw [List.flatMap_cons, List.append_assoc, decodeBytes_escapeByte, ih, List.cons_append]

theorem decodeBytes_cons {c : Char} (h : c ≠ '%') (rest : List Char) :
    decodeBytes (c :: rest) = String.utf8EncodeChar c ++ decodeBytes rest := by
  rw [decodeBytes]
  -- the equation for escapes comes first, so this one asks that it does not apply
  rintro high low rest' rfl
  exact absurd rfl h

/-- The percent sign is escaped, so that an escape is never a character that was left. -/
theorem ne_percent_of_isUriChar {c : Char} (h : isUriChar c = true) : c ≠ '%' := by
  rintro rfl
  exact absurd h (by decide)

theorem decodeBytes_encodeChar (c : Char) (rest : List Char) :
    decodeBytes (encodeChar c ++ rest) = String.utf8EncodeChar c ++ decodeBytes rest := by
  unfold encodeChar
  split
  · next hkeep => exact decodeBytes_cons (ne_percent_of_isUriChar hkeep) rest
  · exact decodeBytes_escapeBytes _ rest

theorem decodeBytes_encode (s : List Char) :
    decodeBytes (s.flatMap encodeChar) = s.flatMap String.utf8EncodeChar := by
  induction s with
  | nil => rfl
  | cons c s ih => rw [List.flatMap_cons, decodeBytes_encodeChar, ih, List.flatMap_cons]

theorem fromUTF8?_toByteArray (s : String) : String.fromUTF8? s.toByteArray = some s := by
  rw [String.fromUTF8?, dif_pos s.isValidUTF8]
  rfl

theorem decode?_encode (s : List Char) :
    decode? (s.flatMap encodeChar) = some (String.ofList s) := by
  have hbytes : (s.flatMap String.utf8EncodeChar).toByteArray = (String.ofList s).toByteArray := by
    rw [String.toByteArray_ofList, List.utf8Encode]
  rw [decode?, decodeBytes_encode, hbytes, fromUTF8?_toByteArray]

/-- An encoded text decodes to the text. -/
theorem decode?_encodeUri (s : String) : decode? (encodeUri s).toList = some s := by
  rw [encodeUri, String.toList_ofList, decode?_encode, String.ofList_toList]

/-! ## The structure of encoded texts

The characters that structure a URI are marks: encoding leaves them in place, and no other
character turns into one. A reader that looks for marks therefore finds in an encoded text what it
would find in the text: a stretch up to a mark is the encoding of a stretch (`takeWhile_encode`,
`dropWhile_encode`), and so are the pieces between marks (`splitOn_encode`). -/

/-! ### Characters -/

theorem encodeChar_of_mem_uriMarks {d : Char} (h : d ∈ uriMarks) : encodeChar d = [d] := by
  have hkeep : isUriChar d = true := by
    rw [isUriChar, List.contains_iff_mem.2 h, Bool.or_true]
  rw [encodeChar, if_pos hkeep]

theorem encodeChar_ne_nil (c : Char) : encodeChar c ≠ [] := by
  intro h
  have hbytes := decodeBytes_encodeChar c []
  rw [h] at hbytes
  exact String.utf8EncodeChar_ne_nil (List.append_eq_nil_iff.1 hbytes.symm).1

theorem isAlphanum_hexDigit {n : Nat} (h : n < 16) : (hexDigit n).isAlphanum = true := by
  have hdigit : ∀ n : Fin 16, (hexDigit n).isAlphanum = true := by decide
  exact hdigit ⟨n, h⟩

theorem of_mem_uriMarks {d : Char} (h : d ∈ uriMarks) : d ≠ '%' ∧ d.isAlphanum = false := by
  have hmarks : uriMarks.all (fun d => d != '%' && !d.isAlphanum) = true := rfl
  simpa using List.all_eq_true.1 hmarks d h

theorem not_mem_escapeByte {d : Char} (h : d ∈ uriMarks) (b : UInt8) : d ∉ escapeByte b := by
  obtain ⟨hpercent, halphanum⟩ := of_mem_uriMarks h
  have hlt : b.toNat < 256 := UInt8.toNat_lt b
  have hhigh := isAlphanum_hexDigit (show b.toNat / 16 < 16 by omega)
  have hlow := isAlphanum_hexDigit (show b.toNat % 16 < 16 by omega)
  simp only [escapeByte, List.mem_cons, List.not_mem_nil, or_false, not_or]
  exact ⟨hpercent, (Text.ne_of_class hhigh halphanum).symm,
    (Text.ne_of_class hlow halphanum).symm⟩

/-- No other character brings a mark into an encoded text. -/
theorem not_mem_encodeChar {c d : Char} (hd : d ∈ uriMarks) (h : c ≠ d) : d ∉ encodeChar c := by
  unfold encodeChar
  split
  · rw [List.mem_singleton]
    exact h.symm
  · intro hmem
    obtain ⟨b, -, hb⟩ := List.mem_flatMap.1 hmem
    exact not_mem_escapeByte hd b hb

/-! ### Texts -/

theorem encode_eq_nil_iff {s : List Char} : s.flatMap encodeChar = [] ↔ s = [] := by
  cases s with
  | nil => exact ⟨fun _ => rfl, fun _ => rfl⟩
  | cons c s =>
    rw [List.flatMap_cons, List.append_eq_nil_iff]
    exact ⟨fun h => absurd h.1 (encodeChar_ne_nil c), nofun⟩

theorem encode_eq_self {s : List Char} (h : s.all isUriChar = true) :
    s.flatMap encodeChar = s := by
  induction s with
  | nil => rfl
  | cons c s ih =>
    rw [List.all_cons, Bool.and_eq_true] at h
    rw [List.flatMap_cons, ih h.2, encodeChar, if_pos h.1]
    rfl

variable {d : Char}

theorem takeWhile_encode (hd : d ∈ uriMarks) (s : List Char) :
    (s.flatMap encodeChar).takeWhile (· ≠ d) = (s.takeWhile (· ≠ d)).flatMap encodeChar := by
  induction s with
  | nil => rfl
  | cons c s ih =>
    by_cases hc : c = d
    · rw [List.flatMap_cons, hc, encodeChar_of_mem_uriMarks hd]
      simp
    · have hall := Text.decide_ne_of_not_mem (not_mem_encodeChar hd hc)
      rw [List.flatMap_cons, List.takeWhile_append_of_pos hall, ih,
        List.takeWhile_cons_of_pos (by simpa using hc), List.flatMap_cons]

theorem dropWhile_encode (hd : d ∈ uriMarks) (s : List Char) :
    (s.flatMap encodeChar).dropWhile (· ≠ d) = (s.dropWhile (· ≠ d)).flatMap encodeChar := by
  induction s with
  | nil => rfl
  | cons c s ih =>
    by_cases hc : c = d
    · rw [hc, List.dropWhile_cons_of_neg (by simp), List.flatMap_cons,
        encodeChar_of_mem_uriMarks hd]
      exact List.dropWhile_cons_of_neg (by simp)
    · have hall := Text.decide_ne_of_not_mem (not_mem_encodeChar hd hc)
      rw [List.flatMap_cons, List.dropWhile_append_of_pos hall, ih,
        List.dropWhile_cons_of_pos (by simpa using hc)]

theorem splitOn_encode (hd : d ∈ uriMarks) (s : List Char) :
    (s.flatMap encodeChar).splitOn d = (s.splitOn d).map (List.flatMap encodeChar) := by
  induction s with
  | nil => rfl
  | cons c s ih =>
    obtain ⟨first, rest, hsplit⟩ := List.exists_cons_of_ne_nil (List.splitOn_ne_nil d s)
    rw [hsplit] at ih
    rw [List.flatMap_cons, List.splitOn_cons_eq_if_modifyHead, hsplit]
    by_cases hc : c = d
    · -- a mark stays alone in front and opens a new piece in both texts
      rw [hc, if_pos (beq_self_eq_true d), encodeChar_of_mem_uriMarks hd, List.singleton_append,
        List.splitOn_cons_eq_if_modifyHead, if_pos (beq_self_eq_true d), ih]
      rfl
    · -- what another character is encoded as goes to the front of the first piece as a whole
      rw [if_neg (by simpa using hc), Text.splitOn_append_of_not_mem (not_mem_encodeChar hd hc),
        ih]
      rfl

/-! ## The language of encoded texts

Encoded texts are made of the characters that a URI may hold and of escapes in upper case, whatever
they were encoded from (`isEncoded_encodeUri`). What is not left as it is comes out as an encoder
of single components writes it, which keeps fewer characters and looks at bytes: a byte that it
would keep is never part of a character that is escaped (`componentByte_of_mem`). -/

/-- The characters that a URI holds as they are: letters and digits of ASCII, and marks. -/
def IsPlain (c : Char) : Prop :=
  Text.IsAlphanumeric c ∨ c ∈ "-_.!~*'();,/?:@&=+$#".toList

/-- A hexadecimal digit in upper case. -/
def IsHexDigit (c : Char) : Prop := ('0' ≤ c ∧ c ≤ '9') ∨ ('A' ≤ c ∧ c ≤ 'F')

instance (c : Char) : Decidable (IsHexDigit c) := inferInstanceAs (Decidable (_ ∨ _))

/-- The texts of plain characters and escapes; an escape is a percent sign with two hexadecimal
digits in upper case. -/
inductive IsEncoded : List Char → Prop
  | nil : IsEncoded []
  | plain {c : Char} {s : List Char} : IsPlain c → IsEncoded s → IsEncoded (c :: s)
  | escape {high low : Char} {s : List Char} : IsHexDigit high → IsHexDigit low → IsEncoded s →
      IsEncoded ('%' :: high :: low :: s)

/-- A byte in a single component of a URI: letters, digits and four marks stay, and every other
byte is escaped. -/
def componentByte (b : UInt8) : List Char :=
  let c := Char.ofUInt8 b
  if c.isAlphanum || "-_.~".toList.contains c then [c] else escapeByte b

/-- A text as a single component of a URI. -/
def encodeComponent (s : String) : String :=
  String.ofList ((s.toList.flatMap String.utf8EncodeChar).flatMap componentByte)

/-! ### Characters -/

theorem isUriChar_iff (c : Char) : isUriChar c = true ↔ IsPlain c := by
  rw [isUriChar, Bool.or_eq_true, Text.isAlphanum_iff, List.contains_iff_mem]
  exact Iff.rfl

theorem encodeUri_singleton (c : Char) :
    (encodeUri (String.singleton c)).toList = encodeChar c := by
  rw [encodeUri, String.toList_ofList, String.toList_singleton, List.flatMap_singleton]

theorem encodeChar_of_isPlain {c : Char} (h : IsPlain c) : encodeChar c = [c] := by
  rw [encodeChar, if_pos ((isUriChar_iff c).2 h)]

theorem encodeChar_of_not_isPlain {c : Char} (h : ¬ IsPlain c) :
    encodeChar c = (String.utf8EncodeChar c).flatMap escapeByte := by
  rw [encodeChar, if_neg (fun hkeep => h ((isUriChar_iff c).1 hkeep))]

/-! ### Escapes -/

theorem isHexDigit_hexDigit {n : Nat} (h : n < 16) : IsHexDigit (hexDigit n) := by
  have hdigit : ∀ n : Fin 16, IsHexDigit (hexDigit n) := by decide
  exact hdigit ⟨n, h⟩

theorem IsEncoded.append {s t : List Char} (hs : IsEncoded s) (ht : IsEncoded t) :
    IsEncoded (s ++ t) := by
  induction hs with
  | nil => exact ht
  | plain hc _ ih => exact .plain hc ih
  | escape hhigh hlow _ ih => exact .escape hhigh hlow ih

theorem isEncoded_escapeByte (b : UInt8) : IsEncoded (escapeByte b) := by
  have hlt : b.toNat < 256 := UInt8.toNat_lt b
  exact .escape (isHexDigit_hexDigit (by omega)) (isHexDigit_hexDigit (by omega)) .nil

theorem isEncoded_flatMap {α : Type} {f : α → List Char} (h : ∀ a, IsEncoded (f a))
    (as : List α) : IsEncoded (as.flatMap f) := by
  induction as with
  | nil => exact .nil
  | cons a as ih => exact (h a).append ih

theorem isEncoded_encodeChar (c : Char) : IsEncoded (encodeChar c) := by
  by_cases h : IsPlain c
  · rw [encodeChar_of_isPlain h]
    exact .plain h .nil
  · rw [encodeChar_of_not_isPlain h]
    exact isEncoded_flatMap isEncoded_escapeByte _

theorem isEncoded_encodeUri (s : String) : IsEncoded (encodeUri s).toList := by
  rw [encodeUri, String.toList_ofList]
  exact isEncoded_flatMap isEncoded_encodeChar s.toList

/-! ### Components -/

/-- The only byte below 128 in a character is the character itself. -/
theorem of_mem_utf8EncodeChar {c : Char} {b : UInt8} (h : b ∈ String.utf8EncodeChar c) :
    128 ≤ b.toNat ∨ b.toNat = c.toNat := by
  have hval : c.val.toNat = c.toNat := rfl
  rw [String.utf8EncodeChar, hval] at h
  -- one case for each length of the encoding: all bytes of two or more have their highest bit set
  split_ifs at h with hone htwo hthree
  · right
    rw [List.mem_singleton.1 h, UInt8.toNat_ofNat', Nat.mod_eq_of_lt (by omega)]
  all_goals
    left
    simp only [List.mem_cons, List.not_mem_nil, or_false] at h
    rcases h with rfl | rfl | rfl | rfl <;> rw [UInt8.toNat_ofNat'] <;> omega

theorem toNat_ofUInt8 (b : UInt8) : (Char.ofUInt8 b).toNat = b.toNat := by
  show b.toUInt32.toNat = b.toNat
  exact UInt8.toNat_toUInt32 b

theorem IsPlain.toNat_lt {c : Char} (h : IsPlain c) : c.toNat < 128 := by
  have hle : ∀ {a b : Char}, a ≤ b → a.toNat ≤ b.toNat := fun hab => hab
  rcases h with (⟨-, hhigh⟩ | ⟨-, hhigh⟩ | ⟨-, hhigh⟩) | hmark
  · exact Nat.lt_of_le_of_lt (hle hhigh) (by decide)
  · exact Nat.lt_of_le_of_lt (hle hhigh) (by decide)
  · exact Nat.lt_of_le_of_lt (hle hhigh) (by decide)
  · have hmarks : uriMarks.all (fun d => decide (d.toNat < 128)) = true := rfl
    exact of_decide_eq_true (List.all_eq_true.1 hmarks c hmark)

/-- What stays as it is in a component is plain. -/
theorem isPlain_of_kept {c : Char} (h : (c.isAlphanum || "-_.~".toList.contains c) = true) :
    IsPlain c := by
  rcases Bool.or_eq_true_iff.1 h with halphanum | hmark
  · exact .inl ((Text.isAlphanum_iff c).1 halphanum)
  · have hmarks : "-_.~".toList.all uriMarks.contains = true := rfl
    exact .inr (List.contains_iff_mem.1
      (List.all_eq_true.1 hmarks c (List.contains_iff_mem.1 hmark)))

/-- Whatever is escaped has no byte that stays as it is in a component. -/
theorem componentByte_of_mem {c : Char} (hc : ¬ IsPlain c) {b : UInt8}
    (h : b ∈ String.utf8EncodeChar c) : componentByte b = escapeByte b := by
  refine if_neg (fun hkept => ?_)
  have hplain := isPlain_of_kept hkept
  have hlt := hplain.toNat_lt
  rw [toNat_ofUInt8] at hlt
  rcases of_mem_utf8EncodeChar h with hge | heq
  · omega
  · rw [← toNat_ofUInt8] at heq
    exact hc (Char.toNat_inj.1 heq ▸ hplain)

theorem toList_encodeComponent_singleton {c : Char} (h : ¬ IsPlain c) :
    (encodeComponent (String.singleton c)).toList =
      (String.utf8EncodeChar c).flatMap escapeByte := by
  rw [encodeComponent, String.toList_ofList, String.toList_singleton, List.flatMap_singleton]
  exact List.flatMap_congr fun b hb => componentByte_of_mem h hb

/-! ### Texts -/

/-- Texts with one encoding are one text. -/
theorem encodeUri_injective : Function.Injective encodeUri := by
  intro a b h
  have hdecode := decode?_encodeUri a
  rw [h, decode?_encodeUri] at hdecode
  exact (Option.some.inj hdecode).symm

/-- **Encoding is reversible, and escapes no more than it must.** Decoding gives every text back, so
no two texts share an encoding. Encoded texts hold plain characters and escapes in upper case only.
A plain character stays, and any other, the percent sign with them, becomes what an encoder of
components makes of it, which is an escape for each of its bytes. Texts are encoded piece by
piece. -/
theorem encodeUri_reversible :
    (∀ s, decode? (encodeUri s).toList = some s) ∧
    Function.Injective encodeUri ∧
    (∀ s, IsEncoded (encodeUri s).toList) ∧
    ¬ IsPlain '%' ∧
    (∀ c, IsPlain c → encodeUri (String.singleton c) = String.singleton c) ∧
    (∀ c, ¬ IsPlain c →
      encodeUri (String.singleton c) = encodeComponent (String.singleton c) ∧
      (encodeUri (String.singleton c)).toList = (String.utf8EncodeChar c).flatMap escapeByte) ∧
    (∀ a b, encodeUri (a ++ b) = encodeUri a ++ encodeUri b) := by
  refine ⟨decode?_encodeUri, encodeUri_injective, isEncoded_encodeUri, ?_, ?_, ?_,
    encodeUri_append⟩
  · intro hpercent
    exact ne_percent_of_isUriChar ((isUriChar_iff '%').2 hpercent) rfl
  · intro c hc
    rw [← String.toList_inj, encodeUri_singleton, encodeChar_of_isPlain hc,
      String.toList_singleton]
  · intro c hc
    rw [← String.toList_inj, toList_encodeComponent_singleton hc, encodeUri_singleton,
      encodeChar_of_not_isPlain hc]
    exact ⟨rfl, rfl⟩

/-- The percent sign itself is escaped, and so is each byte of a longer character. -/
example : encodeUri "100% é?" = "100%25%20%C3%A9?" := by decide

end Criteria.Percent
