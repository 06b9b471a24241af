import Criteria.Proofs.Entries
import Criteria.Query
import Mathlib.Data.List.MinMax
import Mathlib.Data.String.Basic

/-!
# Which name a look-up goes to

A look-up goes to at most one name (`Consults.unique`), and it goes to one exactly when some name is
a variant of the key (`exists_consults_iff`). What it finds is the text under that name unless this
is blank (`get?_of_consults`), so entries under other names than variants of the key have no part in
it (`get?_congr`). Parameters in which all six look-ups agree come to the same queries, rejections
and warnings on every backend (`Query.ofParams_congr`).
-/

namespace Criteria.Params

/-- The names under which there are texts. -/
def names (p : Params) : List String := Entries.keys p.entries

/-- A look-up of a key among some names goes to the key itself if it is one of them, and otherwise
to the smallest of its variants. -/
inductive Consults (names : List String) (key : String) : String → Prop
  | itself : key ∈ names → Consults names key key
  | variant {name : String} : key ∉ names → name ∈ names → sameName name key = true →
      (∀ other ∈ names, sameName other key = true → name ≤ other) → Consults names key name

variable {p p' : Params} {names names' : List String} {key name other value : String}

/-! ## Names -/

theorem sameName_iff {a b : String} :
    sameName a b = true ↔ a.toList.map Char.toLower = b.toList.map Char.toLower := beq_iff_eq

theorem sameName_refl (name : String) : sameName name name = true := sameName_iff.2 rfl

theorem Consults.mem (h : Consults names key name) : name ∈ names := by
  cases h with
  | itself hkey => exact hkey
  | variant _ hname _ _ => exact hname

theorem Consults.same (h : Consults names key name) : sameName name key = true := by
  cases h with
  | itself _ => exact sameName_refl key
  | variant _ _ hsame _ => exact hsame

theorem Consults.unique (h : Consults names key name) (h' : Consults names key other) :
    name = other := by
  cases h with
  | itself hkey =>
    cases h' with
    | itself _ => rfl
    | variant hkey' _ _ _ => exact absurd hkey hkey'
  | variant hkey hname hsame hleast =>
    cases h' with
    | itself hkey' => exact absurd hkey' hkey
    | variant _ hother hsame' hleast' =>
      exact le_antisymm (hleast other hother hsame') (hleast' name hname hsame)

/-- Where there is anything at all, there is something with the least name. -/
theorem exists_argmin {α : Type} (f : α → String) {l : List α} {a : α} (h : a ∈ l) :
    ∃ least ∈ l, l.argmin f = some least ∧ ∀ b ∈ l, f least ≤ f b := by
  cases hleast : l.argmin f with
  | none =>
    rw [List.argmin_eq_none.1 hleast] at h
    exact absurd h List.not_mem_nil
  | some least =>
    exact ⟨least, List.argmin_mem hleast, rfl, fun b hb => List.le_of_mem_argmin hb hleast⟩

/-- A look-up goes to some name as soon as one name is a variant of the key. -/
theorem exists_consults_iff :
    (∃ name, Consults names key name) ↔ ∃ name ∈ names, sameName name key = true := by
  constructor
  · rintro ⟨name, h⟩
    exact ⟨name, h.mem, h.same⟩
  · rintro ⟨name, hname, hsame⟩
    by_cases hkey : key ∈ names
    · exact ⟨key, .itself hkey⟩
    · have hvariant : name ∈ names.filter (sameName · key) := List.mem_filter.2 ⟨hname, hsame⟩
      obtain ⟨least, hmem, -, hle⟩ := exists_argmin id hvariant
      obtain ⟨hin, hsame'⟩ := List.mem_filter.1 hmem
      refine ⟨least, .variant hkey hin hsame' fun other hother hsame'' => ?_⟩
      exact hle other (List.mem_filter.2 ⟨hother, hsame''⟩)

/-- Either a look-up goes to some name, or no name is a variant of the key. -/
theorem consults_or_none (names : List String) (key : String) :
    (∃ name, Consults names key name) ∨ ∀ name ∈ names, sameName name key = false := by
  by_cases hvariant : ∃ name ∈ names, sameName name key = true
  · exact .inl (exists_consults_iff.2 hvariant)
  · right
    intro name hname
    exact Bool.eq_false_iff.2 fun hsame => hvariant ⟨name, hname, hsame⟩

/-- Names that are no variants of the key have no part in where a look-up goes. -/
theorem Consults.congr
    (hnames : ∀ other, sameName other key = true → (other ∈ names ↔ other ∈ names'))
    (h : Consults names key name) : Consults names' key name := by
  cases h with
  | itself hkey => exact .itself ((hnames key (sameName_refl key)).1 hkey)
  | variant hkey hname hsame hleast =>
    refine .variant (fun hkey' => hkey ((hnames key (sameName_refl key)).2 hkey'))
      ((hnames name hsame).1 hname) hsame fun other hother hsame' => ?_
    exact hleast other ((hnames other hsame').2 hother) hsame'

/-! ## Texts -/

theorem mem_names_iff : name ∈ p.names ↔ ∃ value, Entries.get? p.entries name = some value :=
  Entries.exists_get?_iff.symm

theorem variant?_eq_argmin (p : Params) (key : String) :
    p.variant? key = (p.entries.filter fun e => sameName e.1 key).argmin Prod.fst := by
  have hstep : smaller = List.argAux fun e best => e.1 < best.1 := by
    funext best e
    cases best <;> rfl
  rw [variant?, hstep]
  rfl

/-- A look-up finds the text under the name that it goes to. -/
theorem raw?_of_consults (h : Consults p.names key name) :
    p.raw? key = Entries.get? p.entries name := by
  cases h with
  | itself hkey =>
    obtain ⟨value, hvalue⟩ := mem_names_iff.1 hkey
    rw [raw?, hvalue, Option.some_or]
  | variant hkey hname hsame hleast =>
    obtain ⟨value, hvalue⟩ := mem_names_iff.1 hname
    have hentry := (Entries.get?_eq_some_iff p.nodup_keys).1 hvalue
    have hvariant : (name, value) ∈ p.entries.filter fun e => sameName e.1 key :=
      List.mem_filter.2 ⟨hentry, hsame⟩
    obtain ⟨e, hmem, hargmin, hle⟩ := exists_argmin Prod.fst hvariant
    obtain ⟨he, hsame'⟩ := List.mem_filter.1 hmem
    -- the entry with the least name is the one under the name, since both are least
    have hname' : e.1 = name := le_antisymm (hle (name, value) hvariant)
      (hleast e.1 (Entries.mem_keys_of_mem he) hsame')
    rw [raw?, Entries.get?_eq_none_iff.2 hkey, Option.none_or, variant?_eq_argmin, hargmin,
      Option.map_some, ← (Entries.get?_eq_some_iff p.nodup_keys).2 he, hname']

theorem raw?_eq_none (h : ∀ name ∈ p.names, sameName name key = false) :
    p.raw? key = none := by
  have hkey : key ∉ p.names := fun hkey =>
    Bool.false_ne_true ((h key hkey).symm.trans (sameName_refl key))
  have hvariants : p.entries.filter (fun e => sameName e.1 key) = [] := by
    rw [List.filter_eq_nil_iff]
    intro e he
    rw [h e.1 (Entries.mem_keys_of_mem he)]
    exact Bool.false_ne_true
  rw [raw?, Entries.get?_eq_none_iff.2 hkey, variant?, hvariants]
  rfl

theorem get?_of_consults (h : Consults p.names key name) :
    p.get? key = (Entries.get? p.entries name).filter fun v => !Text.blank v.toList := by
  rw [get?, raw?_of_consults h]

/-- The text under the name that a look-up goes to is found unless it is blank. -/
theorem Consults.get?_eq (h : Consults p.names key name)
    (hentry : Entries.get? p.entries name = some value) :
    p.get? key = if Text.blank value.toList then none else some value := by
  rw [get?_of_consults h, hentry, Option.filter_some]
  cases Text.blank value.toList <;> rfl

theorem get?_of_get?_entries (h : Entries.get? p.entries key = some value) :
    p.get? key = if Text.blank value.toList then none else some value :=
  Consults.get?_eq (.itself (mem_names_iff.2 ⟨value, h⟩)) h

theorem get?_eq_none (h : ∀ name ∈ p.names, sameName name key = false) :
    p.get? key = none := by
  rw [get?, raw?_eq_none h]
  rfl

/-- A look-up gives a text exactly when it goes to a name that has this text and the text is not
blank. -/
theorem get?_eq_some_iff : p.get? key = some value ↔
    ∃ name, Consults p.names key name ∧ (name, value) ∈ p.entries ∧
      Text.blank value.toList = false := by
  constructor
  · intro h
    rcases consults_or_none p.names key with ⟨name, hname⟩ | hnone
    · rw [get?_of_consults hname, Option.filter_eq_some_iff] at h
      refine ⟨name, hname, (Entries.get?_eq_some_iff p.nodup_keys).1 h.1, ?_⟩
      simpa using h.2
    · rw [get?_eq_none hnone] at h
      exact nomatch h
  · rintro ⟨name, hname, hentry, hblank⟩
    rw [hname.get?_eq ((Entries.get?_eq_some_iff p.nodup_keys).2 hentry), hblank]
    rfl

/-- Parameters with the same texts under the variants of a key give the same for it. -/
theorem get?_congr (h : ∀ name, sameName name key = true →
    Entries.get? p.entries name = Entries.get? p'.entries name) : p.get? key = p'.get? key := by
  have hnames : ∀ name, sameName name key = true → (name ∈ p.names ↔ name ∈ p'.names) := by
    intro name hsame
    rw [mem_names_iff, mem_names_iff, h name hsame]
  rcases consults_or_none p.names key with ⟨name, hname⟩ | hnone
  · rw [get?_of_consults hname, get?_of_consults (hname.congr hnames), h name hname.same]
  · rw [get?_eq_none hnone, get?_eq_none]
    intro name hname
    refine Bool.eq_false_iff.2 fun hsame => ?_
    exact Bool.false_ne_true ((hnone name ((hnames name hsame).2 hname)).symm.trans hsame)

/-! ## Parameters -/

/-- No parameter has a variant of another one's name. -/
theorem sameName_name_iff {q q' : Parameter} :
    sameName q.name q'.name = true ↔ q = q' := by
  cases q <;> cases q' <;> decide

theorem name_injective {q q' : Parameter} (h : q.name = q'.name) : q = q' :=
  sameName_name_iff.1 (h ▸ sameName_refl q.name)

/-! ## Operations -/

/-- Pairs leave the last value under each name. -/
theorem get?_entries_ofList (pairs : List (String × String)) (name : String) :
    Entries.get? (ofList pairs).entries name = Entries.last? pairs name := by
  rw [ofList, Entries.get?_putAll]
  exact Option.or_none

theorem get?_entries_insert (p : Params) (name value other : String) :
    Entries.get? (p.insert name value).entries other =
      if name = other then some value else Entries.get? p.entries other :=
  Entries.get?_put p.entries name other value

/-- A text that is written under the key itself is found unless it is blank. -/
theorem get?_insert_self (p : Params) (key value : String) :
    (p.insert key value).get? key = if Text.blank value.toList then none else some value := by
  have hentry : Entries.get? (p.insert key value).entries key = some value := by
    rw [get?_entries_insert, if_pos rfl]
  exact get?_of_get?_entries hentry

/-- A text under a name that is no variant of the key has no part in a look-up. -/
theorem get?_insert_of_not_same (h : sameName name key = false) (p : Params) (value : String) :
    (p.insert name value).get? key = p.get? key := by
  refine get?_congr fun other hsame => ?_
  have hne : name ≠ other := by
    rintro rfl
    exact Bool.false_ne_true (h.symm.trans hsame)
  rw [get?_entries_insert, if_neg hne]

/-- Parameters that are laid over others come first. -/
theorem get?_entries_merge (p overlay : Params) (name : String) :
    Entries.get? (p.merge overlay).entries name =
      (Entries.get? overlay.entries name).or (Entries.get? p.entries name) := by
  rw [merge, Entries.get?_putAll, Entries.last?_eq_get? overlay.nodup_keys]

end Criteria.Params

/-! ## Parameters that agree

Each reader of parameters looks up one of them and sees nothing else, so two sets of parameters in
which a look-up gives the same are the same to it. -/

namespace Criteria

variable {p p' : Params}

namespace Options

theorem readCount_congr {q : Parameter} (h : p.get? q.name = p'.get? q.name) (default : UInt64) :
    readCount p q default = readCount p' q default := by
  unfold readCount
  rw [h]

theorem readSort_congr (h : p.get? Parameter.sort.name = p'.get? Parameter.sort.name) :
    readSort p = readSort p' := by
  unfold readSort
  rw [h]

theorem readFields_congr (h : p.get? Parameter.fields.name = p'.get? Parameter.fields.name) :
    readFields p = readFields p' := by
  unfold readFields Params.getTrimmed
  rw [h]

theorem readDefaultOperator_congr
    (h : p.get? Parameter.defaultOperator.name = p'.get? Parameter.defaultOperator.name) :
    readDefaultOperator p = readDefaultOperator p' := by
  unfold readDefaultOperator
  rw [h]

/-- Options do not depend on the filter. -/
theorem read_congr (h : ∀ q : Parameter, q ≠ .filter → p.get? q.name = p'.get? q.name) :
    read p = read p' := by
  have hskip : readSkip p = readSkip p' := readCount_congr (h .skip nofun) _
  have hlimit : readLimit p = readLimit p' := readCount_congr (h .limit nofun) _
  unfold read
  rw [hskip, hlimit, readSort_congr (h .sort nofun), readFields_congr (h .fields nofun),
    readDefaultOperator_congr (h .defaultOperator nofun)]

end Options

theorem SearchQuery.readFilter_congr
    (h : p.get? Parameter.filter.name = p'.get? Parameter.filter.name) :
    SearchQuery.readFilter p = SearchQuery.readFilter p' := by
  unfold SearchQuery.readFilter
  rw [h]

theorem DocumentQuery.readFilter_congr
    (h : p.get? Parameter.filter.name = p'.get? Parameter.filter.name) :
    DocumentQuery.readFilter p = DocumentQuery.readFilter p' := by
  unfold DocumentQuery.readFilter
  rw [h]

/-- Parameters that agree in all look-ups come to the same on every backend. -/
theorem Query.ofParams_congr (h : ∀ q : Parameter, p.get? q.name = p'.get? q.name) (b : Backend) :
    Query.ofParams b p = Query.ofParams b p' := by
  have hoptions : Options.read p = Options.read p' := Options.read_congr fun q _ => h q
  cases b with
  | search =>
    unfold Query.ofParams Query.read SearchQuery.read
    rw [hoptions, SearchQuery.readFilter_congr (h .filter)]
  | document =>
    unfold Query.ofParams Query.read DocumentQuery.read
    rw [hoptions, DocumentQuery.readFilter_congr (h .filter)]

end Criteria
