import Criteria.Program
import Criteria.Proofs.Params.Lookup
import Mathlib.Data.List.Nodup

/-!
# Command lines over request files

What a command line gives is laid over the parameters of a request under the names of parameters,
while a look-up may also go to variants of these names. Still nothing is mixed up, since a name that
a command line writes is a variant of no other parameter. Main statement (`collect_overrides`): a
given parameter decides its look-up, and every other one finds what the request has for it.
-/

namespace Criteria.CommandLine

/-! ## What a command line gives

However a command line is read, each parameter is recorded at most once: every step that records
something refuses a second value (`Arguments.Once.setValue`), so no sequence of arguments leads to
one (`State.once_of_readAll`, `once_of_parse`). The environment adds a backend where the arguments
name none, and nothing else (`exists_given_of_parse`). -/

theorem exists_of_bind_eq_ok {ε α β : Type} {x : Except ε α} {f : α → Except ε β} {b : β}
    (h : (x >>= f) = .ok b) : ∃ a, x = .ok a ∧ f a = .ok b := by
  cases x with
  | error e => exact nomatch h
  | ok a => exact ⟨a, rfl, h⟩

theorem exists_of_map_eq_ok {ε α β : Type} {x : Except ε α} {f : α → β} {b : β}
    (h : x.map f = .ok b) : ∃ a, x = .ok a ∧ f a = b := by
  cases x with
  | error e => exact nomatch h
  | ok a => exact ⟨a, rfl, Except.ok.inj h⟩

/-- Each parameter has at most one value. -/
def Arguments.Once (a : Arguments) : Prop := (a.parameters.map Prod.fst).Nodup

/-! ### Steps -/

section Steps

variable {a a' : Arguments} {s s' : State}

theorem Arguments.Once.setValue {o : Setting} {value : String} (h : a.Once)
    (hset : a.setValue o value = .ok a') : a'.Once := by
  cases o with
  | backend | request | output =>
    obtain ⟨_, -, rfl⟩ := exists_of_map_eq_ok hset
    exact h
  | parameter q =>
    rw [Arguments.setValue] at hset
    split at hset
    · exact nomatch hset
    · next hnew =>
      -- a value is recorded only where there is none yet
      obtain rfl := Except.ok.inj hset
      have hq : q ∉ a.parameters.map Prod.fst := by
        rintro hmem
        obtain ⟨given, hgiven, rfl⟩ := List.mem_map.1 hmem
        exact hnew (List.any_eq_true.2 ⟨given, hgiven, decide_eq_true rfl⟩)
      show (List.map Prod.fst (a.parameters ++ [(q, value)])).Nodup
      rw [List.map_append, List.nodup_append]
      refine ⟨h, List.nodup_cons.2 ⟨List.not_mem_nil, List.nodup_nil⟩, ?_⟩
      rintro x hx y hy rfl
      obtain rfl : x = q := List.mem_singleton.1 hy
      exact hq hx

theorem Arguments.Once.set {o : Setting} {value : Option String} (h : a.Once)
    (hset : a.set o value = .ok a') : a'.Once := by
  cases value with
  | none => exact nomatch hset
  | some v => exact h.setValue hset

theorem Arguments.Once.raise {f : Flag} (h : a.Once) (hraise : a.raise f = .ok a') : a'.Once := by
  cases f with
  | help => exact nomatch hraise
  | version => exact nomatch hraise
  | verbose =>
    rw [Arguments.raise] at hraise
    split at hraise
    · exact nomatch hraise
    · obtain rfl := Except.ok.inj hraise
      exact h

theorem State.once_of_settle (h : s.given.Once) (hsettle : s.settle = .ok a) : a.Once := by
  rw [State.settle] at hsettle
  split at hsettle
  · obtain rfl := Except.ok.inj hsettle
    exact h
  · exact h.set hsettle

theorem State.once_of_readLong {name : String} {value : Option String} (h : s.given.Once)
    (hread : s.readLong name value = .ok s') : s'.given.Once := by
  unfold State.readLong at hread
  split at hread
  · exact nomatch hread
  · exact nomatch hread
  · obtain ⟨given, hsettle, hread⟩ := exists_of_bind_eq_ok hread
    obtain ⟨given', hraise, hread⟩ := exists_of_bind_eq_ok hread
    obtain rfl := Except.ok.inj hread
    exact (State.once_of_settle h hsettle).raise hraise
  · obtain ⟨given, hsettle, hread⟩ := exists_of_bind_eq_ok hread
    obtain ⟨given', hset, hread⟩ := exists_of_bind_eq_ok hread
    obtain rfl := Except.ok.inj hread
    exact (State.once_of_settle h hsettle).setValue hset
  · obtain ⟨given, hsettle, hread⟩ := exists_of_bind_eq_ok hread
    obtain rfl := Except.ok.inj hread
    exact State.once_of_settle h hsettle

theorem State.once_of_readShort {names : List Char} (h : s.given.Once)
    (hread : s.readShort names = .ok s') : s'.given.Once := by
  induction names generalizing s with
  | nil =>
    obtain rfl := Except.ok.inj hread
    exact h
  | cons c rest ih =>
    rw [State.readShort] at hread
    split at hread
    · exact nomatch hread
    · obtain ⟨given, hsettle, hread⟩ := exists_of_bind_eq_ok hread
      obtain ⟨given', hraise, hread⟩ := exists_of_bind_eq_ok hread
      exact ih ((State.once_of_settle h hsettle).raise hraise) hread
    · obtain ⟨given, hsettle, hread⟩ := exists_of_bind_eq_ok hread
      have hgiven := State.once_of_settle h hsettle
      split at hread
      · obtain rfl := Except.ok.inj hread
        exact hgiven
      · obtain ⟨given', hset, hread⟩ := exists_of_bind_eq_ok hread
        obtain rfl := Except.ok.inj hread
        exact hgiven.setValue hset
      · obtain ⟨given', hset, hread⟩ := exists_of_bind_eq_ok hread
        obtain rfl := Except.ok.inj hread
        exact hgiven.setValue hset

theorem State.once_of_take {arg : String} (h : s.given.Once) (htake : s.take arg = .ok s') :
    s'.given.Once := by
  rw [State.take] at htake
  split at htake
  · obtain rfl := Except.ok.inj htake
    exact h
  · exact nomatch htake

end Steps

/-! ### Command lines -/

/-- No sequence of arguments gives a parameter two values. -/
theorem State.once_of_readAll {s : State} {args : List String} {a : Arguments} (h : s.given.Once)
    (hread : s.readAll args = .ok a) : a.Once := by
  induction args generalizing s with
  | nil => exact State.once_of_settle h hread
  | cons arg rest ih =>
    rw [State.readAll] at hread
    split at hread
    · obtain ⟨s', htake, hread⟩ := exists_of_bind_eq_ok hread
      exact ih (State.once_of_take h htake) hread
    · split at hread
      · split at hread
        · exact State.once_of_settle h hread
        · exact nomatch hread
      · obtain ⟨s', hlong, hread⟩ := exists_of_bind_eq_ok hread
        exact ih (State.once_of_readLong h hlong) hread
      · obtain ⟨s', hshort, hread⟩ := exists_of_bind_eq_ok hread
        exact ih (State.once_of_readShort h hshort) hread
      · obtain ⟨s', htake, hread⟩ := exists_of_bind_eq_ok hread
        exact ih (State.once_of_take h htake) hread

/-- What is read is what the arguments give, with the backend of the environment if they name
none. -/
theorem exists_given_of_parse {environment : Option String} {args : List String} {a : Arguments}
    (h : parse environment args = .ok a) :
    ∃ given, State.readAll ⟨{}, none⟩ args = .ok given ∧
      a = { given with backend := given.backend.or (environment.bind Backend.ofName?) } := by
  obtain ⟨given, hread, h⟩ := exists_of_bind_eq_ok h
  refine ⟨given, hread, ?_⟩
  obtain ⟨backend, request, output, verbose, parameters⟩ := given
  cases backend with
  | some b => exact (Except.ok.inj h).symm
  | none =>
    cases environment with
    | none => exact (Except.ok.inj h).symm
    | some name =>
      obtain ⟨b, hb, rfl⟩ := exists_of_map_eq_ok h
      rw [Option.none_or, Option.bind_some]
      cases hname : Backend.ofName? name with
      | none =>
        rw [hname] at hb
        exact nomatch hb
      | some b' =>
        rw [hname] at hb
        rw [← Except.ok.inj hb]

theorem once_of_parse {environment : Option String} {args : List String} {a : Arguments}
    (h : parse environment args = .ok a) : a.Once := by
  obtain ⟨given, hread, rfl⟩ := exists_given_of_parse h
  have hstart : (⟨{}, none⟩ : State).given.Once := List.nodup_nil
  have hgiven : given.Once := State.once_of_readAll hstart hread
  exact hgiven

end Criteria.CommandLine

/-! ## What is laid over a request -/

namespace Criteria.Program

open Criteria.CommandLine

variable {request : Request} {a : Arguments} {q : Parameter} {value : String}

/-- The parameters that arguments give, under their names. -/
def flags (a : Arguments) : List (String × String) := a.parameters.map fun x => (x.1.name, x.2)

theorem mem_keys_flags {name : String} :
    name ∈ Entries.keys (flags a) ↔ ∃ q value, (q, value) ∈ a.parameters ∧ q.name = name := by
  simp [Entries.keys, flags]

theorem nodup_keys_flags (h : a.Once) : (Entries.keys (flags a)).Nodup := by
  have hkeys : Entries.keys (flags a) = (a.parameters.map Prod.fst).map Parameter.name := by
    simp [Entries.keys, flags]
  rw [hkeys]
  exact List.Nodup.map (fun _ _ => Params.name_injective) h

/-- Under each name is the given value, or else what the request has there. -/
theorem get?_entries_collect (request : Request) (a : Arguments) (name : String) :
    Entries.get? (collect request a).2.entries name =
      (Entries.last? (flags a) name).or (Entries.get? request.params.entries name) := by
  rw [collect, Params.get?_entries_merge, Params.get?_entries_ofList, flags]

/-- Names that are not given keep what the request has under them. -/
theorem get?_entries_collect_of_not_given {name : String}
    (h : ∀ q value, (q, value) ∈ a.parameters → q.name ≠ name) :
    Entries.get? (collect request a).2.entries name = Entries.get? request.params.entries name := by
  have hnone : Entries.last? (flags a) name = none := by
    rw [Entries.last?_eq_none_iff, mem_keys_flags]
    rintro ⟨q, value, hgiven, hname⟩
    exact h q value hgiven hname
  rw [get?_entries_collect, hnone, Option.none_or]

/-- The value that is given for a parameter is stored under its name. -/
theorem get?_entries_collect_of_given (h : a.Once) (hgiven : (q, value) ∈ a.parameters) :
    Entries.get? (collect request a).2.entries q.name = some value := by
  have hentry : (q.name, value) ∈ flags a := List.mem_map.2 ⟨(q, value), hgiven, rfl⟩
  have hlast : Entries.last? (flags a) q.name = some value := by
    rw [Entries.last?_eq_get? (nodup_keys_flags h)]
    exact (Entries.get?_eq_some_iff (nodup_keys_flags h)).2 hentry
  rw [get?_entries_collect, hlast, Option.some_or]

/-- A given value decides the look-up of its parameter; a blank one leaves it absent. -/
theorem get?_collect_of_given (h : a.Once) (hgiven : (q, value) ∈ a.parameters) :
    (collect request a).2.get? q.name =
      if Text.blank value.toList then none else some value :=
  Params.get?_of_get?_entries (get?_entries_collect_of_given h hgiven)

/-- A parameter that is not given is looked up in the request, whatever else is given. -/
theorem get?_collect_of_not_given (h : ∀ value, (q, value) ∉ a.parameters) :
    (collect request a).2.get? q.name = request.params.get? q.name := by
  refine Params.get?_congr fun name hsame => ?_
  refine get?_entries_collect_of_not_given fun q' value hgiven hname => ?_
  -- the name of another parameter is no variant of this one's
  have hq : q' = q := Params.sameName_name_iff.1 (hname ▸ hsame)
  exact h value (hq ▸ hgiven)

/-- **The command line overrides the request parameter by parameter.** A given value decides the
look-up of its parameter, and a blank one leaves the parameter absent, however the request spells
it. A parameter that is not given is looked up as in the request alone, and the entries of the
request under all names that are not given are as they were. The backend is the given one, or else
that of the request, or else the document database. A command line gives each parameter at most
once, and the environment gives a backend where the arguments do not. -/
theorem collect_overrides (request : Request) :
    (∀ a : Arguments, a.Once →
      (∀ q value, (q, value) ∈ a.parameters →
        (collect request a).2.get? q.name =
          if Text.blank value.toList then none else some value) ∧
      (∀ q, (∀ value, (q, value) ∉ a.parameters) →
        (collect request a).2.get? q.name = request.params.get? q.name) ∧
      (∀ name, (∀ q value, (q, value) ∈ a.parameters → q.name ≠ name) →
        Entries.get? (collect request a).2.entries name =
          Entries.get? request.params.entries name) ∧
      (collect request a).1 =
        match a.backend, request.backend with
        | some b, _ => b
        | none, some b => b
        | none, none => .document) ∧
    (∀ environment args a, parse environment args = .ok a →
      a.Once ∧ ∃ given, State.readAll ⟨{}, none⟩ args = .ok given ∧
        a.parameters = given.parameters ∧
        a.backend = given.backend.or (environment.bind Backend.ofName?)) := by
  constructor
  · intro a honce
    refine ⟨fun q value => get?_collect_of_given honce, fun q => get?_collect_of_not_given,
      fun name => get?_entries_collect_of_not_given, ?_⟩
    rw [collect]
    cases a.backend with
    | some b => rfl
    | none => cases request.backend <;> rfl
  · intro environment args a h
    obtain ⟨given, hread, ha⟩ := exists_given_of_parse h
    refine ⟨once_of_parse h, given, hread, ?_, ?_⟩
    · rw [ha]
    · rw [ha]

/-- The theorem at a file that spells two parameters in other cases: a blank limit hides both of
its spellings, the given filter is added, and the rest of the file stands, its backend included. -/
theorem collect_overrides_blank_limit :
    ∃ (request : Request) (a : Arguments),
      request = ⟨some .search, Params.ofList [("LIMIT", "5"), ("Limit", "6"), ("Skip", "7")]⟩ ∧
      parse none ["--limit", " ", "--filter=a"] = .ok a ∧
      a.parameters = [(.limit, " "), (.filter, "a")] ∧
      (collect request a).2.get? "limit" = none ∧
      (collect request a).2.get? "filter" = some "a" ∧
      (collect request a).2.get? "skip" = some "7" ∧
      Entries.get? (collect request a).2.entries "Limit" = some "6" ∧
      (collect request a).1 = .search := by
  have hparse : parse none ["--limit", " ", "--filter=a"] =
      .ok { parameters := [(.limit, " "), (.filter, "a")] } := rfl
  obtain ⟨honce, -⟩ := (collect_overrides ⟨none, Params.empty⟩).2 _ _ _ hparse
  obtain ⟨hgiven, hother, hentries, hbackend⟩ := (collect_overrides
    ⟨some .search, Params.ofList [("LIMIT", "5"), ("Limit", "6"), ("Skip", "7")]⟩).1 _ honce
  refine ⟨_, _, rfl, hparse, rfl, hgiven .limit " " (by simp), hgiven .filter "a" (by simp),
    (hother .skip (by simp)).trans (by decide), (hentries "Limit" ?_).trans (by decide), hbackend⟩
  intro q value hq
  rcases List.mem_pair.1 hq with heq | heq <;> cases heq <;> decide

end Criteria.Program
