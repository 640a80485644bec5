import Patchbay.Proofs.Catalog.Listing
import Patchbay.Proofs.Library.Registrations

/-! What a registry holds, told by its registrations alone. Its classes come in the order of their
first registration, and under each name stands what was registered there last. -/
namespace Patchbay.Workshop
variable {α U : Type}

/-- A name that was given to another stands for that one, any other name for itself. -/
def StandsFor (registrations : List (Registration α U)) (name target : String) : Prop :=
  LatestName registrations name target ∨
    target = name ∧ ∀ other, .name name other ∉ registrations

/-- A workshop that holds what was registered, and nothing else. -/
structure Faithful (registrations : List (Registration α U)) (w : Workshop α U) : Prop where
  distinct : w.catalog.names.Nodup
  /-- Names stand in the order in which they first came. -/
  order : w.catalog.names = (registrations.filterMap Registration.className?).eraseDups
  classes : ∀ c, c ∈ w.catalog.classes.toList ↔ ∃ make, Latest registrations c make
  /-- The names of the index are those that were registered. -/
  known : ∀ name, (∃ i, w.catalog.places.get? name = some i) ↔
    name ∈ registrations.filterMap Registration.className?
  /-- The index leads to the class that was registered last. -/
  places : ∀ name i, w.catalog.places.get? name = some i ↔
    ∃ c make, c.name = name ∧ Latest registrations c make ∧ w.catalog.classes[i]? = some c
  found : ∀ name c, w.catalog.resolve? name = some c ↔
    ∃ target make, StandsFor registrations name target ∧ c.name = target ∧
      Latest registrations c make
  missing : ∀ name, w.catalog.resolve? name = none ↔
    ∃ target, StandsFor registrations name target ∧
      target ∉ registrations.filterMap Registration.className?
  otherNames : ∀ name other, other ∈ w.catalog.aliasesOf name ↔
    LatestName registrations other name
  sorted : ∀ name, (w.catalog.aliasesOf name).Pairwise (· < ·)
  /-- Under a heading stand the classes that have it, in the order of all classes. -/
  headings : ∀ heading names, w.catalog.groups.get? heading = some names ↔
    names ≠ [] ∧ names =
      (w.catalog.classes.toList.filter (·.group = some heading)).map UnitClass.name
  /-- Each class with a heading stands under exactly one. -/
  shared : w.catalog.groups.values.flatten.Perm
    ((w.catalog.classes.toList.filter (·.group.isSome)).map UnitClass.name)
  makers : ∀ name make, w.makers.get? name = some make ↔
    ∃ c, c.name = name ∧ Latest registrations c make

variable {registrations : List (Registration α U)}

private theorem eraseDups_snoc (names : List String) (name : String) :
    (names ++ [name]).eraseDups =
      if name ∈ names then names.eraseDups else names.eraseDups ++ [name] := by
  rw [List.eraseDups_append]
  by_cases h : name ∈ names <;> simp [List.removeAll, List.eraseDups_cons, h]

private theorem names_ofAll (registrations : List (Registration α U)) :
    (ofAll registrations).catalog.names =
      (registrations.filterMap Registration.className?).eraseDups := by
  induction registrations using List.reverseRecOn with
  | nil => rfl
  | append_singleton registrations r ih =>
    rw [ofAll, List.foldl_append, ← ofAll, List.foldl_cons, List.foldl_nil, List.filterMap_append]
    cases r with
    | unit c make =>
      have hadded : [Registration.unit c make].filterMap Registration.className? = [c.name] := rfl
      rw [hadded, eraseDups_snoc, after, Catalog.names_register, ih]
      simp only [List.mem_eraseDups]
    | name other target =>
      have hnone : [(Registration.name other target : Registration α U)].filterMap
          Registration.className? = [] := rfl
      rw [hnone, List.append_nil]
      exact ih

private theorem get?_ofAll_eq_none {name : String} : (ofAll registrations).catalog.get? name = none ↔
    name ∉ registrations.filterMap Registration.className? := by
  rw [Option.eq_none_iff_forall_ne_some, ← exists_latest_iff]
  simp only [ne_eq, get?_ofAll, exists_and_left, not_exists]

private theorem get?_aliases_eq_none {name : String} :
    (ofAll registrations).catalog.aliases.get? name = none ↔
      ∀ other, .name name other ∉ registrations := by
  rw [Option.eq_none_iff_forall_ne_some]
  simp only [ne_eq, get?_aliases_ofAll]
  exact not_exists.symm.trans ((not_congr exists_latestName_iff).trans not_exists)

/-- A name stands for exactly one name. -/
private theorem standsFor_iff {name target : String} : StandsFor registrations name target ↔
    ((ofAll registrations).catalog.aliases.get? name).getD name = target := by
  rw [StandsFor, ← get?_aliases_ofAll, ← get?_aliases_eq_none]
  cases (ofAll registrations).catalog.aliases.get? name with
  | none => simp [eq_comm]
  | some last => simp

/-- Whatever is registered in whatever order, and however often under one name, a workshop holds
just this: the classes and makers registered last, each name once. -/
theorem faithful_ofAll (registrations : List (Registration α U)) :
    Faithful registrations (ofAll registrations) where
  distinct := Catalog.nodup_names _
  order := names_ofAll registrations
  classes c := by
    have hget : (ofAll registrations).catalog.get? c.name = some c ↔ _ := get?_ofAll
    rw [Catalog.get?_eq_some_iff] at hget
    simpa using hget
  known name := by rw [Catalog.exists_get?_places_iff, names_ofAll, List.mem_eraseDups]
  places name i := by
    rw [Catalog.placed]
    constructor
    · intro h
      obtain ⟨c, hc, rfl⟩ := Option.map_eq_some_iff.mp h
      have hlisted := Array.mem_toList_iff.mpr (Array.mem_of_getElem? hc)
      obtain ⟨_, make, hlatest⟩ := get?_ofAll.mp (Catalog.get?_eq_some_iff.mpr ⟨hlisted, rfl⟩)
      exact ⟨c, make, rfl, hlatest, hc⟩
    · rintro ⟨c, make, rfl, _, hc⟩
      rw [hc, Option.map_some]
  found name c := by
    constructor
    · intro h
      obtain ⟨hname, make, hlatest⟩ := get?_ofAll.mp h
      exact ⟨_, make, standsFor_iff.mpr rfl, hname, hlatest⟩
    · rintro ⟨target, make, hstands, hname, hlatest⟩
      rw [Catalog.resolve?, standsFor_iff.mp hstands]
      exact get?_ofAll.mpr ⟨hname, make, hlatest⟩
  missing name := by
    constructor
    · intro h
      exact ⟨_, standsFor_iff.mpr rfl, get?_ofAll_eq_none.mp h⟩
    · rintro ⟨target, hstands, hnone⟩
      rw [Catalog.resolve?, standsFor_iff.mp hstands]
      exact get?_ofAll_eq_none.mpr hnone
  otherNames name other := by rw [Catalog.mem_aliasesOf, get?_aliases_ofAll]
  sorted := Catalog.pairwise_aliasesOf _
  headings := Catalog.get?_groups _
  shared := Catalog.perm_groups _
  makers _ _ := get?_makers_ofAll

end Patchbay.Workshop
