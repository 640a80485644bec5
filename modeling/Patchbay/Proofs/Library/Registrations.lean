import Mathlib.Data.List.Induction
import Patchbay.Library.Standard
import Patchbay.Proofs.Table
import Patchbay.Unit.Basic

/-! Registries as they come about: one class or other name after another, each class with any way
to make its units. A class that was looked up is found again by its own name unless that name
stands for another class. -/
namespace Patchbay

/-- One step by which a registry grows. -/
inductive Registration (α U : Type) where
  /-- A class, and how a unit of it is made for a sample rate and a seed. -/
  | unit (c : UnitClass) (make : α → UInt64 → U)
  /-- Another name for the class of a name. -/
  | name (other name : String)

namespace Registration
variable {α U : Type}

/-- What a registration puts under the name of a class: the class, and the way to make its
units. -/
private def addedClass? : Registration α U → Option (String × UnitClass)
  | .unit c _ => some (c.name, c)
  | .name _ _ => none

private def addedMaker? : Registration α U → Option (String × (α → UInt64 → U))
  | .unit c make => some (c.name, make)
  | .name _ _ => none

private def addedName? : Registration α U → Option (String × String)
  | .unit _ _ => none
  | .name other target => some (other, target)

/-- The name under which a class is registered. -/
def className? : Registration α U → Option String
  | .unit c _ => some c.name
  | .name _ _ => none

/-- The other name that is registered. -/
def otherName? : Registration α U → Option String
  | .unit _ _ => none
  | .name other _ => some other

end Registration

/-- Classes, and under the name of each the way its units are made. -/
structure Workshop (α U : Type) where
  catalog : Catalog
  makers : Table (α → UInt64 → U)

namespace Workshop
variable {α U : Type}

def empty : Workshop α U := ⟨.empty, .empty⟩

/-- The workshop after a registration. A class takes the place of a class of the same name. -/
def after (w : Workshop α U) : Registration α U → Workshop α U
  | .unit c make => ⟨w.catalog.register c, w.makers.put c.name make⟩
  | .name other name => ⟨w.catalog.registerAlias other name, w.makers⟩

def ofAll (registrations : List (Registration α U)) : Workshop α U :=
  registrations.foldl after empty

/-- A new unit of a class or another name for it. -/
def create? (w : Workshop α U) (name : String) (sampleRate : α) (seed : UInt64) : Option U :=
  match w.catalog.resolve? name with
  | none => none
  | some c => (w.makers.get? c.name).map fun make => make sampleRate seed

def registry (w : Workshop α U) : Registry α U := ⟨w.catalog, w.create?⟩

end Workshop

/-- The registrations of a set of units, each made from its kind. -/
def UnitSet.registrations {α U : Type} (make : UnitKind → α → UInt64 → U) (s : UnitSet) :
    List (Registration α U) :=
  s.classes.map (fun c => .unit c.1 (make c.2)) ++ s.aliases.map fun a => .name a.1 a.2

namespace Library
variable {α U : Type} {make : UnitKind → α → UInt64 → U}

/-- A library as a workshop in which a kind of unit says how it is made. -/
def workshop (make : UnitKind → α → UInt64 → U) (l : Library) : Workshop α U :=
  ⟨l.catalog, l.kinds.map make⟩

private theorem workshop_register (l : Library) (c : UnitClass) (kind : UnitKind) :
    (l.register c kind).workshop make = (l.workshop make).after (.unit c (make kind)) := by
  rw [workshop, register, Table.map_put]
  rfl

private theorem workshop_registerSet (l : Library) (s : UnitSet) :
    (l.registerSet s).workshop make =
      (s.registrations make).foldl Workshop.after (l.workshop make) := by
  have hclasses : ∀ (classes : List (UnitClass × UnitKind)) (l : Library),
      (classes.foldl (fun l c => l.register c.1 c.2) l).workshop make =
        (classes.map fun c => Registration.unit c.1 (make c.2)).foldl Workshop.after
          (l.workshop make) := by
    intro classes
    induction classes with
    | nil => exact fun _ => rfl
    | cons c classes ih =>
      intro l
      rw [List.foldl_cons, ih, workshop_register]
      rfl
  have haliases : ∀ (aliases : List (String × String)) (l : Library),
      (aliases.foldl (fun l a => l.registerAlias a.1 a.2) l).workshop make =
        (aliases.map fun a => Registration.name a.1 a.2).foldl Workshop.after
          (l.workshop make) := by
    intro aliases
    induction aliases with
    | nil => exact fun _ => rfl
    | cons a aliases ih =>
      intro l
      rw [List.foldl_cons, ih]
      rfl
  rw [registerSet, haliases, hclasses, UnitSet.registrations, List.foldl_append]

/-- A library is what its registrations make of it. -/
theorem workshop_ofSets (sets : List UnitSet) :
    (ofSets sets).workshop make = .ofAll (sets.flatMap (UnitSet.registrations make)) := by
  have hsets : ∀ (sets : List UnitSet) (l : Library), (sets.foldl registerSet l).workshop make =
      (sets.flatMap (UnitSet.registrations make)).foldl Workshop.after (l.workshop make) := by
    intro sets
    induction sets with
    | nil => exact fun _ => rfl
    | cons s sets ih =>
      intro l
      rw [List.foldl_cons, ih, workshop_registerSet, List.flatMap_cons, List.foldl_append]
  exact hsets sets empty

theorem registry_workshop [Arithmetic α] (l : Library) :
    (l.workshop fun kind sampleRate seed => SoundUnit.ofKind sampleRate seed kind).registry =
      (l.registry : Registry α (SoundUnit α)) := by
  rw [Workshop.registry, registry]
  congr 1
  funext name sampleRate seed
  rw [Workshop.create?, create?, kind?, workshop]
  cases l.catalog.resolve? name with
  | none => rfl
  | some c =>
    simp only [Table.get?_map, Option.map_map]
    rfl

end Library

namespace Workshop
variable {α U : Type} {registrations : List (Registration α U)}

/-- No class of the same name was registered after this one, which came with this way to make its
units. -/
def Latest (registrations : List (Registration α U)) (c : UnitClass) (make : α → UInt64 → U) :
    Prop :=
  ∃ before after, registrations = before ++ .unit c make :: after ∧
    ∀ other maker, .unit other maker ∈ after → other.name ≠ c.name

/-- This other name was given to a name last. -/
def LatestName (registrations : List (Registration α U)) (other name : String) : Prop :=
  ∃ before after, registrations = before ++ .name other name :: after ∧
    ∀ target, .name other target ∉ after

/-- A registration behind which none has its key. -/
private def IsLast (key : Registration α U → Option String)
    (registrations : List (Registration α U)) (r : Registration α U) : Prop :=
  ∃ before after, registrations = before ++ r :: after ∧ ∀ later ∈ after, key later ≠ key r

private theorem isLast_snoc {key : Registration α U → Option String} {r s : Registration α U} :
    IsLast key (registrations ++ [s]) r ↔ r = s ∨ key s ≠ key r ∧ IsLast key registrations r := by
  constructor
  · rintro ⟨before, after, heq, hafter⟩
    rcases List.eq_nil_or_concat after with rfl | ⟨after, last, rfl⟩
    · left
      exact (List.cons.inj (List.append_inj' heq rfl).2).1.symm
    · rw [List.concat_eq_append, ← List.cons_append, ← List.append_assoc] at heq
      obtain ⟨hfront, hlast⟩ := List.append_inj' heq rfl
      obtain rfl := (List.cons.inj hlast).1
      exact .inr ⟨hafter _ (by simp), before, after, hfront,
        fun later hlater => hafter later (by simp [hlater])⟩
  · rintro (rfl | ⟨hkey, before, after, rfl, hafter⟩)
    · exact ⟨registrations, [], rfl, fun _ h => absurd h List.not_mem_nil⟩
    · refine ⟨before, after ++ [s], by simp, fun later hlater => ?_⟩
      rcases List.mem_append.mp hlater with hlater | hlater
      · exact hafter later hlater
      · rw [List.mem_singleton.mp hlater]
        exact hkey

private theorem isLast_unit {c : UnitClass} {make : α → UInt64 → U} :
    IsLast Registration.className? registrations (.unit c make) ↔
      Latest registrations c make := by
  refine exists_congr fun before => exists_congr fun after => and_congr_right fun _ => ?_
  constructor
  · intro h other maker hother hname
    exact h _ hother (congrArg some hname)
  · intro h later hlater hkey
    cases later with
    | unit other maker => exact h other maker hlater (Option.some.inj hkey)
    | name other target => cases hkey

private theorem isLast_name {other name : String} :
    IsLast Registration.otherName? registrations (.name other name) ↔
      LatestName registrations other name := by
  refine exists_congr fun before => exists_congr fun after => and_congr_right fun _ => ?_
  constructor
  · intro h target htarget
    exact h _ htarget rfl
  · intro h later hlater hkey
    cases later with
    | unit c make => cases hkey
    | name another target =>
      obtain rfl := Option.some.inj hkey
      exact h target hlater

private theorem exists_isLast (key : Registration α U → Option String) {r : Registration α U}
    (h : r ∈ registrations) : ∃ s, IsLast key registrations s ∧ key s = key r := by
  induction registrations using List.reverseRecOn with
  | nil => exact absurd h List.not_mem_nil
  | append_singleton registrations last ih =>
    simp only [isLast_snoc]
    by_cases hkey : key last = key r
    · exact ⟨last, .inl rfl, hkey⟩
    · rcases List.mem_append.mp h with h | h
      · obtain ⟨s, hs, hsame⟩ := ih h
        exact ⟨s, .inr ⟨hsame ▸ hkey, hs⟩, hsame⟩
      · rw [List.mem_singleton.mp h] at hkey
        exact absurd rfl hkey

/-- Among the classes that were registered under a name there is a last one. -/
theorem exists_latest_iff {name : String} : (∃ c make, c.name = name ∧
    Latest registrations c make) ↔ name ∈ registrations.filterMap Registration.className? := by
  rw [List.mem_filterMap]
  constructor
  · rintro ⟨c, make, rfl, before, after, rfl, _⟩
    exact ⟨.unit c make, by simp, rfl⟩
  · rintro ⟨r, hr, hname⟩
    obtain ⟨s, hs, hkey⟩ := exists_isLast Registration.className? hr
    rw [hname] at hkey
    cases s with
    | unit c make => exact ⟨c, make, Option.some.inj hkey, isLast_unit.mp hs⟩
    | name => cases hkey

/-- Among the names that were given to another name there is a last one. -/
theorem exists_latestName_iff {other : String} :
    (∃ name, LatestName registrations other name) ↔ ∃ name, .name other name ∈ registrations := by
  constructor
  · rintro ⟨name, before, after, rfl, _⟩
    exact ⟨name, by simp⟩
  · rintro ⟨name, h⟩
    obtain ⟨s, hs, hkey⟩ := exists_isLast Registration.otherName? h
    cases s with
    | unit => cases hkey
    | name another target =>
      cases hkey
      exact ⟨target, isLast_name.mp hs⟩

/-- Where each registration puts at most one value under a name, the value found there is the one
that was put last. -/
private theorem look_ofAll {V : Type} (look : Workshop α U → String → Option V)
    (added? : Registration α U → Option (String × V)) (key : Registration α U → Option String)
    (hkey : ∀ r, (added? r).map Prod.fst = key r) (hempty : ∀ name, look empty name = none)
    (hput : ∀ w r name value other, added? r = some (name, value) →
      look (w.after r) other = if other = name then some value else look w other)
    (hskip : ∀ w r other, added? r = none → look (w.after r) other = look w other)
    (registrations : List (Registration α U)) (name : String) (value : V) :
    look (ofAll registrations) name = some value ↔
      ∃ r, IsLast key registrations r ∧ added? r = some (name, value) := by
  obtain rfl : (fun r => (added? r).map Prod.fst) = key := funext hkey
  induction registrations using List.reverseRecOn with
  | nil =>
    constructor
    · intro h
      rw [ofAll, List.foldl_nil, hempty] at h
      cases h
    · rintro ⟨r, ⟨before, after, heq, _⟩, _⟩
      simp at heq
  | append_singleton registrations s ih =>
    rw [ofAll, List.foldl_append, ← ofAll, List.foldl_cons, List.foldl_nil]
    simp only [isLast_snoc]
    cases hs : added? s with
    | none =>
      rw [hskip _ s _ hs, ih]
      constructor
      · rintro ⟨r, hr, he⟩
        exact ⟨r, .inr ⟨by simp [he], hr⟩, he⟩
      · rintro ⟨r, rfl | ⟨_, hr⟩, he⟩
        · rw [hs] at he
          cases he
        · exact ⟨r, hr, he⟩
    | some e =>
      rw [hput _ s _ _ _ hs]
      split
      · next hname =>
        constructor
        · rintro ⟨⟩
          exact ⟨s, .inl rfl, by rw [hs, hname]⟩
        · rintro ⟨r, rfl | ⟨hkey, _⟩, he⟩
          · rw [hs] at he
            cases he
            rfl
          · simp [he, hname] at hkey
      · next hname =>
        rw [ih]
        constructor
        · rintro ⟨r, hr, he⟩
          refine ⟨r, .inr ⟨?_, hr⟩, he⟩
          simpa [he] using Ne.symm hname
        · rintro ⟨r, rfl | ⟨_, hr⟩, he⟩
          · rw [hs] at he
            cases he
            exact absurd rfl hname
          · exact ⟨r, hr, he⟩

/-- The class of a name is the one that was registered last under it. -/
theorem get?_ofAll {registrations : List (Registration α U)} {name : String} {c : UnitClass} :
    (ofAll registrations).catalog.get? name = some c ↔
      c.name = name ∧ ∃ make, Latest registrations c make := by
  rw [look_ofAll (fun w => w.catalog.get?) Registration.addedClass? Registration.className? ?_
    (fun _ => rfl) ?_ ?_]
  · constructor
    · rintro ⟨r, hr, he⟩
      cases r with
      | unit d make =>
        cases he
        exact ⟨rfl, make, isLast_unit.mp hr⟩
      | name => cases he
    · rintro ⟨rfl, make, h⟩
      exact ⟨.unit c make, isLast_unit.mpr h, rfl⟩
  · intro r
    cases r <;> rfl
  · intro w r name value other he
    cases r with
    | unit d make =>
      cases he
      exact w.catalog.get?_register value other
    | name => cases he
  · intro w r other he
    cases r with
    | unit => cases he
    | name => rfl

/-- The way to make the units of a name is the one that came last with a class of that name. -/
theorem get?_makers_ofAll {registrations : List (Registration α U)} {name : String}
    {make : α → UInt64 → U} : (ofAll registrations).makers.get? name = some make ↔
      ∃ c, c.name = name ∧ Latest registrations c make := by
  rw [look_ofAll (fun w => w.makers.get?) Registration.addedMaker? Registration.className? ?_
    (fun _ => rfl) ?_ ?_]
  · constructor
    · rintro ⟨r, hr, he⟩
      cases r with
      | unit c maker =>
        cases he
        exact ⟨c, rfl, isLast_unit.mp hr⟩
      | name => cases he
    · rintro ⟨c, rfl, h⟩
      exact ⟨.unit c make, isLast_unit.mpr h, rfl⟩
  · intro r
    cases r <;> rfl
  · intro w r name value other he
    cases r with
    | unit c maker =>
      cases he
      exact w.makers.get?_put c.name other value
    | name => cases he
  · intro w r other he
    cases r with
    | unit => cases he
    | name => rfl

/-- Another name stands for the name that it was given last. -/
theorem get?_aliases_ofAll {registrations : List (Registration α U)} {other name : String} :
    (ofAll registrations).catalog.aliases.get? other = some name ↔
      LatestName registrations other name := by
  rw [look_ofAll (fun w => w.catalog.aliases.get?) Registration.addedName? Registration.otherName? ?_
    (fun _ => rfl) ?_ ?_]
  · constructor
    · rintro ⟨r, hr, he⟩
      cases r with
      | unit => cases he
      | name another target =>
        cases he
        exact isLast_name.mp hr
    · intro h
      exact ⟨.name other name, isLast_name.mpr h, rfl⟩
  · intro r
    cases r <;> rfl
  · intro w r name value another he
    cases r with
    | unit => cases he
    | name given target =>
      cases he
      exact w.catalog.aliases.get?_put name another value
  · intro w r another he
    cases r with
    | unit => rfl
    | name => cases he

/-- What stands under a name was registered last under it, and so was the way to make it. -/
private def Current (registrations : List (Registration α U)) (w : Workshop α U) : Prop :=
  ∀ name c, w.catalog.get? name = some c →
    c.name = name ∧ ∃ make, Latest registrations c make ∧ w.makers.get? name = some make

private theorem current_ofAll (registrations : List (Registration α U)) :
    Current registrations (ofAll registrations) := by
  intro name c hc
  obtain ⟨hname, make, hlatest⟩ := get?_ofAll.mp hc
  exact ⟨hname, make, hlatest, get?_makers_ofAll.mpr ⟨c, hname, hlatest⟩⟩

/-- Some name stands for another class instead of the class of that name. -/
def Renamed (w : Workshop α U) (name : String) : Prop :=
  ∃ other, w.catalog.aliases.get? name = some other ∧ other ≠ name

private theorem resolve?_of_not_renamed {w : Workshop α U} {c : UnitClass}
    (hc : w.catalog.get? c.name = some c) (h : ¬w.Renamed c.name) :
    w.catalog.resolve? c.name = some c := by
  rw [Catalog.resolve?]
  cases ha : w.catalog.aliases.get? c.name with
  | none => exact hc
  | some other =>
    have hsame : other = c.name := by
      by_contra hne
      exact h ⟨other, ha, hne⟩
    rw [Option.getD_some, hsame, hc]

private theorem not_renamed_of_resolve? {w : Workshop α U} (hw : Current registrations w)
    {c : UnitClass} (h : w.catalog.resolve? c.name = some c) : ¬w.Renamed c.name := by
  rintro ⟨other, ha, hne⟩
  rw [Catalog.resolve?, ha, Option.getD_some] at h
  exact hne (hw other c h).1.symm

private theorem create?_of_resolve? {w : Workshop α U} {name : String} {c : UnitClass}
    {make : α → UInt64 → U} (hc : w.catalog.resolve? name = some c)
    (hmake : w.makers.get? c.name = some make) (sampleRate : α) (seed : UInt64) :
    w.create? name sampleRate seed = some (make sampleRate seed) := by
  simp only [create?, hc, hmake, Option.map_some]

/-- Looking a class up and looking it up once more. Whatever was registered in whatever order, the
units made for a name are those that were registered last together with the class it stands for.
That class is found again by its own name exactly if this is not another name for a different
class; the same units are made for it then. -/
theorem resolve?_again (registrations : List (Registration α U)) (name : String) (c : UnitClass)
    (h : (ofAll registrations).catalog.resolve? name = some c) :
    ∃ make, Latest registrations c make ∧
      (∀ sampleRate seed,
        (ofAll registrations).create? name sampleRate seed = some (make sampleRate seed)) ∧
      ((ofAll registrations).catalog.resolve? c.name = some c ↔
        ¬(ofAll registrations).Renamed c.name) ∧
      (¬(ofAll registrations).Renamed c.name → ∀ sampleRate seed,
        (ofAll registrations).create? c.name sampleRate seed = some (make sampleRate seed)) := by
  have hcurrent := current_ofAll registrations
  obtain ⟨hname, make, hlatest, hmake⟩ := hcurrent _ c h
  rw [← hname] at hmake
  have hclass : (ofAll registrations).catalog.get? c.name = some c := by
    rw [hname]
    exact h
  refine ⟨make, hlatest, create?_of_resolve? h hmake, ⟨?_, ?_⟩, ?_⟩
  · exact not_renamed_of_resolve? hcurrent
  · exact resolve?_of_not_renamed hclass
  · intro hfree
    exact create?_of_resolve? (resolve?_of_not_renamed hclass hfree) hmake

/-- The standard units by their kinds, with a second name for one oscillator whose own name stands
for another. -/
def twins : List (Registration Unit UnitKind) :=
  [Library.io, Library.utility, Library.oscillator].flatMap
      (UnitSet.registrations fun kind _ _ => kind) ++
    [.name "Twin" "Sine", .name "Sine" "Saw"]

/-- A class of the standard oscillators. -/
def oscillatorNamed (name : String) : UnitClass :=
  ⟨name, [⟨["frequency", "freq", "f", "pitch"]⟩], [⟨["output"]⟩], ["frequency"],
    some "Oscillator"⟩

theorem resolve?_again_saw :
    ∃ make, Latest twins (oscillatorNamed "Saw") make ∧
      (∀ sampleRate seed, (ofAll twins).create? "Sine" sampleRate seed =
        some (make sampleRate seed)) ∧
      (ofAll twins).catalog.resolve? "Saw" = some (oscillatorNamed "Saw") := by
  obtain ⟨make, hlatest, hmake, hagain, _⟩ :=
    resolve?_again twins "Sine" (oscillatorNamed "Saw") (by decide)
  have hfree : ¬(ofAll twins).Renamed "Saw" := by
    rintro ⟨other, ha, _⟩
    have hnone : (ofAll twins).catalog.aliases.get? "Saw" = none := by decide
    rw [hnone] at ha
    cases ha
  exact ⟨make, hlatest, hmake, hagain.mpr hfree⟩

/-- The second name stands for the one oscillator, the name of that oscillator for the other, and
so do the units made for them. -/
theorem resolve?_again_twin :
    (ofAll twins).catalog.resolve? "Twin" = some (oscillatorNamed "Sine") ∧
      (ofAll twins).catalog.resolve? "Sine" = some (oscillatorNamed "Saw") ∧
      (ofAll twins).create? "Twin" () 0 = some (.oscillator .sine) ∧
      (ofAll twins).create? "Sine" () 0 = some (.oscillator .saw) := by decide

end Workshop
end Patchbay
