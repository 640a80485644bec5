import Patchbay.Catalog.UnitClass
import Patchbay.SortedMap
import Patchbay.Table

/-! The catalog of unit classes, by name and by other names for them. -/
namespace Patchbay

/-- The known classes, and further names for classes. -/
structure Catalog where
  classes : Array UnitClass
  places : Table Nat
  aliases : Table String
  placed : ∀ name i, places.get? name = some i ↔ classes[i]?.map UnitClass.name = some name

namespace Catalog

def empty : Catalog := ⟨#[], .empty, .empty, by simp [Table.get?, Table.empty]⟩

private theorem placed_set {k : Catalog} {c : UnitClass} {i : Nat}
    (h : k.places.get? c.name = some i) (name : String) (j : Nat) :
    k.places.get? name = some j ↔
      (k.classes.setIfInBounds i c)[j]?.map UnitClass.name = some name := by
  have hi := (k.placed c.name i).mp h
  rw [k.placed, Array.getElem?_setIfInBounds]
  by_cases hij : i = j
  · subst hij
    rw [if_pos rfl, hi]
    have hlt : i < k.classes.size := by
      obtain ⟨_, hc, _⟩ := Option.map_eq_some_iff.mp hi
      exact (Array.getElem?_eq_some_iff.mp hc).1
    rw [if_pos hlt, Option.map_some]
  · rw [if_neg hij]

private theorem placed_push {k : Catalog} {c : UnitClass} (h : k.places.get? c.name = none)
    (name : String) (j : Nat) : (k.places.put c.name k.classes.size).get? name = some j ↔
      (k.classes.push c)[j]?.map UnitClass.name = some name := by
  have hfresh : k.classes[j]?.map UnitClass.name ≠ some c.name := by
    intro hc
    rw [← k.placed, h] at hc
    cases hc
  have hout : k.classes[k.classes.size]? = none := Array.getElem?_eq_none (Nat.le_refl _)
  rw [Table.get?_put, Array.getElem?_push]
  by_cases hj : j = k.classes.size
  · subst hj
    rw [if_pos rfl, Option.map_some]
    split
    · next hname => simp [hname]
    · next hname =>
      rw [k.placed, hout]
      simp [Ne.symm hname]
  · rw [if_neg hj]
    split
    · next hname =>
      subst hname
      simp [hfresh, Ne.symm hj]
    · exact k.placed name j

/-- The classes after one is added: in place of the class of that name, or behind all others. -/
def classesWith (k : Catalog) (c : UnitClass) : Array UnitClass :=
  match k.places.get? c.name with
  | some i => k.classes.setIfInBounds i c
  | none => k.classes.push c

/-- The places after a class is added. A known name keeps its place. -/
def placesWith (k : Catalog) (c : UnitClass) : Table Nat :=
  match k.places.get? c.name with
  | some _ => k.places
  | none => k.places.put c.name k.classes.size

/-- Add a class. It takes the place of a class of the same name. -/
def register (k : Catalog) (c : UnitClass) : Catalog where
  classes := k.classesWith c
  places := k.placesWith c
  aliases := k.aliases
  placed name i := by
    rw [classesWith, placesWith]
    split
    · next h => exact placed_set h name i
    · next h => exact placed_push h name i

/-- Let another name stand for a class, which need not be there yet. -/
def registerAlias (k : Catalog) (other name : String) : Catalog :=
  { k with aliases := k.aliases.put other name }

def get? (k : Catalog) (name : String) : Option UnitClass :=
  (k.places.get? name).bind fun i => k.classes[i]?

/-- The class that a name stands for. A name given to another class wins over a class's own, and
is followed once. -/
def resolve? (k : Catalog) (name : String) : Option UnitClass :=
  k.get? ((k.aliases.get? name).getD name)

def contains (k : Catalog) (name : String) : Bool := (k.resolve? name).isSome

/-- The names of the classes in the order in which they came in. -/
def names (k : Catalog) : List String := k.classes.toList.map UnitClass.name

/-- Enter a class under its heading, behind those that are there. A class without one is left
out. -/
def enter (groups : SortedMap (List String)) (c : UnitClass) : SortedMap (List String) :=
  match c.group with
  | none => groups
  | some heading => groups.insert heading ((groups.get? heading).getD [] ++ [c.name])

def groups (k : Catalog) : SortedMap (List String) := k.classes.toList.foldl enter .empty

def aliasesOf (k : Catalog) (name : String) : List String :=
  ((k.aliases.entries.filter (·.2 = name)).map Prod.fst).mergeSort (· ≤ ·)

/-- A class stands under its own name exactly if it is one of those listed. -/
theorem get?_eq_some_iff {k : Catalog} {name : String} {c : UnitClass} :
    k.get? name = some c ↔ c ∈ k.classes.toList ∧ c.name = name := by
  rw [get?, Option.bind_eq_some_iff, Array.mem_toList_iff, Array.mem_iff_getElem?]
  constructor
  · rintro ⟨i, hi, hc⟩
    have hname := (k.placed name i).mp hi
    rw [hc, Option.map_some] at hname
    exact ⟨⟨i, hc⟩, Option.some.inj hname⟩
  · rintro ⟨⟨i, hc⟩, rfl⟩
    refine ⟨i, (k.placed c.name i).mpr ?_, hc⟩
    rw [hc, Option.map_some]

/-- What was registered last under a name is found there, and other names are left alone. -/
theorem get?_register (k : Catalog) (c : UnitClass) (name : String) :
    (k.register c).get? name = if name = c.name then some c else k.get? name := by
  show ((k.placesWith c).get? name).bind (fun j => (k.classesWith c)[j]?) = _
  rw [classesWith, placesWith]
  split
  · next i hi =>
    have hname := (k.placed c.name i).mp hi
    obtain ⟨_, hc, _⟩ := Option.map_eq_some_iff.mp hname
    split
    · next heq =>
      rw [heq, hi, Option.bind_some, Array.getElem?_setIfInBounds_self,
        if_pos (Array.getElem?_eq_some_iff.mp hc).1]
    · next hne =>
      refine Option.bind_congr fun j hj => ?_
      rw [Array.getElem?_setIfInBounds_ne]
      rintro rfl
      have hother := (k.placed name i).mp hj
      rw [hname] at hother
      exact hne (Option.some.inj hother).symm
  · rw [Table.get?_put]
    split
    · rw [Option.bind_some, Array.getElem?_push_size]
    · refine Option.bind_congr fun j hj => ?_
      obtain ⟨_, hc, _⟩ := Option.map_eq_some_iff.mp ((k.placed name j).mp hj)
      rw [Array.getElem?_push, if_neg (Nat.ne_of_lt (Array.getElem?_eq_some_iff.mp hc).1)]

theorem mem_of_resolve? {k : Catalog} {name : String} {c : UnitClass}
    (h : k.resolve? name = some c) : c ∈ k.classes.toList :=
  (get?_eq_some_iff.mp h).1

end Patchbay.Catalog
