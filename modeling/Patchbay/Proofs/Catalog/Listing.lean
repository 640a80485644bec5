import Mathlib.Data.List.Induction
import Mathlib.Data.List.Nodup
import Patchbay.Catalog.Basic
import Patchbay.Proofs.SortedMap
import Patchbay.Proofs.Table

/-! What a catalog lists. Each class has its name for itself, the headings share out the classes
that have one, and the other names of a class come in order. -/
namespace Patchbay.Catalog
variable {k : Catalog}

theorem getElem?_names (k : Catalog) (i : Nat) : k.names[i]? = k.classes[i]?.map UnitClass.name := by
  rw [names, List.getElem?_map, Array.getElem?_toList]

/-- A name has the place that it has among all names. -/
theorem get?_places (k : Catalog) (name : String) (i : Nat) :
    k.places.get? name = some i ↔ k.names[i]? = some name := by
  rw [getElem?_names, k.placed]

theorem nodup_names (k : Catalog) : k.names.Nodup := by
  refine List.nodup_iff_getElem?_ne_getElem?.mpr fun i j hij hj heq => ?_
  have hname := List.getElem?_eq_getElem hj
  have hi := (k.get?_places _ i).mpr (heq.trans hname)
  have hj' := (k.get?_places _ j).mpr hname
  rw [hi] at hj'
  exact Nat.ne_of_lt hij (Option.some.inj hj')

theorem exists_get?_places_iff {name : String} :
    (∃ i, k.places.get? name = some i) ↔ name ∈ k.names := by
  rw [List.mem_iff_getElem?]
  exact exists_congr (k.get?_places name)

/-- A class of a new name is listed last, and no other name changes its place. -/
theorem names_register (k : Catalog) (c : UnitClass) :
    (k.register c).names = if c.name ∈ k.names then k.names else k.names ++ [c.name] := by
  show (k.classesWith c).toList.map UnitClass.name = _
  rw [classesWith]
  split
  · next i hi =>
    have hat := (k.get?_places c.name i).mp hi
    rw [if_pos (List.mem_of_getElem? hat), Array.toList_setIfInBounds, List.map_set, ← names]
    obtain ⟨hlt, hget⟩ := List.getElem?_eq_some_iff.mp hat
    rw [← hget, List.set_getElem_self]
  · next hnone =>
    have hnew : c.name ∉ k.names := by
      rw [← exists_get?_places_iff, hnone]
      rintro ⟨i, hi⟩
      cases hi
    rw [if_neg hnew, Array.toList_push, List.map_append]
    rfl

/-- The names of the classes under a heading, in order. -/
def namesUnder (classes : List UnitClass) (heading : String) : List String :=
  (classes.filter (·.group = some heading)).map UnitClass.name

private theorem namesUnder_snoc (classes : List UnitClass) (c : UnitClass) (heading : String) :
    namesUnder (classes ++ [c]) heading =
      namesUnder classes heading ++ if c.group = some heading then [c.name] else [] := by
  rw [namesUnder, List.filter_append, List.map_append, ← namesUnder]
  by_cases h : c.group = some heading <;> simp [h]

/-- Under a heading stand the classes that have it. A heading that no class has is not there. -/
private theorem get?_enter (classes : List UnitClass) (heading : String) :
    (classes.foldl enter .empty).get? heading =
      if namesUnder classes heading = [] then none else some (namesUnder classes heading) := by
  induction classes using List.reverseRecOn with
  | nil => rfl
  | append_singleton classes c ih =>
    rw [List.foldl_append, List.foldl_cons, List.foldl_nil, namesUnder_snoc, enter]
    cases hgroup : c.group with
    | none => simp [ih]
    | some own =>
      simp only [SortedMap.get?_insert, Option.some.injEq]
      by_cases h : heading = own
      · subst h
        rw [if_pos rfl, if_pos rfl, ih]
        split
        · next hnone => simp [hnone]
        · simp
      · rw [if_neg h, if_neg (Ne.symm h), List.append_nil]
        exact ih

theorem get?_groups (k : Catalog) (heading : String) (names : List String) :
    k.groups.get? heading = some names ↔
      names ≠ [] ∧ names = namesUnder k.classes.toList heading := by
  rw [groups, get?_enter]
  split
  · next hnone =>
    constructor
    · intro h
      cases h
    · rintro ⟨hne, rfl⟩
      exact absurd hnone hne
  · next hsome =>
    rw [Option.some.injEq]
    constructor
    · rintro rfl
      exact ⟨hsome, rfl⟩
    · exact fun h => h.2.symm

theorem mem_namesUnder {classes : List UnitClass} {heading name : String} :
    name ∈ namesUnder classes heading ↔ ∃ c ∈ classes, c.group = some heading ∧ c.name = name := by
  simp [namesUnder, and_assoc]

/-- Two headings have no class in common. -/
private theorem disjoint_namesUnder (k : Catalog) {a b : String} (h : a ≠ b) :
    (namesUnder k.classes.toList a).Disjoint (namesUnder k.classes.toList b) := by
  intro name ha hb
  obtain ⟨c, hc, hca, rfl⟩ := mem_namesUnder.mp ha
  obtain ⟨d, hd, hdb, hname⟩ := mem_namesUnder.mp hb
  obtain rfl := List.inj_on_of_nodup_map k.nodup_names hd hc hname
  rw [hca] at hdb
  exact h (Option.some.inj hdb)

/-- The headings share out the classes that have one: each stands under exactly one of them. -/
theorem perm_groups (k : Catalog) : k.groups.values.flatten.Perm
    ((k.classes.toList.filter (·.group.isSome)).map UnitClass.name) := by
  have hentry : ∀ e ∈ k.groups.entries, e.2 ≠ [] ∧ e.2 = namesUnder k.classes.toList e.1 :=
    fun e he => (k.get?_groups e.1 e.2).mp ((k.groups.get?_eq_some_iff e.1 e.2).mpr he)
  have hnodup : k.groups.values.flatten.Nodup := by
    refine List.nodup_flatten.mpr ⟨fun names hnames => ?_, List.pairwise_map.mpr ?_⟩
    · obtain ⟨e, he, rfl⟩ := List.mem_map.mp hnames
      rw [(hentry e he).2]
      exact k.nodup_names.sublist (List.filter_sublist.map UnitClass.name)
    · refine k.groups.sorted.imp_of_mem fun {d e} hd he hlt => ?_
      rw [(hentry d hd).2, (hentry e he).2]
      refine disjoint_namesUnder k fun heq => ?_
      rw [heq] at hlt
      exact String.lt_irrefl _ hlt
  have hnames := k.nodup_names.sublist
    ((List.filter_sublist (p := fun c => c.group.isSome)).map UnitClass.name)
  refine (List.perm_ext_iff_of_nodup hnodup hnames).mpr fun name => ?_
  constructor
  · intro hname
    obtain ⟨names, hnames, hmem⟩ := List.mem_flatten.mp hname
    obtain ⟨e, he, rfl⟩ := List.mem_map.mp hnames
    rw [(hentry e he).2] at hmem
    obtain ⟨c, hc, hgroup, rfl⟩ := mem_namesUnder.mp hmem
    exact List.mem_map_of_mem (List.mem_filter.mpr ⟨hc, by rw [hgroup]; rfl⟩)
  · intro hname
    obtain ⟨c, hc, rfl⟩ := List.mem_map.mp hname
    obtain ⟨hc, hgroup⟩ := List.mem_filter.mp hc
    obtain ⟨heading, hheading⟩ := Option.isSome_iff_exists.mp hgroup
    have hmem : c.name ∈ namesUnder k.classes.toList heading :=
      mem_namesUnder.mpr ⟨c, hc, hheading, rfl⟩
    have hget := (k.get?_groups heading _).mpr ⟨List.ne_nil_of_mem hmem, rfl⟩
    exact List.mem_flatten.mpr ⟨_, SortedMap.mem_values hget, hmem⟩

theorem mem_aliasesOf {name other : String} :
    other ∈ k.aliasesOf name ↔ k.aliases.get? other = some name := by
  rw [aliasesOf, List.mem_mergeSort, Table.get?_eq_some_iff]
  simp

theorem pairwise_aliasesOf (k : Catalog) (name : String) :
    (k.aliasesOf name).Pairwise (· < ·) := by
  have hsorted : (k.aliasesOf name).Pairwise (· ≤ ·) := by
    refine (List.pairwise_mergeSort ?_ ?_ _).imp of_decide_eq_true
    · intro a b c hab hbc
      exact decide_eq_true (String.le_trans (of_decide_eq_true hab) (of_decide_eq_true hbc))
    · intro a b
      simpa using String.le_total a b
  have hnodup : (k.aliasesOf name).Nodup :=
    (List.mergeSort_perm _ _).nodup_iff.mpr
      (k.aliases.distinct.sublist (List.filter_sublist.map Prod.fst))
  exact (hsorted.and hnodup).imp fun h => Std.lt_of_le_of_ne h.1 h.2

end Patchbay.Catalog
