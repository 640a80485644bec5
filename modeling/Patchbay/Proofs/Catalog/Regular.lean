import Mathlib.Data.List.Nodup
import Patchbay.Library.Standard

/-! Regular catalogs: every class is found under its own name, and each name stands for one socket
or one output of its class. The standard catalog is regular. -/
namespace Patchbay

theorem Jack.canonical_mem {j : Jack} (h : j.names ≠ []) : j.canonical ∈ j.names := by
  rw [canonical, List.head?_eq_some_head h, Option.getD_some]
  exact List.head_mem h

theorem Jack.answersTo_iff {j : Jack} {name : String} : j.answersTo name = true ↔ name ∈ j.names :=
  List.contains_iff_mem

namespace UnitClass

/-- A class whose jacks have names of their own, all distinct, and whose arguments have sockets.
The sides of a stereo output go by their proper names. -/
structure Regular (c : UnitClass) : Prop where
  socketNames : (c.sockets.flatMap Jack.names).Nodup
  socketsNamed : ∀ j ∈ c.sockets, j.names ≠ []
  outputNames : (c.outputs.flatMap Jack.names).Nodup
  outputsNamed : ∀ j ∈ c.outputs, j.names ≠ []
  positional : ∀ name ∈ c.positional, c.hasSocket name = true
  sides : ∀ name ∈ ["left", "right"], c.hasOutput name = true → name ∈ c.outputs.map Jack.canonical

instance (c : UnitClass) : Decidable c.Regular :=
  decidable_of_iff
    ((c.sockets.flatMap Jack.names).Nodup ∧ (∀ j ∈ c.sockets, j.names ≠ []) ∧
      (c.outputs.flatMap Jack.names).Nodup ∧ (∀ j ∈ c.outputs, j.names ≠ []) ∧
      (∀ name ∈ c.positional, c.hasSocket name = true) ∧
      ∀ name ∈ ["left", "right"], c.hasOutput name = true → name ∈ c.outputs.map Jack.canonical)
    ⟨fun ⟨a, b, c, d, e, f⟩ => ⟨a, b, c, d, e, f⟩, fun ⟨a, b, c, d, e, f⟩ => ⟨a, b, c, d, e, f⟩⟩

variable {c : UnitClass} {name other : String} {i : Nat}

theorem hasSocket_iff : c.hasSocket name = true ↔ ∃ i, c.socketIndex? name = some i := by
  rw [hasSocket, socketIndex?, ← Option.isSome_iff_exists, List.findIdx?_isSome]

theorem socketIndex?_lt (h : c.socketIndex? name = some i) : i < c.sockets.length :=
  (List.findIdx?_eq_some_iff_getElem.mp h).1

theorem hasOutput_iff : c.hasOutput name = true ↔ ∃ m, c.canonicalOutput? name = some m := by
  rw [hasOutput, canonicalOutput?, ← Option.isSome_iff_exists, Option.isSome_map,
    List.find?_isSome, List.any_eq_true]

theorem canonicalOutput?_mem (h : c.canonicalOutput? name = some other) :
    other ∈ c.outputs.map Jack.canonical := by
  obtain ⟨j, hj, rfl⟩ := Option.map_eq_some_iff.mp h
  exact List.mem_map_of_mem (List.mem_of_find?_eq_some hj)

/-- A list of jacks in which no name occurs twice has one jack for each name. -/
private theorem findIdx?_answersTo {jacks : List Jack} (hn : (jacks.flatMap Jack.names).Nodup)
    {j : Jack} (hj : jacks[i]? = some j) (hm : name ∈ j.names) :
    jacks.findIdx? (·.answersTo name) = some i := by
  induction jacks generalizing i with
  | nil => simp at hj
  | cons first rest ih =>
    rw [List.flatMap_cons] at hn
    rw [List.findIdx?_cons]
    cases i with
    | zero =>
      cases hj
      rw [if_pos (Jack.answersTo_iff.mpr hm)]
    | succ i =>
      rw [List.getElem?_cons_succ] at hj
      have hrest : name ∈ rest.flatMap Jack.names :=
        List.mem_flatMap.mpr ⟨j, List.mem_of_getElem? hj, hm⟩
      have hfirst : first.answersTo name ≠ true := fun hf =>
        List.disjoint_of_nodup_append hn (Jack.answersTo_iff.mp hf) hrest
      rw [if_neg hfirst, ih (List.Nodup.of_append_right hn) hj]
      rfl

private theorem find?_answersTo {jacks : List Jack} (hn : (jacks.flatMap Jack.names).Nodup)
    {j : Jack} (hj : j ∈ jacks) (hm : name ∈ j.names) :
    jacks.find? (·.answersTo name) = some j := by
  obtain ⟨i, hi⟩ := List.getElem?_of_mem hj
  obtain ⟨hlt, hanswers, hbefore⟩ :=
    List.findIdx?_eq_some_iff_getElem.mp (findIdx?_answersTo hn hi hm)
  obtain ⟨_, rfl⟩ := List.getElem?_eq_some_iff.mp hi
  refine List.find?_eq_some_iff_getElem.mpr ⟨hanswers, i, hlt, rfl, fun k hk => ?_⟩
  rw [Bool.eq_false_iff.mpr (hbefore k hk)]
  rfl

theorem Regular.socketIndex?_eq (h : c.Regular) {j : Jack} (hj : c.sockets[i]? = some j)
    (hm : name ∈ j.names) : c.socketIndex? name = some i :=
  findIdx?_answersTo h.socketNames hj hm

theorem Regular.socketIndex?_canonical (h : c.Regular) {j : Jack} (hj : c.sockets[i]? = some j) :
    c.socketIndex? j.canonical = some i :=
  h.socketIndex?_eq hj (Jack.canonical_mem (h.socketsNamed j (List.mem_of_getElem? hj)))

/-- The proper name of a socket leads to the same socket. -/
theorem Regular.socketIndex?_canonicalSocket? (h : c.Regular)
    (hs : c.canonicalSocket? name = some other) : c.socketIndex? other = c.socketIndex? name := by
  obtain ⟨j, hj, rfl⟩ := Option.map_eq_some_iff.mp hs
  obtain ⟨i, hi⟩ := List.getElem?_of_mem (List.mem_of_find?_eq_some hj)
  have hname : name ∈ j.names := by
    have hanswer := List.find?_some hj
    exact Jack.answersTo_iff.mp hanswer
  rw [h.socketIndex?_canonical hi, h.socketIndex?_eq hi hname]

/-- A proper name is its own proper name. -/
theorem Regular.canonicalSocket?_canonicalSocket? (h : c.Regular)
    (hs : c.canonicalSocket? name = some other) : c.canonicalSocket? other = some other := by
  obtain ⟨j, hj, rfl⟩ := Option.map_eq_some_iff.mp hs
  have hmem := List.mem_of_find?_eq_some hj
  rw [canonicalSocket?, find?_answersTo h.socketNames hmem
    (Jack.canonical_mem (h.socketsNamed j hmem)), Option.map_some]

theorem Regular.canonicalOutput?_canonicalOutput? (h : c.Regular)
    (hs : c.canonicalOutput? name = some other) : c.canonicalOutput? other = some other := by
  obtain ⟨j, hj, rfl⟩ := Option.map_eq_some_iff.mp hs
  have hmem := List.mem_of_find?_eq_some hj
  rw [canonicalOutput?, find?_answersTo h.outputNames hmem
    (Jack.canonical_mem (h.outputsNamed j hmem)), Option.map_some]

theorem canonicalSocket?_eq_some_iff :
    (∃ m, c.canonicalSocket? name = some m) ↔ c.hasSocket name = true := by
  rw [hasSocket, canonicalSocket?, ← Option.isSome_iff_exists, Option.isSome_map,
    List.find?_isSome, List.any_eq_true]

theorem Regular.hasSocket_canonicalSocket? (h : c.Regular)
    (hs : c.canonicalSocket? name = some other) : c.hasSocket other = true := by
  rw [hasSocket_iff, h.socketIndex?_canonicalSocket? hs, ← hasSocket_iff,
    ← canonicalSocket?_eq_some_iff]
  exact ⟨other, hs⟩

theorem Regular.positionalSocket? (h : c.Regular) (hs : c.positionalSocket? i = some name) :
    ∃ k, c.socketIndex? name = some k :=
  hasSocket_iff.mp (h.positional name (List.mem_of_getElem? hs))

/-- Either side of a stereo source is one of its outputs. -/
theorem Regular.side_mem (h : c.Regular) (hs : c.isStereoSource = true) :
    "left" ∈ c.outputs.map Jack.canonical ∧ "right" ∈ c.outputs.map Jack.canonical := by
  obtain ⟨hl, hr⟩ := Bool.and_eq_true_iff.mp hs
  exact ⟨h.sides _ (by simp) hl, h.sides _ (by simp) hr⟩

end UnitClass

namespace Catalog

/-- A catalog of regular classes, each under its own name. -/
def Regular (k : Catalog) : Prop :=
  ∀ name c, k.resolve? name = some c → c.Regular ∧ k.resolve? c.name = some c

end Catalog

namespace Library

/-- Every class of the standard units is regular and found under its own name. -/
theorem standard_regular : standard.catalog.Regular := by
  have all : ∀ c ∈ standard.catalog.classes.toList,
      c.Regular ∧ standard.catalog.resolve? c.name = some c := by decide
  intro name c h
  exact all c (Catalog.mem_of_resolve? h)

end Patchbay.Library
