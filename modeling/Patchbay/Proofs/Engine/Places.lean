import Mathlib.Data.List.Nodup
import Patchbay.Proofs.Engine.Numbering
import Patchbay.Proofs.Engine.Reference

/-! The instances of an engine are the places of its graph, and the slots of outputs are the outputs
of all places, each in a list without repeats. -/
namespace Patchbay
open Reference
variable {α : Type}

namespace Reference.Patch
variable (p : Patch α)

theorem count_eq {object : Nat} {n : Node α} {c : UnitClass}
    (h : p.objects[object]? = some (n, c)) :
    p.count object = if n.perVoice then p.voices else 1 := by
  rw [count, h]

theorem mem_placesOf {object : Nat} {place : Place} :
    place ∈ p.placesOf object ↔ place.object = object ∧ place.voice < p.count object := by
  rw [placesOf, List.mem_map]
  constructor
  · rintro ⟨voice, hv, rfl⟩
    exact ⟨rfl, List.mem_range.mp hv⟩
  · rintro ⟨rfl, hv⟩
    exact ⟨place.voice, List.mem_range.mpr hv, rfl⟩

theorem length_placesOf (object : Nat) : (p.placesOf object).length = p.count object := by
  rw [placesOf, List.length_map, List.length_range]

/-- Objects have as many places as there are voices that they belong to. -/
theorem map_length_placesOf : ((List.range p.objects.length).map p.placesOf).map List.length =
    p.objects.map fun o => if o.1.perVoice then p.voices else 1 := by
  refine List.ext_getElem (by simp) fun i hi _ => ?_
  have hi' : i < p.objects.length := by simpa using hi
  simp [p.length_placesOf, p.count_eq (List.getElem?_eq_getElem hi')]

theorem getElem?_placesOf {object voice : Nat} (h : voice < p.count object) :
    (p.placesOf object)[voice]? = some ⟨object, voice⟩ := by
  rw [placesOf, List.getElem?_map, List.getElem?_range h, Option.map_some]

theorem nodup_places : p.places.Nodup := by
  refine List.nodup_flatMap.mpr ⟨fun object _ => ?_, ?_⟩
  · refine List.Nodup.map (fun v v' h => ?_) List.nodup_range
    cases h
    rfl
  · refine List.Pairwise.imp (fun hne place h h' => ?_) List.nodup_range
    exact hne ((p.mem_placesOf.mp h).1.symm.trans (p.mem_placesOf.mp h').1)

/-- How many outputs an object has. -/
def outputCount (object : Nat) : Nat := ((p.objects[object]?).map fun x => x.2.outputs.length).getD 0

/-- The outputs of a place, each with its number. -/
def slotsOf (place : Place) : List (Place × Nat) :=
  (List.range (p.outputCount place.object)).map (place, ·)

/-- The outputs of all places. -/
def slots : List (Place × Nat) := p.places.flatMap p.slotsOf

theorem length_slotsOf (place : Place) :
    (p.slotsOf place).length = p.outputCount place.object := by
  rw [slotsOf, List.length_map, List.length_range]

theorem getElem?_slotsOf {place : Place} {i : Nat} (h : i < p.outputCount place.object) :
    (p.slotsOf place)[i]? = some (place, i) := by
  rw [slotsOf, List.getElem?_map, List.getElem?_range h, Option.map_some]

theorem fst_of_mem_slotsOf {place : Place} {slot : Place × Nat} (h : slot ∈ p.slotsOf place) :
    slot.1 = place := by
  obtain ⟨i, _, rfl⟩ := List.mem_map.mp h
  rfl

theorem fst_mem_places {k : Nat} {slot : Place × Nat} (h : p.slots[k]? = some slot) :
    slot.1 ∈ p.places := by
  obtain ⟨place, hplace, hslot⟩ := List.mem_flatMap.mp (List.mem_of_getElem? h)
  rwa [p.fst_of_mem_slotsOf hslot]

theorem lt_of_mem_slots {place : Place} {i : Nat} (h : (place, i) ∈ p.slots) :
    i < p.outputCount place.object := by
  obtain ⟨place', _, hslot⟩ := List.mem_flatMap.mp h
  obtain ⟨i', hi, heq⟩ := List.mem_map.mp hslot
  cases heq
  exact List.mem_range.mp hi

theorem nodup_slots : p.slots.Nodup := by
  refine List.nodup_flatMap.mpr ⟨fun place _ => ?_, ?_⟩
  · refine List.Nodup.map (fun i i' h => ?_) List.nodup_range
    exact (Prod.mk.inj h).2
  · refine List.Pairwise.imp (fun hne slot h h' => ?_) p.nodup_places
    exact hne ((p.fst_of_mem_slotsOf h).symm.trans (p.fst_of_mem_slotsOf h'))

/-- The instance of that number is the one of a place. -/
def At (id : Nat) (place : Place) : Prop := p.places[id]? = some place

variable {p}

theorem At.unique {id : Nat} {place place' : Place} (h : p.At id place) (h' : p.At id place') :
    place = place' := Option.some.inj (h.symm.trans h')

theorem At.injective {id id' : Nat} {place : Place} (h : p.At id place) (h' : p.At id' place) :
    id = id' :=
  (List.getElem?_inj (List.getElem?_eq_some_iff.mp h).1 p.nodup_places).mp (h.trans h'.symm)

theorem At.idxOf {id : Nat} {place : Place} (h : p.At id place) : p.places.idxOf place = id := by
  obtain ⟨hlt, rfl⟩ := List.getElem?_eq_some_iff.mp h
  exact p.nodup_places.idxOf_getElem id hlt

theorem At.voice_lt {id : Nat} {place : Place} (h : p.At id place) :
    place.voice < p.count place.object := by
  obtain ⟨object, _, hm⟩ := List.mem_flatMap.mp (List.mem_of_getElem? h)
  obtain ⟨rfl, hv⟩ := p.mem_placesOf.mp hm
  exact hv

theorem At.object {id : Nat} {place : Place} (h : p.At id place) :
    ∃ n c, p.objects[place.object]? = some (n, c) := by
  have hv := h.voice_lt
  rw [count] at hv
  cases ho : p.objects[place.object]? with
  | none =>
    rw [ho] at hv
    exact absurd hv (Nat.not_lt_zero _)
  | some x => exact ⟨x.1, x.2, rfl⟩

end Reference.Patch

namespace Wiring
open Reference.Patch
variable (p : Patch α)

/-- The objects of a patch with their instances. -/
abbrev placed : List (Placed α) := place p.voices p.objects

variable {p}

/-- The instances of an object are its places. -/
theorem getElem?_placed {object : Nat} {n : Node α} {c : UnitClass}
    (h : p.objects[object]? = some (n, c)) :
    ∃ e, (placed p)[object]? = some ⟨n, c, e⟩ ∧ e.Holds p.places (p.placesOf object) := by
  have hlt := (List.getElem?_eq_some_iff.mp h).1
  have hparts : ((List.range p.objects.length).map p.placesOf)[object]? =
      some (p.placesOf object) := by
    rw [List.getElem?_map, List.getElem?_range hlt, Option.map_some]
  obtain ⟨e, he, hholds⟩ := Extent.tile_holds hparts
  rw [p.map_length_placesOf] at he
  refine ⟨e, ?_, hholds⟩
  rw [placed, place, List.getElem?_zipWith, h, he]

theorem map_instances_placed : (placed p).map (·.instances) =
    Extent.tile 0 (p.objects.map fun o => if o.1.perVoice then p.voices else 1) := by
  have hlength : (Extent.tile 0 (p.objects.map fun o =>
      if o.1.perVoice then p.voices else 1)).length ≤ p.objects.length :=
    Nat.le_of_eq ((Extent.length_tile ..).trans (List.length_map ..))
  have hzip := List.map_snd_zip hlength
  rw [List.zip, List.map_zipWith] at hzip
  rw [placed, place, List.map_zipWith]
  exact hzip

theorem length_placed : (placed p).length = p.objects.length := by
  rw [placed, place, List.length_zipWith, Extent.length_tile, List.length_map, Nat.min_self]

theorem getElem?_placed_inv {object : Nat} {q : Placed α} (h : (placed p)[object]? = some q) :
    p.objects[object]? = some (q.node, q.cls) ∧ q.instances.Holds p.places (p.placesOf object) := by
  have hlt : object < p.objects.length := length_placed (p := p) ▸ (List.getElem?_eq_some_iff.mp h).1
  obtain ⟨e, he, hholds⟩ := getElem?_placed (p := p) (List.getElem?_eq_getElem hlt)
  rw [h] at he
  cases he
  exact ⟨List.getElem?_eq_getElem hlt, hholds⟩

/-- The instance for a voice is at the place of that voice, or at the only one. -/
theorem at_forVoice {object : Nat} {q : Placed α} (h : (placed p)[object]? = some q) (voice : Nat)
    (hv : (if q.node.perVoice then voice else 0) < p.count object) :
    p.At (q.forVoice voice) ⟨object, if q.node.perVoice then voice else 0⟩ :=
  (getElem?_placed_inv h).2.getElem? (p.getElem?_placesOf hv)

/-- Instances in order, with their voices. -/
abbrev readers (p : Patch α) : List (Placed α × Nat) :=
  (placed p).flatMap fun q => (List.range q.instances.size).map (q, ·)

theorem forall₂_readers :
    List.Forall₂ (fun place r => (placed p)[place.object]? = some r.1 ∧ r.2 = place.voice)
      p.places (readers p) := by
  have hobjects : List.Forall₂ (fun object q => (placed p)[object]? = some q)
      (List.range p.objects.length) (placed p) := by
    refine forall₂_of_getElem? (by rw [List.length_range, length_placed]) fun i object q ho hq => ?_
    have hi := (List.getElem?_eq_some_iff.mp ho).1
    rw [List.length_range] at hi
    rw [List.getElem?_range hi] at ho
    exact Option.some.inj ho ▸ hq
  refine List.rel_flatten (List.rel_map (fun object q hq => ?_) hobjects)
  have hsize := (getElem?_placed_inv hq).2.size_eq
  rw [p.length_placesOf] at hsize
  rw [placesOf, hsize, List.forall₂_map_left_iff, List.forall₂_map_right_iff]
  exact List.forall₂_same.mpr fun voice _ => ⟨hq, rfl⟩

theorem voice_lt_of_mem_readers {r : Placed α × Nat} (hr : r ∈ readers p)
    (hown : r.1.node.perVoice = true) : r.2 < p.voices := by
  obtain ⟨place, hplace, hq, hvoice⟩ := exists_of_mem_right forall₂_readers hr
  obtain ⟨id, hid⟩ := List.getElem?_of_mem hplace
  have hlt := At.voice_lt hid
  rwa [p.count_eq (getElem?_placed_inv hq).1, if_pos hown, ← hvoice] at hlt

end Wiring
end Patchbay
