import Patchbay.Proofs.Engine.Simulation

/-! The engine of a graph before the first call is the player of the graph at its start: each object
has its class, each place a unit of its own, and each voice knows its place. -/
namespace Patchbay
open Reference Reference.Patch Wiring
variable {α U : Type}

namespace Wiring
variable {catalog : Catalog} {nodes : List (Node α)} {classes : List UnitClass}

theorem resolve_of_classesOf (h : classesOf catalog nodes = .ok classes) :
    List.Forall₂ (fun n c => catalog.resolve? n.className = some c) nodes classes := by
  apply (forall₂_of_mapM h).imp
  intro n c hc
  split at hc
  · cases hc
  · next hresolve =>
    split at hc
    · cases hc
    · cases hc
      exact hresolve

/-- All objects of a graph that is wired have classes. -/
theorem objects_ofGraph {graph : Graph α} (h : classesOf catalog graph.nodes = .ok classes)
    (voices : Nat) :
    (Patch.ofGraph catalog voices graph).objects = graph.nodes.zip classes := by
  have hresolve := resolve_of_classesOf h
  rw [Patch.ofGraph]
  clear h
  generalize graph.nodes = nodes at hresolve
  dsimp only
  induction hresolve with
  | nil => rfl
  | @cons n c _ _ hc _ ih =>
    rw [List.filterMap_cons, hc, Option.map_some, List.zip_cons_cons, ih]

end Wiring

namespace Engine
variable [Arithmetic α] [Playable α U] {registry : Registry α U} {settings : EngineSettings}
  {p : Patch α}

/-- The instances get the units of their places. -/
theorem unitsOf_places {units : List U}
    (h : unitsOf registry settings (placed p) = .ok units) {id : Nat} {place : Place}
    (hid : p.At id place) : units[id]? = some (unitAt p registry settings place) := by
  obtain ⟨parts, hparts, rfl⟩ := forall₂_of_flatMapM h
  have hlen : ((List.range p.objects.length).map p.placesOf).length = parts.length := by
    rw [List.length_map, List.length_range, ← length_placed, hparts.length_eq]
  -- The units of an object are those of its places, since its instances are.
  have hobjects : List.Forall₂ (List.Forall₂ fun place unit =>
      unitAt p registry settings place = unit)
      ((List.range p.objects.length).map p.placesOf) parts := by
    apply forall₂_of_getElem? hlen
    intro object places part hplaces hpart
    obtain ⟨q, hq, hok⟩ := forall₂_getElem? hparts.flip hpart
    obtain ⟨hobject, hholds⟩ := getElem?_placed_inv hq
    have hobject' : object < p.objects.length := (List.getElem?_eq_some_iff.mp hobject).1
    rw [List.getElem?_map, List.getElem?_range hobject', Option.map_some] at hplaces
    obtain rfl := Option.some.inj hplaces
    have hunits := forall₂_of_mapM hok
    apply forall₂_of_getElem? (hholds.length_eq.symm.trans hunits.length_eq)
    intro j place unit hplace hunit
    obtain ⟨id, hj, hat⟩ := forall₂_getElem? hholds.flip hplace
    obtain ⟨unit', hunit', hcreate⟩ := forall₂_getElem? hunits hj
    rw [hunit] at hunit'
    cases hunit'
    have hplaceObject := (p.mem_placesOf.mp (List.mem_of_getElem? hplace)).1
    rw [unitAt, hplaceObject, hobject, At.idxOf hat]
    dsimp only
    split at hcreate
    · next hsome =>
      cases hcreate
      rw [hsome, Option.getD_some]
    · cases hcreate
  obtain ⟨unit, hunit, rfl⟩ := forall₂_getElem? (List.rel_flatten hobjects) hid
  exact hunit

variable {e : Engine α U}

/-- Spreading voices changes only units: each instance of an extent takes its share. -/
theorem spreadVoices_eq (inputs : Extent) :
    e.spreadVoices inputs =
      { e with
        units := (List.range inputs.size).foldl
          (fun units voice => units.modify (inputs.start + voice) fun unit => Playable.setValue
            (Arithmetic.natural voice / Arithmetic.natural (max e.voices.voices.length 2 - 1)) unit)
          e.units } := by
  rw [spreadVoices]
  generalize (Arithmetic.natural (max e.voices.voices.length 2 - 1) : α) = last
  generalize List.range inputs.size = voices
  induction voices generalizing e with
  | nil => rfl
  | cons voice rest ih =>
    rw [List.foldl_cons, List.foldl_cons, ih]
    rfl

omit [Arithmetic α] in
theorem getElem?_foldl_modify {β : Type} (f : Nat → β → β) (start count : Nat) (units : Array β)
    (id : Nat) :
    ((List.range count).foldl (fun units i => units.modify (start + i) (f i)) units)[id]? =
      if start ≤ id ∧ id < start + count then units[id]?.map (f (id - start))
      else units[id]? := by
  induction count with
  | zero =>
    have hnot : ¬ (start ≤ id ∧ id < start + 0) := by omega
    rw [if_neg hnot]
    rfl
  | succ count ih =>
    rw [List.range_succ, List.foldl_append, List.foldl_cons, List.foldl_nil,
      Array.getElem?_modify, ih]
    by_cases heq : start + count = id
    · subst heq
      have hnot : ¬ (start ≤ start + count ∧ start + count < start + count) := by omega
      have hlt : start ≤ start + count ∧ start + count < start + (count + 1) := by omega
      rw [if_pos rfl, if_neg hnot, if_pos hlt, Nat.add_sub_cancel_left]
    · have hiff : (start ≤ id ∧ id < start + (count + 1)) ↔ (start ≤ id ∧ id < start + count) := by
        omega
      rw [if_neg heq, if_congr hiff rfl rfl]

section Extent
variable {inputs : Extent} {object id : Nat} {place : Place}
  (h : inputs.Holds p.places (p.placesOf object)) (hid : p.At id place)
include h hid

omit [Arithmetic α] in
theorem object_of_between (hlt : inputs.start ≤ id ∧ id < inputs.start + inputs.size) :
    place.object = object := by
  have hm : id ∈ inputs.toList := List.mem_range'_1.mpr hlt
  obtain ⟨place', hplace, hid'⟩ := h.exists_of_mem hm
  rw [hid.unique hid']
  exact (p.mem_placesOf.mp hplace).1

omit [Arithmetic α] in
theorem eq_add_voice (hobject : place.object = object) :
    id = inputs.start + place.voice ∧ place.voice < inputs.size := by
  subst hobject
  have hv := hid.voice_lt
  have hat := h.getElem? (p.getElem?_placesOf hv)
  rw [h.size_eq, p.length_placesOf]
  exact ⟨hid.injective hat, hv⟩

end Extent

/-- Spreading the voices of the last voice input makes the units of the start. -/
theorem spreadVoices_places {inputs : Extent}
    (hinputs : inputs.Holds p.places (p.placesOf (Builtin.firstVoiceInput + 4)))
    (hvoices : e.voices.voices.length = p.voices)
    (hunits : ∀ id place, p.At id place → e.units[id]? = some (unitAt p registry settings place))
    {id : Nat} {place : Place} (hid : p.At id place) :
    (e.spreadVoices inputs).units[id]? = some ((start p registry settings).units place) := by
  rw [spreadVoices_eq, start, hvoices]
  dsimp only
  rw [getElem?_foldl_modify, hunits id place hid, Option.map_some]
  by_cases hobject : place.object = Builtin.firstVoiceInput + 4
  · obtain ⟨rfl, hlt⟩ := eq_add_voice hinputs hid hobject
    rw [if_pos ⟨Nat.le_add_right _ _, Nat.add_lt_add_left hlt _⟩, if_pos hobject,
      Nat.add_sub_cancel_left]
  · rw [if_neg fun hlt => hobject (object_of_between hinputs hid hlt), if_neg hobject]

/-- What an engine is made of, piece by piece. -/
theorem parts_of_ofRegistry {graph : Graph α} (h : Engine.ofRegistry registry settings graph = .ok e)
    (hp : p = Patch.ofGraph registry.catalog settings.voices graph) :
    0 < p.voices ∧ ∃ classes units, classesOf registry.catalog graph.nodes = .ok classes ∧
      checkBuiltins p.objects = .ok () ∧ unitsOf registry settings (placed p) = .ok units ∧
      Wiring.ofGraph p.voices graph (placed p) = .ok e.wiring ∧
      e = (⟨e.wiring, units.toArray, e.wiring.initial, [], .ofCount p.voices⟩ : Engine α U).spreadVoices
        (((placed p)[Builtin.firstVoiceInput + 4]?.map (·.instances)).getD ⟨0, 0⟩) := by
  rw [Engine.ofRegistry] at h
  split at h
  · cases h
  · next hzero =>
    obtain ⟨classes, hclasses, h⟩ := exists_of_bind_eq_ok h
    obtain ⟨_, hbuiltins, h⟩ := exists_of_bind_eq_ok h
    obtain ⟨units, hunits, h⟩ := exists_of_bind_eq_ok h
    obtain ⟨wiring, hwiring, h⟩ := exists_of_bind_eq_ok h
    have hobjects : p.objects = graph.nodes.zip classes := hp ▸ objects_ofGraph hclasses _
    have hcount : p.voices = settings.voices := hp ▸ rfl
    rw [← hobjects] at hbuiltins hunits hwiring h
    rw [← hcount] at hunits hwiring h
    have hown : e.wiring = wiring := by
      cases h
      rw [spreadVoices_eq]
    rw [hown]
    refine ⟨hcount ▸ Nat.pos_of_ne_zero hzero, classes, units, hclasses, hbuiltins, hunits,
      hwiring, ?_⟩
    exact (Except.ok.inj h).symm

/-- Before the first call an engine is the start of its graph. -/
theorem represents_of_ofRegistry {graph : Graph α}
    (h : Engine.ofRegistry registry settings graph = .ok e)
    (hp : p = Patch.ofGraph registry.catalog settings.voices graph) :
    Wired p e.wiring ∧ Represents p e.wiring e (start p registry settings) ∧
      p.objects.map Prod.fst = graph.nodes ∧ 0 < p.voices := by
  obtain ⟨hpos, classes, units, hclasses, hbuiltins, hunits, hwiring, he⟩ :=
    parts_of_ofRegistry h hp
  have hobjects : p.objects = graph.nodes.zip classes := hp ▸ objects_ofGraph hclasses _
  have hw : Wired p e.wiring := wired_of_ofGraph hbuiltins (hp ▸ rfl) (hp ▸ rfl) hwiring
  have hv : (Voices.ofCount p.voices).voices.length = p.voices := List.length_replicate
  obtain ⟨n, c, hspread, _⟩ := perVoice_of_check hbuiltins (own_mem_demands (i := 4) (by decide))
  obtain ⟨inputs, hplaced, hholds⟩ := getElem?_placed hspread
  rw [show (placed p)[Builtin.firstVoiceInput + 4]? = some ⟨n, c, inputs⟩ from hplaced,
    Option.map_some, Option.getD_some] at he
  generalize e.wiring = wiring at he hw ⊢
  subst he
  have hunits' : ∀ id place, p.At id place →
      units.toArray[id]? = some (unitAt p registry settings place) := by
    intro id place hid
    rw [List.getElem?_toArray]
    exact unitsOf_places hunits hid
  refine ⟨hw, ⟨?_, ?_, ?_, ?_, ?_, hv⟩, ?_, hpos⟩
  · rw [spreadVoices_eq]
  · intro id place hid
    exact spreadVoices_places hholds hv hunits' hid
  · rw [spreadVoices_eq]
    exact ⟨fun k place i hk => hw.initial k (List.getElem?_eq_some_iff.mp hk).1, fun _ _ => rfl⟩
  · rw [spreadVoices_eq]
    exact .nil
  · rw [spreadVoices_eq]
    rfl
  · rw [hobjects]
    exact List.map_fst_zip (Nat.le_of_eq (forall₂_of_mapM hclasses).length_eq)

end Engine
end Patchbay
