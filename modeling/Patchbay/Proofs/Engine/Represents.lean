import Patchbay.Proofs.Engine.Wired

/-! Engines that are played like the objects of their graph: the units of all places, the values of
all outputs and the open triggers agree, and every call keeps it so. -/
namespace Patchbay

open Reference Reference.Patch Wiring
variable {α U : Type}

/-- An engine and a player of its graph agree. -/
structure Represents (p : Patch α) (w : Wiring α) (e : Engine α U) (s : Player α U) : Prop where
  wiring : e.wiring = w
  units : ∀ id place, p.At id place → e.units[id]? = some (s.units place)
  values : Stores p w e.values s.values
  latched : List.Forall₂ p.At e.latched s.latched
  voices : e.voices = s.voices
  count : s.voices.voices.length = p.voices

namespace Represents
variable {p : Patch α} {w : Wiring α} {e : Engine α U} {s : Player α U} (h : Represents p w e s)
include h

theorem contains_latched {id : Nat} {place : Place} (hid : p.At id place) :
    e.latched.contains id = s.latched.contains place := by
  have hl := h.latched
  generalize e.latched = ids at hl
  generalize s.latched = places at hl
  induction hl with
  | nil => rfl
  | @cons id' place' _ _ hid' _ ih =>
    rw [List.contains_cons, List.contains_cons, ih]
    congr 1
    rw [Bool.eq_iff_iff, beq_iff_eq, beq_iff_eq]
    constructor
    · rintro rfl
      exact hid.unique hid'
    · rintro rfl
      exact hid.injective hid'

theorem withVoices {voices : Voices} (hl : voices.voices.length = p.voices) :
    Represents p w { e with voices } { s with voices } :=
  ⟨h.wiring, h.units, h.values, h.latched, rfl, hl⟩

/-- A unit that changes alone changes at its place alone. -/
theorem units_update {id : Nat} {place : Place} (hid : p.At id place) {units : Array U} {unit : U}
    (hunit : units[id]? = some unit) (hothers : ∀ id' : Nat, id ≠ id' → units[id']? = e.units[id']?)
    (id' : Nat) (place' : Place) (hid' : p.At id' place') :
    units[id']? = some (Function.update s.units place unit place') := by
  by_cases heq : id = id'
  · subst heq
    obtain rfl := hid.unique hid'
    rw [hunit, Function.update_self]
  · have hne : place' ≠ place := fun hp => heq (hid.injective (hp ▸ hid'))
    rw [hothers id' heq, h.units id' place' hid', Function.update_of_ne hne]

section Setting
variable [Playable α U]

theorem set {id : Nat} {place : Place} (hid : p.At id place) (value : α) :
    Represents p w (e.setUnit id value) (Reference.set s place value) := by
  refine ⟨h.wiring, h.units_update hid ?_ ?_, h.values, h.latched, h.voices, h.count⟩
  · show (e.units.modify id _)[id]? = _
    rw [Array.getElem?_modify, if_pos rfl, h.units id place hid, Option.map_some]
  · intro id' hne
    show (e.units.modify id _)[id']? = _
    rw [Array.getElem?_modify, if_neg hne]

theorem setAll {ids : List Nat} {places : List Place} (hids : List.Forall₂ p.At ids places)
    (value : α) :
    Represents p w (ids.foldl (fun e id => e.setUnit id value) e)
      (places.foldl (fun s place => Reference.set s place value) s) := by
  induction hids generalizing e s with
  | nil => exact h
  | cons hid _ ih => exact ih (h.set hid value)

end Setting

variable [Arithmetic α]

/-- The note inputs of a voice are wired. -/
theorem voiceInputs (hw : Wired p w) {voice : Nat} (hlt : voice < p.voices) :
    ∃ notes, e.wiring.voiceInputs[voice]? = some notes ∧
      NotesAt p Builtin.firstVoiceInput voice notes := by
  rw [h.wiring]
  exact forall₂_getElem? hw.voiceInputs (List.getElem?_range hlt)

/-- The gates of all note inputs, those of the voices first. -/
theorem gates (hw : Wired p w) :
    List.Forall₂ p.At (e.wiring.voiceInputs.map (·.gate) ++ [e.wiring.globalInputs.gate])
      ((List.range p.voices).map (⟨Builtin.firstVoiceInput + 1, ·⟩) ++ [⟨1, 0⟩]) := by
  rw [h.wiring]
  refine List.rel_append ?_ (.cons hw.globalInputs.gate .nil)
  rw [List.forall₂_map_left_iff, List.forall₂_map_right_iff]
  exact hw.voiceInputs.flip.imp fun _ _ hn => hn.gate

variable [Playable α U]

theorem startNote {first voice : Nat} {notes : NoteInputs} (hn : NotesAt p first voice notes)
    (pitch velocity : α) :
    Represents p w (e.startNote pitch velocity notes)
      (Reference.startNote s pitch velocity first voice) := by
  have hset := (((h.set hn.gate (Arithmetic.natural 1)).set hn.pitch pitch).set hn.velocity
    velocity).set hn.trigger (Arithmetic.natural 1)
  rw [Engine.startNote, Reference.startNote, hset.contains_latched hn.trigger]
  split
  · exact hset
  · refine ⟨hset.wiring, hset.units, hset.values, ?_, hset.voices,
      hset.count⟩
    exact List.rel_append hset.latched (.cons hn.trigger .nil)

variable (hw : Wired p w) (hv : 0 < p.voices)
include hw

include hv in
theorem noteOn (note : Nat) (velocity : α) :
    Represents p w (e.noteOn note velocity) (Reference.noteOn s note velocity) := by
  rw [Engine.noteOn, Reference.noteOn]
  split
  · exact h
  · have hlt : (s.voices.assign note).2 < p.voices :=
      Nat.lt_of_lt_of_eq (Voices.assign_lt (h.count ▸ hv) note) h.count
    have hlen := (s.voices.length_assign note).trans h.count
    rw [h.voices]
    generalize s.voices.assign note = assigned at hlt hlen
    obtain ⟨voices, voice⟩ := assigned
    obtain ⟨notes, hnotes, hat⟩ := h.voiceInputs hw hlt
    dsimp only
    rw [hnotes]
    have hglobal : NotesAt p 0 0 e.wiring.globalInputs := h.wiring ▸ hw.globalInputs
    exact ((h.withVoices hlen).startNote hglobal _ _).startNote hat _ _

theorem noteOff (note : Nat) :
    Represents p w (e.noteOff note) (Reference.noteOff s note) := by
  have hlen := (s.voices.length_release note).trans h.count
  have hlt : ∀ voice, (s.voices.release note).2 = some voice → voice < p.voices :=
    fun voice hvoice => h.count ▸ Voices.release_lt hvoice
  rw [Engine.noteOff, Reference.noteOff, h.voices]
  generalize s.voices.release note = released at hlt hlen
  obtain ⟨voices, _ | voice⟩ := released
  · exact h
  · obtain ⟨notes, hnotes, hat⟩ := h.voiceInputs hw (hlt voice rfl)
    have hset := (h.withVoices hlen).set hat.gate (Arithmetic.natural 0)
    have hglobal : p.At e.wiring.globalInputs.gate ⟨1, 0⟩ := h.wiring ▸ hw.globalInputs.gate
    dsimp only
    rw [hnotes]
    dsimp only
    split
    · exact hset
    · exact hset.set hglobal (Arithmetic.natural 0)

theorem releaseAll : Represents p w e.releaseAll (Reference.releaseAll p s) := by
  rw [Engine.releaseAll, Reference.releaseAll, h.voices]
  exact (h.withVoices (s.voices.length_releaseAll.trans h.count)).setAll (h.gates hw) _

theorem setParameter (name : String) (value : α) :
    Represents p w ((e.setParameter name value).getD e) (Reference.setParameter p s name value) := by
  have hfind : ∀ {parameters : List Parameter} {slots : List Slot},
      List.Forall₂ (fun parameter slot => slot.name = parameter.name ∧
        slot.instances.Holds p.places (p.placesOf parameter.object)) parameters slots →
      Option.Rel (fun (parameter : Parameter) (slot : Slot) =>
        slot.instances.Holds p.places (p.placesOf parameter.object))
          (parameters.find? (·.name == name)) (slots.find? (·.name == name)) := by
    intro parameters slots hl
    induction hl with
    | nil => exact .none
    | @cons parameter slot _ _ hslot _ ih =>
      rw [List.find?_cons, List.find?_cons, hslot.1]
      split
      · exact .some hslot.2
      · exact ih
  have hrel := hfind hw.parameters
  rw [Engine.setParameter, Reference.setParameter, h.wiring]
  generalize p.parameters.find? (·.name == name) = parameter at hrel ⊢
  generalize w.parameters.find? (·.name == name) = slot at hrel ⊢
  cases hrel with
  | none => exact h
  | some hslot => exact h.setAll hslot _

end Represents
end Patchbay
