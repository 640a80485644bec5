import Mathlib.Data.List.Perm.Subperm
import Patchbay.Proofs.Engine.Frame
import Patchbay.Proofs.Engine.Start

/-! Players whose note inputs hold what the history of calls tells. Every call keeps it so. -/
namespace Patchbay
open Arithmetic (natural)
open Reference Reference.Patch Wiring
variable {α : Type}

namespace Reference
open NoteHistory
variable [Arithmetic α] {p : Patch α} {s : Player α (SoundUnit α)} {h : NoteHistory α}
  {first voice : Nat} {values : NoteValues α}

/-- The four inputs from an object on hold values from outside. -/
structure Shows (s : Player α (SoundUnit α)) (first voice : Nat) (values : NoteValues α) :
    Prop where
  trigger : s.units ⟨first, voice⟩ = .control values.trigger
  gate : s.units ⟨first + 1, voice⟩ = .control values.gate
  pitch : s.units ⟨first + 2, voice⟩ = .control values.pitch
  velocity : s.units ⟨first + 3, voice⟩ = .control values.velocity

/-- All note inputs hold what the history tells, and the triggers that are on are latched. -/
structure Reflects (p : Patch α) (s : Player α (SoundUnit α)) (h : NoteHistory α) : Prop where
  voices : s.voices = h.voices
  count : h.voices.voices.length = p.voices
  shared : Shows s 0 0 h.shared
  own : ∀ voice < p.voices, Shows s Builtin.firstVoiceInput voice (h.own voice)
  latched : ∀ place, place ∈ s.latched ↔
    ∃ start ∈ h.recent, place = ⟨0, 0⟩ ∨ place = ⟨Builtin.firstVoiceInput, start.voice⟩
  nodup : s.latched.Nodup
  recent : ∀ start ∈ h.recent, start.voice < p.voices

omit [Arithmetic α] in
/-- Nothing but the units of all four inputs counts. -/
theorem Shows.congr {s' : Player α (SoundUnit α)} (hs : Shows s first voice values)
    (hunits : ∀ i < 4, s'.units ⟨first + i, voice⟩ = s.units ⟨first + i, voice⟩) :
    Shows s' first voice values :=
  ⟨(hunits 0 (by decide)).trans hs.trigger, (hunits 1 (by decide)).trans hs.gate,
    (hunits 2 (by decide)).trans hs.pitch, (hunits 3 (by decide)).trans hs.velocity⟩

omit [Arithmetic α] in
theorem Shows.withVoices (hs : Shows s first voice values) (voices : Voices) :
    Shows { s with voices } first voice values := hs.congr fun _ _ => rfl

@[simp] theorem setValue_control (value x : α) :
    Playable.setValue value (SoundUnit.control x) = .control value := rfl

theorem setValue_setValue (value : α) (u : SoundUnit α) :
    Playable.setValue value (Playable.setValue value u) = Playable.setValue value u := by
  cases u <;> rfl

/-- Setting many places to one value sets each of them. -/
theorem units_setAll (s : Player α (SoundUnit α)) (places : List Place) (value : α)
    (other : Place) :
    (places.foldl (fun s place => set s place value) s).units other =
      if other ∈ places then Playable.setValue value (s.units other) else s.units other := by
  induction places generalizing s with
  | nil => simp
  | cons place rest ih =>
    rw [List.foldl_cons, ih]
    by_cases hrest : other ∈ rest
    · by_cases heq : other = place
      · subst heq
        simp [hrest, setValue_setValue]
      · simp [hrest, heq]
    · by_cases heq : other = place
      · subst heq
        simp [hrest]
      · simp [hrest, heq]

/-- What inputs hold once places were set. -/
theorem Shows.setAll (hs : Shows s first voice values) (places : List Place) (value : α) :
    Shows (places.foldl (fun s place => set s place value) s) first voice
      ⟨if ⟨first, voice⟩ ∈ places then value else values.trigger,
        if ⟨first + 1, voice⟩ ∈ places then value else values.gate,
        if ⟨first + 2, voice⟩ ∈ places then value else values.pitch,
        if ⟨first + 3, voice⟩ ∈ places then value else values.velocity⟩ := by
  constructor
  · rw [units_setAll, hs.trigger]
    split <;> rfl
  · rw [units_setAll, hs.gate]
    split <;> rfl
  · rw [units_setAll, hs.pitch]
    split <;> rfl
  · rw [units_setAll, hs.velocity]
    split <;> rfl

/-- Of inputs whose gate is closed, or stays, only the gate changes. -/
theorem Shows.close (hs : Shows s first voice values) {gates : List Place} {held held' : Bool}
    (hgates : ∀ i, i ≠ 1 → i < 4 → (⟨first + i, voice⟩ : Place) ∉ gates)
    (hgate : values.gate = level held)
    (hheld : held' = if ⟨first + 1, voice⟩ ∈ gates then false else held) :
    Shows (gates.foldl (fun s place => set s place (natural 0)) s) first voice
      { values with gate := level held' } := by
  have htrigger : (⟨first, voice⟩ : Place) ∉ gates := hgates 0 (by decide) (by decide)
  have hset := hs.setAll gates (natural 0)
  rw [if_neg htrigger, if_neg (hgates 2 (by decide) (by decide)),
    if_neg (hgates 3 (by decide) (by decide)), hgate] at hset
  rw [hheld]
  by_cases hm : (⟨first + 1, voice⟩ : Place) ∈ gates
  · rw [if_pos hm] at hset ⊢
    exact hset
  · rw [if_neg hm] at hset ⊢
    exact hset

theorem shows_startNote (hs : Shows s first voice values) (pitch velocity : α) :
    Shows (startNote s pitch velocity first voice) first voice
      ⟨natural 1, natural 1, pitch, velocity⟩ := by
  rw [startNote]
  split <;> constructor <;> simp [hs.trigger, hs.gate, hs.pitch, hs.velocity]

/-- Inputs of other objects or voices stay as they are. -/
theorem Shows.startNote {first' voice' : Nat} (hs : Shows s first' voice' values)
    (first voice : Nat) (hapart : voice' ≠ voice ∨ first' + 3 < first ∨ first + 3 < first')
    (pitch velocity : α) :
    Shows (startNote s pitch velocity first voice) first' voice' values := by
  refine hs.congr fun i hi => units_startNote (fun j hj heq => ?_) pitch velocity
  injection heq with hobject hvoice
  omega

/-- Computing a place leaves alone what is set from outside. -/
theorem units_compute {place : Place} {x : α} (hx : s.units place = .control x) (frame : α × α)
    (other : Place) : (compute p s frame other).1.units place = .control x := by
  rw [compute]
  split
  · exact hx
  · show Function.update s.units other _ place = _
    by_cases heq : place = other
    · subst heq
      rw [Function.update_self, hx]
      rfl
    · rw [Function.update_of_ne heq, hx]

theorem units_computeAll {place : Place} {x : α} (hx : s.units place = .control x) (frame : α × α)
    (places : List Place) : (computeAll p s frame places).1.units place = .control x := by
  induction places generalizing s frame with
  | nil => exact hx
  | cons other rest ih => exact ih (units_compute hx frame other) _

theorem Shows.computeAll (hs : Shows s first voice values) (frame : α × α) (places : List Place) :
    Shows (computeAll p s frame places).1 first voice values :=
  ⟨units_computeAll hs.trigger frame places, units_computeAll hs.gate frame places,
    units_computeAll hs.pitch frame places, units_computeAll hs.velocity frame places⟩

/-- Of inputs whose trigger is off, or is set to zero, only the trigger changes. -/
theorem Shows.rest (hs : Shows s first voice values) {latched : List Place} {triggered : Bool}
    (hlatched : ∀ i, i ≠ 0 → i < 4 → (⟨first + i, voice⟩ : Place) ∉ latched)
    (htrigger : values.trigger = level triggered)
    (hm : triggered = true → ⟨first, voice⟩ ∈ latched) :
    Shows (latched.foldl (fun s place => set s place (natural 0)) s) first voice
      { values with trigger := natural 0 } := by
  have hset := hs.setAll latched (natural 0)
  rw [if_neg (hlatched 1 (by decide) (by decide)), if_neg (hlatched 2 (by decide) (by decide)),
    if_neg (hlatched 3 (by decide) (by decide)), htrigger] at hset
  cases triggered with
  | true =>
    rw [if_pos (hm rfl)] at hset
    exact hset
  | false =>
    rw [level, if_neg Bool.false_ne_true, ite_self] at hset
    exact hset

namespace Reflects
variable (hr : Reflects p s h)
include hr

/-- A note that starts is told to the inputs that all share and to those of its voice. -/
theorem push {voices : Voices} (start : NoteStart α) (hlt : start.voice < p.voices)
    (hlength : voices.voices.length = p.voices)
    (hactive : ∀ other, voices.isActive other =
      if other = start.voice then true else h.voices.isActive other) :
    Reflects p (startNote (startNote { s with voices } start.pitch start.force 0 0) start.pitch
      start.force Builtin.firstVoiceInput start.voice) (h.push voices start) := by
  have hself : voices.isActive start.voice = true := by rw [hactive, if_pos rfl]
  have hany : voices.anyActive = true := Voices.anyActive_iff.mpr ⟨_, hself⟩
  have hshared := shows_startNote (hr.shared.withVoices voices) start.pitch start.force
  have hown := fun other hother => ((hr.own other hother).withVoices voices).startNote
    0 0 (.inr (.inr (by decide))) start.pitch start.force
  refine ⟨?_, hlength, ?_, fun other hother => ?_, fun place => ?_, ?_, fun earlier hearlier => ?_⟩
  · rw [voices_startNote, voices_startNote]
    rfl
  · rw [NoteHistory.shared_push h voices start hany]
    exact hshared.startNote _ _ (.inr (.inl (by decide))) start.pitch start.force
  · by_cases heq : start.voice = other
    · subst heq
      rw [NoteHistory.own_push_self h voices start hself]
      exact shows_startNote (hown _ hother) start.pitch start.force
    · have hkept := hactive other
      rw [if_neg (Ne.symm heq)] at hkept
      rw [NoteHistory.own_push_other h voices start heq hkept]
      exact (hown other hother).startNote _ _ (.inl (Ne.symm heq)) start.pitch start.force
  · rw [mem_latched_startNote, mem_latched_startNote]
    show (place ∈ s.latched ∨ _) ∨ _ ↔ ∃ earlier ∈ start :: h.recent, _
    rw [hr.latched, List.exists_mem_cons_iff, or_assoc, or_comm]
  · have hnodup : ({ s with voices } : Player α (SoundUnit α)).latched.Nodup := hr.nodup
    exact nodup_latched_startNote (nodup_latched_startNote hnodup _ _ _ _) _ _ _ _
  · rcases List.mem_cons.mp hearlier with rfl | hearlier
    · exact hlt
    · exact hr.recent earlier hearlier

theorem noteOn (hv : 0 < p.voices) (note : Nat) (velocity : α) :
    Reflects p (Reference.noteOn s note velocity) (h.after (.noteOn note velocity)) := by
  rw [Reference.noteOn, after, hr.voices]
  split
  · exact hr
  · have hpos : 0 < h.voices.voices.length := hr.count ▸ hv
    exact hr.push ⟨note, velocity, (h.voices.assign note).2⟩
      (hr.count ▸ h.voices.assign_lt hpos note) ((h.voices.length_assign note).trans hr.count)
      (h.voices.isActive_assign hpos note)

/-- Closing gates tells that voices stop. -/
theorem close {voices : Voices} (gates : List Place) (hlength : voices.voices.length = p.voices)
    (hgates : ∀ gate ∈ gates, gate.object = 1 ∨ gate.object = Builtin.firstVoiceInput + 1)
    (hany : voices.anyActive = if ⟨1, 0⟩ ∈ gates then false else h.voices.anyActive)
    (hactive : ∀ voice < p.voices, voices.isActive voice =
      if ⟨Builtin.firstVoiceInput + 1, voice⟩ ∈ gates then false else h.voices.isActive voice) :
    Reflects p (gates.foldl (fun s place => set s place (natural 0)) { s with voices })
      { h with voices } := by
  obtain ⟨hvoices, hlatched⟩ := setAll_rest { s with voices } gates (natural 0)
  have hnot : ∀ object voice, object ≠ 1 → object ≠ Builtin.firstVoiceInput + 1 →
      (⟨object, voice⟩ : Place) ∉ gates := fun object voice hshared hown hm =>
    (hgates _ hm).elim hshared hown
  have hfirst : Builtin.firstVoiceInput = 5 := rfl
  refine ⟨hvoices, hlength, ?_, fun voice hvoice => ?_, ?_, ?_, hr.recent⟩
  · rw [NoteHistory.shared_withVoices]
    refine (hr.shared.withVoices voices).close (fun i hi hlt => hnot _ _ ?_ ?_)
      (gate_valuesOf _ _ _) hany
    · omega
    · omega
  · rw [NoteHistory.own_withVoices]
    refine ((hr.own voice hvoice).withVoices voices).close (fun i hi hlt => hnot _ _ ?_ ?_)
      (gate_valuesOf _ _ _) (hactive voice hvoice)
    · omega
    · omega
  · rw [hlatched]
    exact hr.latched
  · rw [hlatched]
    exact hr.nodup

theorem noteOff (note : Nat) : Reflects p (Reference.noteOff s note) (h.after (.noteOff note)) := by
  have hlength := (h.voices.length_release note).trans hr.count
  rw [Reference.noteOff, after, hr.voices]
  rcases hrelease : h.voices.release note with ⟨voices, _ | place⟩
  · rw [Voices.release_none hrelease]
    exact hr
  · have hactive := Voices.isActive_release hrelease
    rw [hrelease] at hlength
    dsimp only
    cases hany : voices.anyActive with
    | true =>
      obtain ⟨other, hother⟩ := Voices.anyActive_iff.mp hany
      have hbefore : h.voices.anyActive = true := by
        refine Voices.anyActive_iff.mpr ⟨other, ?_⟩
        rw [hactive] at hother
        by_cases heq : other = place <;> simp_all
      refine hr.close [⟨Builtin.firstVoiceInput + 1, place⟩] hlength ?_ ?_ ?_
      · simp
      · simp [hany, hbefore, Builtin.firstVoiceInput]
      · simp [hactive]
    | false =>
      refine hr.close [⟨Builtin.firstVoiceInput + 1, place⟩, ⟨1, 0⟩] hlength ?_ ?_ ?_
      · simp
      · simp [hany]
      · simp [hactive, Builtin.firstVoiceInput]

theorem releaseAll : Reflects p (Reference.releaseAll p s) (h.after .releaseAll) := by
  rw [Reference.releaseAll, hr.voices]
  refine hr.close _ ((h.voices.length_releaseAll).trans hr.count) ?_ ?_ fun voice hvoice => ?_
  · intro gate hgate
    rcases List.mem_append.mp hgate with hgate | hgate
    · obtain ⟨_, _, rfl⟩ := List.mem_map.mp hgate
      exact .inr rfl
    · exact .inl (List.mem_singleton.mp hgate ▸ rfl)
  · rw [if_pos (List.mem_append_right _ (List.mem_singleton_self _)), ← Bool.not_eq_true,
      Voices.anyActive_iff]
    simp [Voices.isActive_releaseAll]
  · rw [Voices.isActive_releaseAll, if_pos]
    exact List.mem_append_left _ (List.mem_map_of_mem (List.mem_range.mpr hvoice))

/-- Parameters are no note inputs. -/
theorem setParameter (hp : ∀ q ∈ p.parameters, Builtin.objectCount ≤ q.object) (name : String)
    (value : α) :
    Reflects p (Reference.setParameter p s name value) (h.after (.setParameter name value)) := by
  rw [Reference.setParameter]
  split
  · exact hr
  · next parameter hfound =>
    have hobject := hp parameter (List.mem_of_find?_eq_some hfound)
    have hcount : Builtin.objectCount = 10 := rfl
    have hnot : ∀ object voice, object < 10 →
        (⟨object, voice⟩ : Place) ∉ p.placesOf parameter.object := by
      intro object voice hlt hm
      have heq := (p.mem_placesOf.mp hm).1
      dsimp only at heq
      omega
    obtain ⟨hvoices, hlatched⟩ := setAll_rest s (p.placesOf parameter.object)
      (Arithmetic.clamp (natural 0) (natural 1) value)
    refine ⟨hvoices.trans hr.voices, hr.count, ?_, fun voice hvoice => ?_, ?_, ?_, hr.recent⟩
    · refine hr.shared.congr fun i hi => ?_
      rw [units_setAll, if_neg (hnot _ _ (by omega))]
    · have hfirst : Builtin.firstVoiceInput = 5 := rfl
      refine (hr.own voice hvoice).congr fun i hi => ?_
      rw [units_setAll, if_neg (hnot _ _ (by omega))]
    · rw [hlatched]
      exact hr.latched
    · rw [hlatched]
      exact hr.nodup

/-- After a sample no trigger is on. -/
theorem tick : Reflects p (Reference.tick p s).1 { h with recent := [] } := by
  rw [Reference.tick]
  dsimp only
  generalize p.order.flatMap p.placesOf = places
  obtain ⟨hvoices, hlatched⟩ :=
    rest_computeAll (p := p) (s := s) (natural 0, natural 0) places
  have hshared := hr.shared.computeAll (p := p) (natural 0, natural 0) places
  have hown := fun voice hvoice =>
    (hr.own voice hvoice).computeAll (p := p) (natural 0, natural 0) places
  generalize (computeAll p s (natural 0, natural 0) places).1 = s' at *
  rw [hlatched]
  have hobject : ∀ object voice, object ≠ 0 → object ≠ Builtin.firstVoiceInput →
      (⟨object, voice⟩ : Place) ∉ s.latched := by
    intro object voice h0 h5 hm
    obtain ⟨_, _, heq | heq⟩ := (hr.latched _).mp hm
    · exact h0 (congrArg Place.object heq)
    · exact h5 (congrArg Place.object heq)
  have hfirst : Builtin.firstVoiceInput = 5 := rfl
  refine ⟨?_, hr.count, ?_, fun voice hvoice => ?_, fun place => ?_, List.nodup_nil,
    fun _ hm => absurd hm List.not_mem_nil⟩
  · exact ((setAll_rest s' s.latched (natural 0)).1.trans hvoices).trans hr.voices
  · rw [NoteHistory.shared_rested]
    refine (hshared.rest (fun i hi hlt => hobject _ _ ?_ ?_) (trigger_valuesOf _ _ _) ?_).congr
      fun _ _ => rfl
    · omega
    · omega
    · intro hsome
      obtain ⟨start, hstart⟩ := List.exists_mem_of_ne_nil h.recent (by simpa using hsome)
      exact (hr.latched _).mpr ⟨start, hstart, .inl rfl⟩
  · rw [NoteHistory.own_rested]
    refine ((hown voice hvoice).rest (fun i hi hlt => hobject _ _ ?_ ?_)
      (trigger_valuesOf _ _ _) ?_).congr fun _ _ => rfl
    · omega
    · omega
    · intro hsome
      obtain ⟨start, hstart, hvoice⟩ := List.any_eq_true.mp hsome
      exact (hr.latched _).mpr ⟨start, hstart, .inr (by rw [beq_iff_eq.mp hvoice])⟩
  · simp

theorem generate (count : Nat) :
    Reflects p (Reference.generate p s count).1 (h.after (.generate count)) := by
  induction count generalizing s h with
  | zero => exact hr
  | succ count ih =>
    have hrest := ih hr.tick
    cases count with
    | zero => exact hrest
    | succ count => exact hrest

theorem call (hv : 0 < p.voices) (hp : ∀ q ∈ p.parameters, Builtin.objectCount ≤ q.object)
    (c : Call α) : Reflects p (Reference.call p s c).1 (h.after c) := by
  cases c with
  | noteOn note velocity => exact hr.noteOn hv note velocity
  | noteOff note => exact hr.noteOff note
  | releaseAll => exact hr.releaseAll
  | setParameter name value => exact hr.setParameter hp name value
  | generate count => exact hr.generate count

theorem run (hv : 0 < p.voices) (hp : ∀ q ∈ p.parameters, Builtin.objectCount ≤ q.object)
    (calls : List (Call α)) : Reflects p (Reference.run p s calls).1 (h.afterAll calls) := by
  induction calls generalizing s h with
  | nil => exact hr
  | cons c rest ih => exact ih (hr.call hv hp c)

/-- There are no more triggers than one for each voice and the shared one. -/
theorem length_latched : s.latched.length ≤ p.voices + 1 := by
  have hsub : s.latched ⊆
      ⟨0, 0⟩ :: (List.range p.voices).map (⟨Builtin.firstVoiceInput, ·⟩) := by
    intro place hm
    obtain ⟨start, hstart, rfl | rfl⟩ := (hr.latched place).mp hm
    · exact List.mem_cons_self
    · exact List.mem_cons_of_mem _
        (List.mem_map_of_mem (List.mem_range.mpr (hr.recent start hstart)))
  simpa using (List.subperm_of_subset hr.nodup hsub).length_le

end Reflects

theorem unitAt_input {settings : EngineSettings} (hp : checkBuiltins p.objects = .ok ())
    {d : Demand} (hd : d ∈ demands) (hname : d.className = Builtin.userInput) (voice : Nat) :
    unitAt p Library.standard.registry settings ⟨d.object, voice⟩ = .control (natural 0) := by
  obtain ⟨n, c, hobject, hmet⟩ := isMet_of_check hp hd
  simp only [Demand.isMet, Bool.and_eq_true, beq_iff_eq, hname] at hmet
  have hkind : Library.standard.kind? Builtin.userInput = some .control := by decide
  rw [unitAt, hobject]
  dsimp only
  rw [hmet.1.1, Library.registry]
  dsimp only
  rw [Library.create?, hkind]
  rfl

theorem reflects_start {settings : EngineSettings} (hp : checkBuiltins p.objects = .ok ()) :
    Reflects p (start p Library.standard.registry settings) (.ofCount p.voices) := by
  have hinputs : ∀ object ∈ [0, 1, 2, 3, 5, 6, 7, 8],
      ∃ d ∈ demands, d.object = object ∧ d.className = Builtin.userInput := by decide
  have hunit : ∀ object ∈ [0, 1, 2, 3, 5, 6, 7, 8], ∀ voice,
      (start p Library.standard.registry settings).units ⟨object, voice⟩ =
        .control (natural 0) := by
    intro object hobject voice
    obtain ⟨d, hd, rfl, hname⟩ := hinputs object hobject
    have hother : d.object ≠ Builtin.firstVoiceInput + 4 := by
      rintro heq
      rw [heq] at hobject
      revert hobject
      decide
    rw [start]
    dsimp only
    rw [if_neg hother, unitAt_input hp hd hname]
  have hidle : (Voices.ofCount p.voices).anyActive = false := by
    rw [← Bool.not_eq_true, Voices.anyActive_iff]
    simp [Voices.isActive_ofCount]
  refine ⟨rfl, Voices.length_ofCount _, ?_, fun voice _ => ?_, ?_, List.nodup_nil, ?_⟩
  · rw [NoteHistory.shared, ofCount, hidle]
    exact ⟨hunit 0 (by decide) 0, hunit 1 (by decide) 0, hunit 2 (by decide) 0,
      hunit 3 (by decide) 0⟩
  · rw [NoteHistory.own, ofCount, Voices.isActive_ofCount]
    exact ⟨hunit 5 (by decide) voice, hunit 6 (by decide) voice, hunit 7 (by decide) voice,
      hunit 8 (by decide) voice⟩
  · simp [start, ofCount]
  · simp [ofCount]

end Reference

end Patchbay
