import Patchbay.Proofs.Engine.History
import Patchbay.Proofs.Engine.Places

/-! What calls leave alone. Between samples they set note inputs and parameters and nothing else,
and a sample ends with triggers falling. -/
namespace Patchbay.Reference
open Arithmetic (natural)
variable {α U : Type} [Arithmetic α] [Playable α U] {p : Patch α} {s t u : Player α U}

section Units
variable {first voice : Nat}

omit [Arithmetic α] in
@[simp] theorem units_set (s : Player α U) (place other : Place) (value : α) :
    (set s place value).units other =
      if other = place then Playable.setValue value (s.units place) else s.units other := by
  exact Function.update_apply _ _ _ _

theorem units_startNote {place : Place} (hplace : ∀ i < 4, place ≠ ⟨first + i, voice⟩)
    (pitch velocity : α) :
    (startNote s pitch velocity first voice).units place = s.units place := by
  have htrigger : place ≠ ⟨first, voice⟩ := hplace 0 (by decide)
  have hgate := hplace 1 (by decide)
  have hpitch := hplace 2 (by decide)
  have hvelocity := hplace 3 (by decide)
  rw [startNote]
  split <;> simp [htrigger, hgate, hpitch, hvelocity]

theorem mem_latched_startNote (s : Player α U) (pitch velocity : α)
    (first voice : Nat) (place : Place) :
    place ∈ (startNote s pitch velocity first voice).latched ↔
      place ∈ s.latched ∨ place = ⟨first, voice⟩ := by
  rw [startNote]
  split
  · next hc =>
    have hm : (⟨first, voice⟩ : Place) ∈ s.latched := List.contains_iff_mem.mp hc
    refine ⟨.inl, ?_⟩
    rintro (hp | rfl)
    · exact hp
    · exact hm
  · simp [set]

theorem nodup_latched_startNote (hn : s.latched.Nodup) (pitch velocity : α) (first voice : Nat) :
    (startNote s pitch velocity first voice).latched.Nodup := by
  rw [startNote]
  split
  · exact hn
  · next hc =>
    have hm : (⟨first, voice⟩ : Place) ∉ s.latched := fun hm => hc (List.contains_iff_mem.mpr hm)
    refine hn.append (List.nodup_singleton _) ?_
    rwa [List.disjoint_singleton]

omit [Arithmetic α] in
/-- Places without repeats are each set once. -/
theorem units_setAll_of_nodup {places : List Place} (hn : places.Nodup) (value : α)
    (place : Place) :
    (places.foldl (fun s place => set s place value) s).units place =
      if place ∈ places then Playable.setValue value (s.units place) else s.units place := by
  induction places generalizing s with
  | nil => simp
  | cons first rest ih =>
    rw [List.nodup_cons] at hn
    rw [List.foldl_cons, ih hn.2, units_set]
    by_cases heq : place = first
    · subst heq
      simp [hn.1]
    · simp [heq]

end Units

/-- The objects of note inputs: four that all voices share, and four of which each voice has its
own. -/
def IsNoteInput (object : Nat) : Prop :=
  object < 4 ∨ Builtin.firstVoiceInput ≤ object ∧ object < Builtin.firstVoiceInput + 4

/-- The object of a trigger, shared or not. -/
def IsTrigger (object : Nat) : Prop := object = 0 ∨ object = Builtin.firstVoiceInput

/-- The object behind a parameter. -/
def Patch.IsParameter (p : Patch α) (object : Nat) : Prop := ∃ q ∈ p.parameters, q.object = object

/-- Behind the second player only the units of some objects are others, and only triggers were
latched in between. -/
structure Touches (objects : Nat → Prop) (s t : Player α U) : Prop where
  units : ∀ place, ¬ objects place.object → t.units place = s.units place
  values : t.values = s.values
  latched : ∀ place ∈ t.latched, place ∈ s.latched ∨ IsTrigger place.object

theorem IsTrigger.isNoteInput {object : Nat} (h : IsTrigger object) : IsNoteInput object := by
  have hfirst : Builtin.firstVoiceInput = 5 := rfl
  rw [IsTrigger] at h
  rw [IsNoteInput]
  omega

section Steps
variable {objects objects' : Nat → Prop}

omit [Arithmetic α] [Playable α U] in
theorem Touches.refl (objects : Nat → Prop) (s : Player α U) : Touches objects s s :=
  ⟨fun _ _ => rfl, rfl, fun _ hm => .inl hm⟩

omit [Arithmetic α] [Playable α U] in
theorem Touches.trans (h : Touches objects s t) (h' : Touches objects t u) :
    Touches objects s u := by
  refine ⟨fun place hp => (h'.units place hp).trans (h.units place hp), h'.values.trans h.values,
    fun place hm => ?_⟩
  rcases h'.latched place hm with hm | htrigger
  · exact h.latched place hm
  · exact .inr htrigger

omit [Arithmetic α] [Playable α U] in
theorem Touches.mono (h : Touches objects s t) (hsub : ∀ object, objects object → objects' object) :
    Touches objects' s t :=
  ⟨fun place hp => h.units place fun hm => hp (hsub _ hm), h.values, h.latched⟩

omit [Arithmetic α] in
theorem touches_set (place : Place) (hplace : objects place.object) (value : α) :
    Touches objects s (set s place value) := by
  refine ⟨fun other hother => Function.update_of_ne ?_ _ _, rfl, fun _ hm => .inl hm⟩
  rintro rfl
  exact hother hplace

omit [Arithmetic α] in
theorem touches_setAll {places : List Place} (hplaces : ∀ place ∈ places, objects place.object)
    (value : α) : Touches objects s (places.foldl (fun s place => set s place value) s) := by
  induction places generalizing s with
  | nil => exact .refl _ s
  | cons place rest ih =>
    have hrest := ih (s := set s place value) fun other hm => hplaces other (List.mem_cons_of_mem _ hm)
    exact (touches_set place (hplaces place List.mem_cons_self) value).trans hrest

theorem touches_startNote {first voice : Nat} (hfirst : IsTrigger first) (pitch velocity : α) :
    Touches IsNoteInput s (startNote s pitch velocity first voice) := by
  have hinput : ∀ i < 4, IsNoteInput (first + i) := by
    intro i hi
    have hfive : Builtin.firstVoiceInput = 5 := rfl
    rw [IsTrigger] at hfirst
    rw [IsNoteInput]
    omega
  have hset : Touches IsNoteInput s
      (set (set (set (set s ⟨first + 1, voice⟩ (natural 1)) ⟨first + 2, voice⟩ pitch)
        ⟨first + 3, voice⟩ velocity) ⟨first, voice⟩ (natural 1)) :=
    (((touches_set _ (hinput 1 (by decide)) _).trans (touches_set _ (hinput 2 (by decide)) _)).trans
      (touches_set _ (hinput 3 (by decide)) _)).trans (touches_set _ (hinput 0 (by decide)) _)
  rw [startNote]
  split
  · exact hset
  · refine ⟨hset.units, hset.values, fun place hm => ?_⟩
    rcases List.mem_append.mp hm with hm | hm
    · exact hset.latched place hm
    · rw [List.mem_singleton.mp hm]
      exact .inr hfirst

theorem touches_noteOn (note : Nat) (velocity : α) :
    Touches IsNoteInput s (noteOn s note velocity) := by
  rw [noteOn]
  split
  · exact .refl _ s
  · have hvoices : Touches IsNoteInput s { s with voices := (s.voices.assign note).1 } :=
      ⟨fun _ _ => rfl, rfl, fun _ hm => .inl hm⟩
    exact (hvoices.trans (touches_startNote (.inl rfl) _ _)).trans (touches_startNote (.inr rfl) _ _)

theorem touches_noteOff (note : Nat) : Touches IsNoteInput s (noteOff s note) := by
  have hshared : IsNoteInput 1 := .inl (by decide)
  have hown : IsNoteInput (Builtin.firstVoiceInput + 1) := .inr (by decide)
  rw [noteOff]
  split
  · exact .refl _ s
  · next voices voice _ =>
    have hvoices : Touches IsNoteInput s { s with voices } :=
      ⟨fun _ _ => rfl, rfl, fun _ hm => .inl hm⟩
    have hgate := hvoices.trans
      (touches_set ⟨Builtin.firstVoiceInput + 1, voice⟩ hown (natural 0))
    dsimp only
    split
    · exact hgate
    · exact hgate.trans (touches_set ⟨1, 0⟩ hshared _)

theorem touches_releaseAll : Touches IsNoteInput s (releaseAll p s) := by
  have hvoices : Touches IsNoteInput s { s with voices := s.voices.releaseAll } :=
    ⟨fun _ _ => rfl, rfl, fun _ hm => .inl hm⟩
  refine hvoices.trans (touches_setAll (fun place hm => ?_) _)
  rcases List.mem_append.mp hm with hm | hm
  · obtain ⟨_, _, rfl⟩ := List.mem_map.mp hm
    exact .inr ⟨Nat.le_add_right _ _, Nat.add_lt_add_left (by decide) _⟩
  · rw [List.mem_singleton.mp hm]
    exact .inl (by decide)

/-- Setting a parameter touches the object behind it. -/
theorem touches_setParameter (name : String) (value : α) :
    Touches (fun object => ∃ q, p.parameters.find? (·.name == name) = some q ∧ q.object = object) s
      (setParameter p s name value) := by
  rw [setParameter]
  split
  · exact .refl _ s
  · next q hq =>
    exact touches_setAll (fun place hm => ⟨q, hq, ((p.mem_placesOf.mp hm).1).symm⟩) _

/-- Any call but for samples sets note inputs and parameters. -/
theorem touches_event {c : Call α} (hc : ∀ n, c ≠ .generate n) :
    Touches (fun object => IsNoteInput object ∨ p.IsParameter object) s (call p s c).1 := by
  cases c with
  | noteOn note velocity => exact (touches_noteOn note velocity).mono fun _ h => .inl h
  | noteOff note => exact (touches_noteOff note).mono fun _ h => .inl h
  | releaseAll => exact touches_releaseAll.mono fun _ h => .inl h
  | setParameter name value =>
    refine (touches_setParameter name value).mono ?_
    rintro _ ⟨q, hq, rfl⟩
    exact .inr ⟨q, List.mem_of_find?_eq_some hq, rfl⟩
  | generate n => exact absurd rfl (hc n)

end Steps

/-- Nothing but triggers is latched. -/
def LatchesTriggers (s : Player α U) : Prop := ∀ place ∈ s.latched, IsTrigger place.object

omit [Arithmetic α] [Playable α U] in
theorem LatchesTriggers.touches {objects : Nat → Prop} (h : LatchesTriggers s)
    (ht : Touches objects s t) : LatchesTriggers t := fun place hm =>
  (ht.latched place hm).elim (h place) id

theorem latched_tick : (tick p s).1.latched = [] := rfl

/-- After a sample all units but triggers are as its computation left them. -/
theorem units_tick (h : LatchesTriggers s) {place : Place} (hplace : ¬ IsTrigger place.object) :
    (tick p s).1.units place =
      (computeAll p s (natural 0, natural 0) (p.order.flatMap p.placesOf)).1.units place := by
  have hlatched : ∀ place ∈ (computeAll p s (natural 0, natural 0)
      (p.order.flatMap p.placesOf)).1.latched, IsTrigger place.object := by
    rw [(rest_computeAll _ _).2]
    exact h
  exact (touches_setAll hlatched (natural 0)).units place hplace

theorem values_tick : (tick p s).1.values =
    (computeAll p s (natural 0, natural 0) (p.order.flatMap p.placesOf)).1.values := by
  generalize hall : (computeAll p s (natural 0, natural 0) (p.order.flatMap p.placesOf)).1 = s'
  have hdone : Touches (fun _ => True) s'
      (s'.latched.foldl (fun s place => set s place (natural 0)) s') :=
    touches_setAll (fun _ _ => trivial) (natural 0)
  rw [tick, ← hdone.values, ← hall]

theorem LatchesTriggers.call (h : LatchesTriggers s) (c : Call α) :
    LatchesTriggers (call p s c).1 := by
  cases c with
  | generate n =>
    show LatchesTriggers (Reference.generate p s n).1
    induction n generalizing s with
    | zero => exact h
    | succ n ih => exact ih fun place hm => absurd hm List.not_mem_nil
  | noteOn note velocity => exact h.touches (touches_noteOn note velocity)
  | noteOff note => exact h.touches (touches_noteOff note)
  | releaseAll => exact h.touches touches_releaseAll
  | setParameter name value => exact h.touches (touches_setParameter name value)

end Patchbay.Reference
