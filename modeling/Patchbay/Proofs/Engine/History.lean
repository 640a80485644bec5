import Patchbay.Proofs.Engine.Reference

/-! Histories of calls, and what note inputs should tell of them: which voices play, what was
started last on each, and whether something was started since the last sample. -/
namespace Patchbay
open Arithmetic (natural)
open Reference
variable {α : Type}

namespace Voices
variable {v v' : Voices} {place note : Nat}

/-- Whether a voice plays. -/
def isActive (v : Voices) (place : Nat) : Bool := v.voices[place]?.any Voice.active

theorem anyActive_iff : v.anyActive = true ↔ ∃ place, v.isActive place = true := by
  rw [anyActive, List.any_eq_true]
  constructor
  · rintro ⟨voice, hm, hactive⟩
    obtain ⟨place, hplace⟩ := List.getElem?_of_mem hm
    exact ⟨place, by simp [isActive, hplace, hactive]⟩
  · rintro ⟨place, hactive⟩
    obtain ⟨voice, hvoice, hactive⟩ := (Option.any_eq_true _ _).mp hactive
    exact ⟨voice, List.mem_of_getElem? hvoice, hactive⟩

theorem isActive_ofCount (count place : Nat) : (ofCount count).isActive place = false := by
  rw [isActive, ofCount, List.getElem?_replicate]
  split <;> rfl

theorem isActive_play (hplace : place < v.voices.length) (note other : Nat) :
    (v.play place note).isActive other = if other = place then true else v.isActive other := by
  by_cases heq : other = place
  · subst heq
    simp [isActive, play, hplace]
  · simp [isActive, play, heq, List.getElem?_set_ne (Ne.symm heq)]

/-- The voice of a note that starts plays from then on. -/
theorem isActive_assign (hpos : 0 < v.voices.length) (note other : Nat) :
    (v.assign note).1.isActive other =
      if other = (v.assign note).2 then true else v.isActive other := by
  rw [assign]
  split
  · next hheld => exact isActive_play (holder?_lt hheld) _ other
  · obtain ⟨i, hi⟩ := longestIdle_isSome hpos
    rw [hi]
    exact isActive_play (v := v.hand i _) i.isLt _ other

/-- The voice that stops plays no longer. -/
theorem isActive_release (h : v.release note = (v', some place)) (other : Nat) :
    v'.isActive other = if other = place then false else v.isActive other := by
  have hstop : v' = v.stop place := by
    rw [release] at h
    split at h
    · cases h
    · split at h
      · cases h
        rfl
      · cases h
  subst hstop
  rw [isActive, stop, List.getElem?_modify]
  by_cases heq : place = other
  · subst heq
    cases v.voices[place]? <;> simp
  · simp [isActive, heq, Ne.symm heq]

theorem release_none (h : v.release note = (v', none)) : v' = v := by
  rw [release] at h
  split at h
  · cases h
    rfl
  · split at h
    · cases h
    · cases h
      rfl

theorem isActive_releaseAll (v : Voices) (place : Nat) : v.releaseAll.isActive place = false := by
  rw [isActive, releaseAll, List.getElem?_map]
  cases v.voices[place]? <;> rfl

end Voices

/-- A note that was started, and the voice that it went to. -/
structure NoteStart (α : Type) where
  note : Nat
  velocity : α
  voice : Nat

namespace NoteStart
variable [Arithmetic α]

def pitch (start : NoteStart α) : α := Quantity.keyPitch start.note

/-- The velocity in the range from zero to one. -/
def force (start : NoteStart α) : α :=
  Arithmetic.clamp (natural 0) (natural 1) start.velocity

end NoteStart

/-- All that note inputs tell of the calls: the voices, and the notes that were started, the latest
first. Those since the last sample are kept apart as well. -/
structure NoteHistory (α : Type) where
  voices : Voices
  starts : List (NoteStart α)
  recent : List (NoteStart α)

/-- The values of four note inputs. -/
structure NoteValues (α : Type) where
  trigger : α
  gate : α
  pitch : α
  velocity : α

namespace NoteHistory

/-- Nothing was asked of the voices yet. -/
def ofCount (count : Nat) : NoteHistory α := ⟨.ofCount count, [], []⟩

/-- One more note, and the voices with it. -/
def push (h : NoteHistory α) (voices : Voices) (start : NoteStart α) : NoteHistory α :=
  ⟨voices, start :: h.starts, start :: h.recent⟩

/-- What a call adds. Notes above the highest are not started. -/
def after (h : NoteHistory α) : Call α → NoteHistory α
  | .noteOn note velocity =>
    if highestNote < note then h
    else h.push (h.voices.assign note).1 ⟨note, velocity, (h.voices.assign note).2⟩
  | .noteOff note => { h with voices := (h.voices.release note).1 }
  | .releaseAll => { h with voices := h.voices.releaseAll }
  | .setParameter _ _ => h
  | .generate 0 => h
  | .generate (_ + 1) => { h with recent := [] }

def afterAll (h : NoteHistory α) (calls : List (Call α)) : NoteHistory α := calls.foldl after h

variable [Arithmetic α]

/-- One for what is on, and zero for what is off. -/
def level (on : Bool) : α := if on then natural 1 else natural 0

/-- The values that go with the note that was started last, if there was one. -/
def valuesOf (triggered held : Bool) : Option (NoteStart α) → NoteValues α
  | none => ⟨level triggered, level held, natural 0, natural 0⟩
  | some start => ⟨level triggered, level held, start.pitch, start.force⟩

theorem gate_valuesOf (triggered held : Bool) (last : Option (NoteStart α)) :
    (valuesOf triggered held last).gate = level held := by
  cases last <;> rfl

theorem trigger_valuesOf (triggered held : Bool) (last : Option (NoteStart α)) :
    (valuesOf triggered held last).trigger = level triggered := by
  cases last <;> rfl

theorem valuesOf_gate (triggered held held' : Bool) (last : Option (NoteStart α)) :
    valuesOf triggered held' last = { valuesOf triggered held last with gate := level held' } := by
  cases last <;> rfl

theorem valuesOf_rested (triggered held : Bool) (last : Option (NoteStart α)) :
    valuesOf false held last = { valuesOf triggered held last with trigger := natural 0 } := by
  cases last <;> rfl

/-- What the inputs that all voices share should hold. -/
def shared (h : NoteHistory α) : NoteValues α :=
  valuesOf (!h.recent.isEmpty) h.voices.anyActive h.starts.head?

/-- What the inputs of a voice should hold. -/
def own (h : NoteHistory α) (voice : Nat) : NoteValues α :=
  valuesOf (h.recent.any (·.voice == voice)) (h.voices.isActive voice)
    (h.starts.find? (·.voice == voice))

section Values
variable (h : NoteHistory α) (voices : Voices) (start : NoteStart α)

theorem shared_push (hany : voices.anyActive = true) :
    (h.push voices start).shared = ⟨natural 1, natural 1, start.pitch, start.force⟩ := by
  simp [shared, push, valuesOf, level, hany]

theorem own_push_self (hactive : voices.isActive start.voice = true) :
    (h.push voices start).own start.voice = ⟨natural 1, natural 1, start.pitch, start.force⟩ := by
  simp [own, push, valuesOf, level, hactive]

theorem own_push_other {voice : Nat} (hne : start.voice ≠ voice)
    (hactive : voices.isActive voice = h.voices.isActive voice) :
    (h.push voices start).own voice = h.own voice := by
  simp [own, push, hactive, beq_false_of_ne hne]

/-- Only gates depend on the voices. -/
theorem shared_withVoices :
    ({ h with voices } : NoteHistory α).shared = { h.shared with gate := level voices.anyActive } :=
  valuesOf_gate _ _ _ _

theorem own_withVoices (voice : Nat) :
    ({ h with voices } : NoteHistory α).own voice =
      { h.own voice with gate := level (voices.isActive voice) } := valuesOf_gate _ _ _ _

/-- Once a sample is over, all triggers are off. -/
theorem shared_rested :
    ({ h with recent := [] } : NoteHistory α).shared = { h.shared with trigger := natural 0 } :=
  valuesOf_rested _ _ _

theorem own_rested (voice : Nat) :
    ({ h with recent := [] } : NoteHistory α).own voice =
      { h.own voice with trigger := natural 0 } := valuesOf_rested _ _ _

end Values
end NoteHistory

namespace Reference
variable {U : Type} [Arithmetic α] [Playable α U] {p : Patch α} {s : Player α U}

omit [Arithmetic α] in
theorem setAll_rest (s : Player α U) (places : List Place) (value : α) :
    (places.foldl (fun s place => set s place value) s).voices = s.voices ∧
      (places.foldl (fun s place => set s place value) s).latched = s.latched := by
  induction places generalizing s with
  | nil => exact ⟨rfl, rfl⟩
  | cons place rest ih => exact ih (set s place value)

theorem voices_startNote (s : Player α U) (pitch velocity : α) (first voice : Nat) :
    (startNote s pitch velocity first voice).voices = s.voices := by
  rw [startNote]
  split <;> rfl

theorem rest_compute (frame : α × α) (place : Place) :
    (compute p s frame place).1.voices = s.voices ∧
      (compute p s frame place).1.latched = s.latched := by
  rw [compute]
  split <;> exact ⟨rfl, rfl⟩

theorem rest_computeAll (frame : α × α) (places : List Place) :
    (computeAll p s frame places).1.voices = s.voices ∧
      (computeAll p s frame places).1.latched = s.latched := by
  induction places generalizing s frame with
  | nil => exact ⟨rfl, rfl⟩
  | cons other rest ih =>
    obtain ⟨hvoices, hlatched⟩ := rest_compute (p := p) (s := s) frame other
    obtain ⟨hrest, hrest'⟩ := ih (s := (compute p s frame other).1) (compute p s frame other).2
    exact ⟨hrest.trans hvoices, hrest'.trans hlatched⟩

theorem voices_tick : (tick p s).1.voices = s.voices := by
  rw [tick]
  exact (setAll_rest _ _ _).1.trans (rest_computeAll _ _).1

theorem voices_generate (count : Nat) : (generate p s count).1.voices = s.voices := by
  induction count generalizing s with
  | zero => rfl
  | succ count ih => exact (ih (s := (tick p s).1)).trans voices_tick

/-- The voices of a player are those of the history. -/
theorem voices_call {h : NoteHistory α} (hs : s.voices = h.voices) (c : Call α) :
    (call p s c).1.voices = (h.after c).voices := by
  cases c with
  | noteOn note velocity =>
    show (noteOn s note velocity).voices = _
    rw [noteOn, NoteHistory.after]
    split
    · exact hs
    · rw [voices_startNote, voices_startNote, hs]
      rfl
  | noteOff note =>
    show (noteOff s note).voices = (h.voices.release note).1
    rw [noteOff, hs]
    rcases hrelease : h.voices.release note with ⟨voices, _ | voice⟩
    · exact hs.trans (Voices.release_none hrelease).symm
    · dsimp only
      split <;> rfl
  | releaseAll =>
    show (releaseAll p s).voices = h.voices.releaseAll
    rw [releaseAll, (setAll_rest _ _ _).1, hs]
  | setParameter name value =>
    show (setParameter p s name value).voices = h.voices
    rw [setParameter]
    split
    · exact hs
    · rw [(setAll_rest _ _ _).1, hs]
  | generate count =>
    have hkept : (h.after (.generate count)).voices = h.voices := by cases count <;> rfl
    rw [hkept]
    exact (voices_generate count).trans hs

theorem voices_run {h : NoteHistory α} (hs : s.voices = h.voices) (calls : List (Call α)) :
    (run p s calls).1.voices = (h.afterAll calls).voices := by
  induction calls generalizing s h with
  | nil => exact hs
  | cons c rest ih => exact ih (voices_call hs c)

end Reference

end Patchbay
