import Patchbay.Compilation
import Patchbay.Proofs.Engine.Allocation
import Patchbay.Proofs.Engine.Notes

/-! What the end of a note changes. An engine that was asked anything before ends a note on the voice
that plays it, and without such a voice nothing changes. -/
namespace Patchbay
open Arithmetic (natural)
open Reference Reference.Patch Wiring
variable {α U : Type}

namespace NoteHistory
variable {h : NoteHistory α}

/-- Calls leave the voices consistent, as many as they are. -/
theorem consistent_after (hc : h.voices.Consistent) (hpos : 0 < h.voices.voices.length)
    (c : Call α) : (h.after c).voices.Consistent ∧
      (h.after c).voices.voices.length = h.voices.voices.length := by
  cases c with
  | noteOn note velocity =>
    rw [after]
    split
    · exact ⟨hc, rfl⟩
    · exact hc.after hpos (.assign note)
  | noteOff note => exact hc.after hpos (.release note)
  | releaseAll => exact hc.after hpos .releaseAll
  | setParameter name value => exact ⟨hc, rfl⟩
  | generate count => cases count <;> exact ⟨hc, rfl⟩

theorem consistent_afterAll (hc : h.voices.Consistent) (hpos : 0 < h.voices.voices.length)
    (calls : List (Call α)) : (h.afterAll calls).voices.Consistent := by
  induction calls generalizing h with
  | nil => exact hc
  | cons c rest ih =>
    obtain ⟨hstep, hlength⟩ := consistent_after hc hpos c
    exact ih hstep (hlength ▸ hpos)

end NoteHistory

namespace Engine
variable [Arithmetic α] [Playable α U] {e e' : Engine α U} {p : Patch α} {note place : Nat}

/-- A note ends on a voice: it goes idle and its gate closes, and with the last voice that plays the
gate that all share. Nothing else changes. -/
structure NoteEnds (e : Engine α U) (place : Nat) (e' : Engine α U) : Prop where
  voices : e'.voices.voices = e.voices.voices.modify place fun voice =>
    { voice with active := false, changed := e.voices.clock + 1 }
  clock : e'.voices.clock = e.voices.clock + 1
  holder : ∀ note, e'.voices.holder? note = e.voices.holder? note
  wiring : e'.wiring = e.wiring
  values : e'.values = e.values
  latched : e'.latched = e.latched
  units : ∃ inputs, e.wiring.voiceInputs[place]? = some inputs ∧ ∀ id,
    e'.units[id]? =
      if id = inputs.gate ∨ id = e.wiring.globalInputs.gate ∧ e'.voices.anyActive = false then
        e.units[id]?.map (Playable.setValue (natural 0))
      else e.units[id]?

omit [Arithmetic α] in
theorem units_setUnit (e : Engine α U) (id other : Nat) (value : α) :
    (e.setUnit id value).units[other]? =
      if other = id then e.units[other]?.map (Playable.setValue value) else e.units[other]? := by
  show (e.units.modify id _)[other]? = _
  rw [Array.getElem?_modify]
  by_cases heq : id = other
  · rw [if_pos heq, if_pos heq.symm]
  · rw [if_neg heq, if_neg (Ne.symm heq)]

/-- The end of a note, as the voices have it. -/
theorem noteEnds_noteOff {inputs : NoteInputs} (hstop : (e.voices.release note).2 = some place)
    (hstops : Voices.Stops e.voices (min note highestNote) (e.voices.release note).1
      (e.voices.release note).2)
    (hinputs : e.wiring.voiceInputs[place]? = some inputs)
    (happart : inputs.gate ≠ e.wiring.globalInputs.gate) :
    NoteEnds e place (e.noteOff note) := by
  obtain ⟨hclock, hvoices⟩ := hstops.found place hstop
  have hholder := hstops.holder
  rw [noteOff]
  clear hstops
  generalize e.voices.release note = released at hstop hclock hvoices hholder ⊢
  obtain ⟨voices, stopped⟩ := released
  dsimp only at hstop
  subst hstop
  dsimp only at hclock hvoices hholder ⊢
  rw [hinputs]
  dsimp only
  cases hany : voices.anyActive with
  | true =>
    refine ⟨hvoices, hclock, hholder, rfl, rfl, rfl, inputs, hinputs, fun id => ?_⟩
    rw [if_pos rfl, units_setUnit]
    simp [setUnit, hany]
  | false =>
    refine ⟨hvoices, hclock, hholder, rfl, rfl, rfl, inputs, hinputs, fun id => ?_⟩
    rw [if_neg Bool.false_ne_true, units_setUnit, units_setUnit]
    simp only [setUnit, hany, and_true]
    by_cases hown : id = inputs.gate
    · subst hown
      rw [if_neg happart, if_pos rfl, if_pos (.inl rfl)]
    · rw [if_neg hown]
      simp [hown]

theorem noteOff_eq_self (hstop : (e.voices.release note).2 = none) : e.noteOff note = e := by
  rw [noteOff]
  generalize e.voices.release note = released at hstop ⊢
  obtain ⟨voices, stopped⟩ := released
  dsimp only at hstop
  subst hstop
  rfl

theorem voices_noteOff (e : Engine α U) (note : Nat) :
    (e.noteOff note).voices = (e.voices.release note).1 := by
  rw [noteOff]
  rcases hrelease : e.voices.release note with ⟨voices, _ | place⟩
  · exact (Voices.release_none hrelease).symm
  · dsimp only
    split
    · split <;> rfl
    · split <;> rfl

section Reachable
variable {registry : Registry α U} {settings : EngineSettings} {graph : Graph α}
  (h : ofRegistry registry settings graph = .ok e) (calls : List (Call α))
include h

/-- The voices of an engine are those of the history of calls. -/
theorem voices_run :
    (e.run calls).1.voices = ((NoteHistory.ofCount settings.voices).afterAll calls).voices := by
  obtain ⟨hw, hstart, _, hv⟩ := represents_of_ofRegistry h rfl
  rw [(hstart.run hw hv calls).1.voices]
  exact Reference.voices_run rfl calls

/-- At any time a note ends only where it is played. The end of a note above the highest counts as
that of the highest, while such a note is never started. -/
theorem noteOff_run (note : Nat) :
    let now := (e.run calls).1
    (∀ (place : Nat) (voice : Voice), now.voices.voices[place]? = some voice →
      voice.active = true → voice.note = some (min note highestNote) →
        NoteEnds now place (now.noteOff note)) ∧
    ((∀ (place : Nat) (voice : Voice), now.voices.voices[place]? = some voice →
      voice.active = true → voice.note ≠ some (min note highestNote)) → now.noteOff note = now) ∧
    (highestNote < note → ∀ velocity, now.noteOn note velocity = now) := by
  intro now
  obtain ⟨hw, hstart, _, hv⟩ := represents_of_ofRegistry h rfl
  have hrun := (hstart.run hw hv calls).1
  have hpos : 0 < (NoteHistory.ofCount settings.voices : NoteHistory α).voices.voices.length := by
    rw [NoteHistory.ofCount, Voices.length_ofCount]
    exact hv
  have hconsistent : now.voices.Consistent := by
    rw [show now.voices = _ from voices_run h calls]
    exact NoteHistory.consistent_afterAll (Voices.consistent_ofCount _) hpos calls
  have hstops := hconsistent.stops note
  refine ⟨fun place voice hvoice hactive hnote => ?_, fun hnobody => ?_, fun hlt velocity => ?_⟩
  · have hstop := (hstops.played place).mpr ⟨voice, hvoice, hactive, hnote⟩
    have hlt : place < settings.voices := by
      have hlength := (List.getElem?_eq_some_iff.mp hvoice).1
      rw [hrun.voices, hrun.count] at hlength
      exact hlength
    obtain ⟨inputs, hinputs, hat⟩ := hrun.voiceInputs hw hlt
    refine noteEnds_noteOff hstop hstops hinputs fun heq => ?_
    have hshared := hw.globalInputs.gate
    rw [← hrun.wiring, ← heq] at hshared
    have hplaces := hat.gate.unique hshared
    injection hplaces with hobject _
    exact absurd hobject (by decide)
  · refine noteOff_eq_self (Option.eq_none_iff_forall_ne_some.mpr fun place hstop => ?_)
    obtain ⟨voice, hvoice, hactive, hnote⟩ := (hstops.played place).mp hstop
    exact hnobody place voice hvoice hactive hnote
  · rw [noteOn, if_pos hlt]

end Reachable

/-- The second note has taken the only voice, so that the first has none to end on. -/
theorem noteOff_run_stolen :
    ∃ (g : Graph Float) (e : Engine Float),
      Engine.ofGraph Library.standard ⟨44100, 1, 42, 128⟩ g = .ok e ∧
      NoteEnds (e.run [.noteOn 60 1, .noteOn 64 1]).1 0
        ((e.run [.noteOn 60 1, .noteOn 64 1]).1.noteOff 64) ∧
      (e.run [.noteOn 60 1, .noteOn 64 1]).1.noteOff 60 =
        (e.run [.noteOn 60 1, .noteOn 64 1]).1 ∧
      (e.run [.noteOn 60 1, .noteOn 64 1]).1.noteOn 200 1 =
        (e.run [.noteOn 60 1, .noteOn 64 1]).1 := by
  obtain ⟨e, he⟩ := exists_gates
  have hvoices : (e.run [.noteOn 60 1, .noteOn 64 1]).1.voices.voices = [⟨true, 2, some 64⟩] := by
    rw [voices_run he]
    decide +kernel
  obtain ⟨hends, _, _⟩ := noteOff_run he [.noteOn 60 1, .noteOn 64 1] 64
  obtain ⟨_, hnobody, _⟩ := noteOff_run he [.noteOn 60 1, .noteOn 64 1] 60
  obtain ⟨_, _, hon⟩ := noteOff_run he [.noteOn 60 1, .noteOn 64 1] 200
  refine ⟨_, e, he, hends 0 ⟨true, 2, some 64⟩ ?_ rfl rfl, hnobody ?_, hon (by decide) 1⟩
  · rw [hvoices]
    rfl
  · intro place voice hvoice _
    rw [hvoices] at hvoice
    obtain rfl := List.mem_singleton.mp (List.mem_of_getElem? hvoice)
    decide

/-- A note that is never started ends the highest one. -/
theorem noteOff_highest :
    ∃ (g : Graph Float) (e : Engine Float),
      (Compilation.ofText Library.standard.catalog .standard gates).graph? = some g ∧
      Engine.ofGraph Library.standard ⟨44100, 1, 42, 128⟩ g = .ok e ∧
      (∀ voice ∈ (e.run [.noteOn 127 1]).1.voices.voices, voice.note ≠ some 200) ∧
      (e.run [.noteOn 127 1]).1.noteOff 200 ≠ (e.run [.noteOn 127 1]).1 := by
  obtain ⟨e, he⟩ := exists_gates
  have hvoices : (e.run [.noteOn 127 1]).1.voices = ((Voices.ofCount 1).assign 127).1 :=
    voices_run he [.noteOn 127 1]
  refine ⟨_, e, graph_gates, he, ?_, fun hsame => ?_⟩
  · rw [hvoices]
    decide +kernel
  · have hreleased := congrArg Engine.voices hsame
    rw [voices_noteOff, hvoices] at hreleased
    revert hreleased
    decide +kernel

end Engine
end Patchbay
