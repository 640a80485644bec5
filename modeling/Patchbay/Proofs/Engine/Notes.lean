import Mathlib.Data.List.Permutation
import Patchbay.Compilation
import Patchbay.Proofs.Building.Bindings
import Patchbay.Proofs.Engine.Construction
import Patchbay.Proofs.Engine.Reflection

/-! What the note inputs of an engine tell. After any calls they show which voices play, what was
started last on each of them, and whether something was started since the last sample. -/
namespace Patchbay
open Arithmetic (natural)
open Reference Reference.Patch Wiring
variable {α : Type}

namespace Engine
variable [Arithmetic α] {p : Patch α} {w : Wiring α} {e : Engine α}

/-- Four note inputs hold values from outside. -/
structure Shows (e : Engine α) (inputs : NoteInputs) (values : NoteValues α) : Prop where
  trigger : e.units[inputs.trigger]? = some (.control values.trigger)
  gate : e.units[inputs.gate]? = some (.control values.gate)
  pitch : e.units[inputs.pitch]? = some (.control values.pitch)
  velocity : e.units[inputs.velocity]? = some (.control values.velocity)

/-- The voices are those of the history. The note inputs, which are built-in objects of the patch,
hold what it tells. No trigger is latched twice, and none at all after a sample. -/
structure Mirrors (p : Patch α) (e : Engine α) (h : NoteHistory α) : Prop where
  voices : e.voices = h.voices
  count : e.wiring.voiceInputs.length = h.voices.voices.length
  sharedAt : NotesAt p 0 0 e.wiring.globalInputs
  shared : e.Shows e.wiring.globalInputs h.shared
  ownAt : ∀ voice inputs, e.wiring.voiceInputs[voice]? = some inputs →
    NotesAt p Builtin.firstVoiceInput voice inputs
  own : ∀ voice inputs, e.wiring.voiceInputs[voice]? = some inputs → e.Shows inputs (h.own voice)
  latched : e.latched.Nodup
  few : e.latched.length ≤ e.voices.voices.length + 1
  quiet : h.recent = [] → e.latched = []

/-- All triggers are off. -/
structure Rested (e : Engine α) : Prop where
  shared : e.units[e.wiring.globalInputs.trigger]? = some (.control (natural 0))
  own : ∀ inputs ∈ e.wiring.voiceInputs, e.units[inputs.trigger]? = some (.control (natural 0))
  latched : e.latched = []

omit [Arithmetic α] in
theorem shows_of_represents {s : Player α (SoundUnit α)} (h : Represents p w e s)
    {first voice : Nat} {inputs : NoteInputs} (hat : NotesAt p first voice inputs)
    {values : NoteValues α} (hs : Reference.Shows s first voice values) :
    e.Shows inputs values where
  trigger := (h.units _ _ hat.trigger).trans (congrArg some hs.trigger)
  gate := (h.units _ _ hat.gate).trans (congrArg some hs.gate)
  pitch := (h.units _ _ hat.pitch).trans (congrArg some hs.pitch)
  velocity := (h.units _ _ hat.velocity).trans (congrArg some hs.velocity)

theorem mirrors_of_represents {s : Player α (SoundUnit α)} (h : Represents p w e s)
    (hw : Wired p w) {history : NoteHistory α} (hr : Reflects p s history) :
    Mirrors p e history := by
  obtain rfl := h.wiring
  have hat : ∀ voice inputs, e.wiring.voiceInputs[voice]? = some inputs →
      voice < p.voices ∧ NotesAt p Builtin.firstVoiceInput voice inputs := by
    intro voice inputs hinputs
    obtain ⟨voice', hvoice, hat⟩ := forall₂_getElem? hw.voiceInputs.flip hinputs
    obtain ⟨hlt, rfl⟩ := List.getElem?_eq_some_iff.mp hvoice
    rw [List.length_range] at hlt
    rw [List.getElem_range] at hat
    exact ⟨hlt, hat⟩
  have hunique : Relator.BiUnique p.At :=
    ⟨fun _ _ _ hid hid' => hid.injective hid', fun _ _ _ hid hid' => hid.unique hid'⟩
  refine ⟨h.voices.trans hr.voices, ?_, hw.globalInputs, ?_, ?_, ?_, ?_, ?_, fun hrecent => ?_⟩
  · rw [hr.count, ← hw.voiceInputs.length_eq, List.length_range]
  · exact shows_of_represents h hw.globalInputs hr.shared
  · exact fun voice inputs hinputs => (hat voice inputs hinputs).2
  · intro voice inputs hinputs
    obtain ⟨hlt, hnotes⟩ := hat voice inputs hinputs
    exact shows_of_represents h hnotes (hr.own voice hlt)
  · exact (List.rel_nodup hunique h.latched).mpr hr.nodup
  · rw [h.latched.length_eq, h.voices, h.count]
    exact hr.length_latched
  · have hnone : s.latched = [] := by
      rw [List.eq_nil_iff_forall_not_mem]
      intro place hm
      obtain ⟨start, hstart, _⟩ := (hr.latched place).mp hm
      rw [hrecent] at hstart
      exact absurd hstart List.not_mem_nil
    have hlatched := h.latched
    rw [hnone] at hlatched
    exact List.forall₂_nil_right_iff.mp hlatched

theorem Mirrors.rested {history : NoteHistory α} (h : Mirrors p e history)
    (hrecent : history.recent = []) : Rested e := by
  refine ⟨?_, fun inputs hm => ?_, h.quiet hrecent⟩
  · have htrigger := h.shared.trigger
    rw [NoteHistory.shared, NoteHistory.trigger_valuesOf, hrecent] at htrigger
    exact htrigger
  · obtain ⟨voice, hvoice⟩ := List.getElem?_of_mem hm
    have htrigger := (h.own voice inputs hvoice).trigger
    rw [NoteHistory.own, NoteHistory.trigger_valuesOf, hrecent] at htrigger
    exact htrigger

/-- Whatever is asked of the engine of a compiled text, its note inputs mirror the voices and the
notes that were started, and after every sample all triggers are off. -/
theorem run_mirrors (o : Building.Options) (source : String) {settings : EngineSettings}
    {g : Graph α} {e : Engine α}
    (hg : (Compilation.ofText Library.standard.catalog o source).graph? = some g)
    (he : Engine.ofGraph Library.standard settings g = .ok e) (calls : List (Call α)) :
    Mirrors (Patch.ofGraph Library.standard.catalog settings.voices g) (e.run calls).1
        ((NoteHistory.ofCount settings.voices).afterAll calls) ∧
      ∀ count, Rested (e.run (calls ++ [.generate (count + 1)])).1 := by
  obtain ⟨program, hbuild⟩ : ∃ program,
      (Building.build Library.standard.catalog o program : Building.Outcome α).graph = some g := by
    rw [Compilation.graph?, Compilation.ofText] at hg
    dsimp only at hg
    split at hg
    · exact ⟨_, hg⟩
    · cases hg
  obtain ⟨hpos, _, _, _, hbuiltins, _⟩ := parts_of_ofRegistry he rfl
  obtain ⟨hw, hstart, _, hv⟩ := represents_of_ofRegistry he rfl
  have hmirrors : ∀ calls, Mirrors (Patch.ofGraph Library.standard.catalog settings.voices g)
      (e.run calls).1 ((NoteHistory.ofCount settings.voices).afterAll calls) := fun calls =>
    mirrors_of_represents (hstart.run hw hv calls).1 hw
      ((reflects_start hbuiltins).run hv (Building.objectCount_le_of_build hbuild) calls)
  refine ⟨hmirrors calls, fun count => (hmirrors _).rested ?_⟩
  rw [NoteHistory.afterAll, List.foldl_append]
  rfl

/-- A level to turn, and the gates of all voices. -/
def gates : String := "Knob level()\nlevel => output\nstartvoice\ngate => output\nendvoice"

abbrev gatesProgram : Program := (Program.ofTokens (Token.scan gates)).program

private theorem ofTokens_gates : Program.ofTokens (Token.scan gates) =
    ⟨⟨[⟨.global, .construction ⟨⟨"Knob", ⟨0, 4⟩⟩, some ⟨"level", ⟨5, 10⟩⟩, [], ⟨0, 12⟩⟩⟩,
      ⟨.global, .chain (.name ⟨"level", ⟨13, 18⟩⟩) [] (.name ⟨"output", ⟨22, 28⟩⟩) ⟨13, 28⟩⟩,
      ⟨.voice, .chain (.name ⟨"gate", ⟨40, 44⟩⟩) [] (.name ⟨"output", ⟨48, 54⟩⟩)
        ⟨40, 54⟩⟩]⟩, []⟩ := by
  cbv

theorem graph_gates : (Compilation.ofText Library.standard.catalog .standard gates).graph? =
    some ((Building.built gatesProgram : Building.State Float).graph .standard [10, 6, 4]) := by
  have hread : (Program.ofTokens (Token.scan gates)).faults = [] := by rw [ofTokens_gates]
  have hcheck : (Checking.check Library.standard.catalog gatesProgram).faults = [] := by
    rw [gatesProgram, ofTokens_gates]
    rfl
  have hdependencies : (Building.built gatesProgram : Building.State Float).objects.map
      Building.Draft.dependencies = [[], [], [], [], [10, 6, 10, 6], [], [], [], [], [], []] := by
    rw [Building.built_eq, gatesProgram, ofTokens_gates]
    rfl
  have hfaults : (Building.built gatesProgram : Building.State Float).faults = [] := by
    rw [Building.built_eq, gatesProgram, ofTokens_gates]
    rfl
  have hschedule : Graph.schedule [[], [], [], [], [10, 6, 10, 6], [], [], [], [], [], []]
      Builtin.outputObject = .ok [10, 6, 4] := by cbv
  exact Building.graph?_of_schedule hread hcheck hfaults hdependencies hschedule

/-- One voice is enough for these gates. -/
theorem exists_gates : ∃ e : Engine Float, Engine.ofGraph Library.standard ⟨44100, 1, 42, 128⟩
    ((Building.built gatesProgram : Building.State Float).graph .standard [10, 6, 4]) = .ok e := by
  have hvoices : 0 < (⟨44100, 1, 42, 128⟩ : EngineSettings).voices := by decide
  have hbuild := (Compilation.stages_of_graph? graph_gates).2.2
  exact exists_ofGraph Library.standard_complete (Building.wellFormed_of_build hbuild) hvoices

/-- The second note takes the only voice, and the end of the first changes nothing. -/
theorem run_mirrors_stolen :
    ∃ (g : Graph Float) (e : Engine Float),
      (Compilation.ofText Library.standard.catalog .standard gates).graph? = some g ∧
      Engine.ofGraph Library.standard ⟨44100, 1, 42, 128⟩ g = .ok e ∧
      Mirrors (Patch.ofGraph Library.standard.catalog 1 g)
        (e.run [.noteOn 60 1, .noteOn 64 0.5, .noteOff 60, .setParameter "level" 0.25]).1
        ((NoteHistory.ofCount 1).afterAll
          [.noteOn 60 1, .noteOn 64 0.5, .noteOff 60, .setParameter "level" 0.25]) ∧
      Rested (e.run ([.noteOn 60 1, .noteOn 64 0.5, .noteOff 60, .setParameter "level" 0.25] ++
        [.generate 1])).1 := by
  obtain ⟨e, he⟩ := exists_gates
  obtain ⟨hmirrors, hrested⟩ := run_mirrors .standard gates graph_gates he
    [.noteOn 60 1, .noteOn 64 0.5, .noteOff 60, .setParameter "level" 0.25]
  exact ⟨_, e, graph_gates, he, hmirrors, hrested 0⟩

end Engine
end Patchbay
