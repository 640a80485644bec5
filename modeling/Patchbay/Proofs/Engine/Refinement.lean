import Patchbay.Library.Standard
import Patchbay.Proofs.Engine.Start

/-! An engine plays a graph as its objects do: all calls give the frames that the graph gives when it
is played object by object. -/
namespace Patchbay.Engine
open Reference Reference.Patch Wiring
variable {α U : Type} [Arithmetic α] [Playable α U]

/-- Every engine plays its graph object by object and voice by voice. All objects are played, after
any calls the engine holds what the objects hold, and an instance in the order changes only itself. -/
theorem run_refines {registry : Registry α U} {settings : EngineSettings} {graph : Graph α}
    {e : Engine α U} (h : ofRegistry registry settings graph = .ok e) (calls : List (Call α)) :
    let p := Patch.ofGraph registry.catalog settings.voices graph
    let s := Reference.start p registry settings
    p.objects.map Prod.fst = graph.nodes ∧
      (e.run calls).2 = (Reference.run p s calls).2 ∧
      Represents p e.wiring (e.run calls).1 (Reference.run p s calls).1 ∧
      ∀ id ∈ e.wiring.order, ∃ place ∈ graph.order.flatMap p.placesOf, p.At id place ∧
        ∀ (e' : Engine α U) (frame : α × α), e'.wiring = e.wiring →
          ChangesOnly p id place e' (e'.computeInstance frame id).1 := by
  intro p s
  obtain ⟨hw, hstart, hnodes, hv⟩ := represents_of_ofRegistry h (p := p) rfl
  obtain ⟨hrun, hframes⟩ := hstart.run hw hv calls
  refine ⟨hnodes, hframes, hrun, fun id hid => ?_⟩
  obtain ⟨j, hj⟩ := List.mem_iff_getElem?.mp hid
  obtain ⟨place, hplace, hat⟩ := forall₂_getElem? hw.order hj
  refine ⟨place, List.mem_of_getElem? hplace, hat, fun e' frame hwiring => ?_⟩
  exact changesOnly_computeInstance (hwiring ▸ hw) hat frame

/-- One sine for each voice, all of them on the left, and a constant on the right. -/
def chorus : Graph Float where
  inputNames := Builtin.globalInputs
  outputNames := [Builtin.output]
  voiceInputNames := Builtin.voiceInputs
  parameters := []
  nodes :=
    List.replicate 4 ⟨Builtin.userInput, false, .empty, none⟩ ++
    [⟨Builtin.stereoOutput, false,
      .ofList [("left", [.output 10 "output" none]), ("right", [.constant 1 none])], none⟩] ++
    List.replicate 5 ⟨Builtin.userInput, true, .empty, none⟩ ++
    [⟨"Sine", true, .ofList [("frequency", [.output 7 "output" none])], none⟩]
  order := [7, 10, 4]

theorem run_refines_chorus :
    ∃ e : Engine Float, ofRegistry Library.standard.registry .standard chorus = .ok e ∧
      (e.run [.noteOn 60 1, .generate 2]).2 =
        (Reference.run (Patch.ofGraph Library.standard.catalog 5 chorus)
          (Reference.start (Patch.ofGraph Library.standard.catalog 5 chorus)
            Library.standard.registry .standard) [.noteOn 60 1, .generate 2]).2 := by
  obtain ⟨e, he⟩ : ∃ e : Engine Float,
      ofRegistry Library.standard.registry .standard chorus = .ok e := ⟨_, rfl⟩
  exact ⟨e, he, (run_refines he _).2.1⟩

end Patchbay.Engine
