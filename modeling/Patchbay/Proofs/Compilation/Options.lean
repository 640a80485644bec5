import Patchbay.Compilation
import Patchbay.Proofs.Building.WellFormed
import Patchbay.Proofs.Engine.Plain
import Patchbay.Proofs.Engine.Reference

/-! Options change how a graph is written down and nothing that is heard: the plain graphs are the
same, and so are the engines. -/
namespace Patchbay
variable {α : Type}

namespace Building

theorem stripSpans_finished (o : Options) (d : Draft α) :
    (d.finished o).stripSpans = (d.node o).stripSpans := by
  rw [Draft.finished]
  split
  · exact Node.stripSpans_stripSpans _
  · rfl

section States
variable {catalog : Catalog} {s : State α} (h : Valid catalog s) (hk : catalog.Regular)
include h hk

/-- Under all options an object receives the same at the proper names of its sockets. -/
theorem plain_finished (o o' : Options) {d : Draft α} (hd : d ∈ s.objects) :
    (d.finished o).plain catalog = (d.finished o').plain catalog := by
  have hregular := regular_of_mem h hk hd
  have hl := h.sockets d hd
  have hclass : catalog.resolve? d.cls.name = some d.cls := by
    obtain ⟨i, hi⟩ := List.getElem?_of_mem hd
    refine h.classes d.cls (List.mem_of_getElem? (i := i) ?_)
    rw [State.classes_getElem?, hi]
    rfl
  have hreceived : ∀ (o : Options) {i : Nat} {j : Jack} {mix : List (Contribution α)},
      d.cls.sockets[i]? = some j → d.mixes[i]? = some mix →
        (d.finished o).stripSpans.mixes.get? j.canonical =
          some (mix.map Contribution.stripSpan) := by
    intro o i j mix hj hm
    rw [stripSpans_finished, Node.stripSpans, SortedMap.get?_map,
      get?_canonical hregular hl hj hm]
    rfl
  refine Node.plain_eq_of_get? (c := d.cls) ?_ ?_ ?_ fun j hj => ?_
  · rw [className_finished, className_finished]
  · rw [perVoice_finished, perVoice_finished]
  · rw [className_finished, hclass]
  · obtain ⟨i, hi⟩ := List.getElem?_of_mem hj
    have hlt : i < d.mixes.length := hl ▸ (List.getElem?_eq_some_iff.mp hi).1
    have hm := List.getElem?_eq_getElem hlt
    rw [hreceived o hi hm, hreceived o' hi hm]

theorem plain_graph (o o' : Options) (order : List Nat) :
    (s.graph o order).plain catalog = (s.graph o' order).plain catalog := by
  have hrest : ∀ o : Options, (s.graph o order).plain catalog =
      { inputNames := Builtin.globalInputs
        outputNames := [Builtin.output]
        voiceInputNames := Builtin.voiceInputs
        parameters := s.parameters
        nodes := s.objects.map fun d => (d.finished o).plain catalog
        order } := by
    intro o
    have hnodes := State.nodes_graph s o order
    rw [Graph.plain, hnodes, List.map_map, State.graph]
    split <;> rfl
  rw [hrest o, hrest o']
  congr 1
  exact List.map_congr_left fun d hd => plain_finished h hk o o' hd

/-- What a program comes to under two options: the same findings, and graphs of one plain form. -/
theorem finish_options (o o' : Options) :
    (s.finish o).faults = (s.finish o').faults ∧ (s.finish o).warnings = (s.finish o').warnings ∧
      (s.finish o).graph.map (Graph.plain catalog) =
        (s.finish o').graph.map (Graph.plain catalog) := by
  rw [State.finish, State.finish]
  split
  · split
    · exact ⟨rfl, rfl, rfl⟩
    · next order _ => exact ⟨rfl, rfl, congrArg some (plain_graph h hk o o' order)⟩
  · exact ⟨rfl, rfl, rfl⟩

end States
end Building

namespace Engine
open Reference
variable {U : Type} [Arithmetic α] [Playable α U]

/-- What an engine answers to a call: for a parameter whether there is one of that name, and the
frames that were asked for. -/
inductive Answer (α : Type) where
  | done
  | known (found : Bool)
  | frames (frames : List (α × α))

def answer (e : Engine α U) : Call α → Answer α
  | .setParameter name value => .known (e.setParameter name value).isSome
  | .generate count => .frames (e.generate count).2
  | _ => .done

/-- The answers to one call after the other. -/
def answers (e : Engine α U) : List (Call α) → List (Answer α)
  | [] => []
  | c :: rest => e.answer c :: (e.call c).1.answers rest

end Engine

namespace Compilation
open Building
variable [Arithmetic α]

theorem outcome_options (o o' : Options) (program : Program) :
    let a : Outcome α := build Library.standard.catalog o program
    let b : Outcome α := build Library.standard.catalog o' program
    a.faults = b.faults ∧ a.warnings = b.warnings ∧
      a.graph.map (Graph.plain Library.standard.catalog) =
        b.graph.map (Graph.plain Library.standard.catalog) := by
  have hvalid := (built_extends (α := α) program).1
  rw [build_standard, build_standard]
  exact finish_options hvalid Library.standard_regular o o'

/-- A text compiled under two options: only the outcome can differ, and only in how the graph is
written down. -/
private theorem compiled_options (o o' : Options) (source : String) :
    let a : Compilation α := ofText Library.standard.catalog o source
    let b : Compilation α := ofText Library.standard.catalog o' source
    a.diagnostics = b.diagnostics ∧
      a.graph?.map (Graph.plain Library.standard.catalog) =
        b.graph?.map (Graph.plain Library.standard.catalog) := by
  intro a b
  obtain ⟨hfaults, hwarnings, hgraph⟩ := outcome_options (α := α) o o'
    (Program.ofTokens (Token.scan source)).program
  dsimp only [a, b]
  rw [diagnostics, diagnostics, graph?, graph?, ofText, ofText]
  dsimp only
  split
  · rw [hfaults, hwarnings]
    exact ⟨rfl, hgraph⟩
  · exact ⟨rfl, rfl⟩

/-- Graphs of one plain form are played by one engine. -/
private theorem map_ofGraph {a b : Option (Graph α)}
    (h : a.map (Graph.plain Library.standard.catalog) = b.map (Graph.plain Library.standard.catalog))
    (settings : EngineSettings) :
    a.map (Engine.ofGraph Library.standard settings) =
      b.map (Engine.ofGraph Library.standard settings) := by
  have hplain : ∀ g : Option (Graph α), g.map (Engine.ofGraph Library.standard settings) =
      (g.map (Graph.plain Library.standard.catalog)).map
        (Engine.ofGraph Library.standard settings) := by
    intro g
    rw [Option.map_map]
    refine congrArg (Option.map · g) (funext fun g => ?_)
    exact (Engine.ofRegistry_plain settings g).symm
  rw [hplain a, hplain b, h]

/-- Under any two options a text compiles to a graph or to none with the same findings, the graphs
are the same once their mixes stand under the proper names of the sockets and without places, and
with any settings they are played by one engine, which gives the same answers to all calls. -/
theorem ofText_options (o o' : Options) (source : String) :
    let a : Compilation α := ofText Library.standard.catalog o source
    let b : Compilation α := ofText Library.standard.catalog o' source
    a.graph?.isSome = b.graph?.isSome ∧ a.diagnostics = b.diagnostics ∧
    a.graph?.map (Graph.plain Library.standard.catalog) =
      b.graph?.map (Graph.plain Library.standard.catalog) ∧
    ∀ settings, a.graph?.map (Engine.ofGraph Library.standard settings) =
        b.graph?.map (Engine.ofGraph Library.standard settings) ∧
      ∀ calls, a.graph?.map (fun g => (Engine.ofGraph Library.standard settings g).map
          (·.answers calls)) =
        b.graph?.map fun g => (Engine.ofGraph Library.standard settings g).map (·.answers calls) := by
  intro a b
  obtain ⟨hdiagnostics, hplain⟩ := compiled_options (α := α) o o' source
  have hisSome : a.graph?.isSome = b.graph?.isSome := by
    have h := congrArg Option.isSome hplain
    rwa [Option.isSome_map, Option.isSome_map] at h
  refine ⟨hisSome, hdiagnostics, hplain, fun settings => ?_⟩
  have hengine := map_ofGraph hplain settings
  refine ⟨hengine, fun calls => ?_⟩
  have h := congrArg (Option.map (Except.map (·.answers calls))) hengine
  rwa [Option.map_map, Option.map_map] at h

end Patchbay.Compilation
