import Patchbay.Proofs.Building.Built
import Patchbay.Proofs.Building.Export
import Patchbay.Proofs.Graph.Schedule

/-! Whatever a program says, what is built of it is a well-formed graph with a complete schedule,
or a list of faults. -/
namespace Patchbay.Building
open Relation
variable {α : Type}

/-- The classes of the built-in objects, and which of them each voice has for itself. -/
def builtinKinds : List (String × Bool) :=
  Builtin.globalInputs.map (fun _ => (Builtin.userInput, false)) ++
    [(Builtin.stereoOutput, false)] ++
      Builtin.voiceInputs.map fun _ => (Builtin.userInput, true)

/-- A graph that starts with the built-in objects, gives each object its sockets, reads only
outputs that exist, and computes in order just what the final signal depends on. -/
structure WellFormed (catalog : Catalog) (o : Options) (g : Graph α) : Prop where
  inputNames : g.inputNames = Builtin.globalInputs
  outputNames : g.outputNames = [Builtin.output]
  voiceInputNames : g.voiceInputNames = Builtin.voiceInputs
  builtins : (g.nodes.take Builtin.objectCount).map (fun n => (n.className, n.perVoice)) =
    builtinKinds
  sockets : ∀ n ∈ g.nodes, ∃ c, catalog.resolve? n.className = some c ∧
    (n.mixes.entries.map Prod.fst).Perm (c.sockets.flatMap o.namesOf)
  contributions : ∀ n ∈ g.nodes, ∀ mix ∈ n.mixes.values, ∀ id name span,
    .output id name span ∈ mix → ∃ source c, g.nodes[id]? = some source ∧
      catalog.resolve? source.className = some c ∧ name ∈ c.outputs.map Jack.canonical
  parameters : ∀ p ∈ g.parameters, p.object < g.nodes.length
  schedule : Graph.IsSchedule (g.nodes.map Node.dependencies) Builtin.outputObject g.order

namespace WellFormed
variable {catalog : Catalog} {o : Options} {g : Graph α} (h : WellFormed catalog o g)
include h

theorem objectCount_le : Builtin.objectCount ≤ g.nodes.length := by
  have hlen := congrArg List.length h.builtins
  rw [List.length_map, List.length_take] at hlen
  have hten : builtinKinds.length = Builtin.objectCount := rfl
  omega

/-- What is computed in order are objects of the graph. -/
theorem lt_of_mem_order {i : Nat} (hi : i ∈ g.order) : i < g.nodes.length := by
  cases (h.schedule.mem_iff i).mp hi with
  | refl => exact Nat.lt_of_lt_of_le (by decide) h.objectCount_le
  | tail _ hlast =>
    have hlt := hlast.2
    rwa [List.length_map] at hlt

end WellFormed

section Nodes
variable {catalog : Catalog} {s : State α} (h : Valid catalog s) (hk : catalog.Regular)
include h hk

theorem regular_of_mem {d : Draft α} (hd : d ∈ s.objects) : d.cls.Regular := by
  obtain ⟨i, hi⟩ := List.getElem?_of_mem hd
  have hclass : s.classes[i]? = some d.cls := by
    rw [State.classes_getElem?, hi]
    rfl
  exact h.regular hk hclass

/-- Finished objects read the same objects. -/
private theorem reads_finished (o : Options) (i j : Nat) :
    Graph.Reads ((s.objects.map (Draft.finished o)).map Node.dependencies) i j ↔
      Graph.Reads (s.objects.map Draft.dependencies) i j := by
  rw [Graph.Reads, Graph.Reads, List.length_map, List.length_map, List.length_map]
  refine and_congr_left fun _ => ?_
  rw [List.getD_eq_getElem?_getD, List.getD_eq_getElem?_getD, List.getElem?_map, List.getElem?_map,
    List.getElem?_map]
  cases hd : s.objects[i]? with
  | none => rfl
  | some d =>
    have hm := List.mem_of_getElem? hd
    show j ∈ (d.finished o).dependencies ↔ j ∈ d.dependencies
    rw [dependencies_finished]
    exact mem_dependencies (regular_of_mem h hk hm) (h.sockets d hm)

theorem wellFormed_graph {input output : UnitClass} (hi : input.name = Builtin.userInput)
    (ho : output.name = Builtin.stereoOutput)
    (hs : builtinShapes input output <+: s.shapes) (o : Options) {order : List Nat}
    (hschedule : Graph.IsSchedule (s.objects.map Draft.dependencies) Builtin.outputObject order) :
    WellFormed catalog o (s.graph o order) := by
  have hrest : (s.graph o order).inputNames = Builtin.globalInputs ∧
      (s.graph o order).outputNames = [Builtin.output] ∧
      (s.graph o order).voiceInputNames = Builtin.voiceInputs ∧
      (s.graph o order).parameters = s.parameters ∧ (s.graph o order).order = order := by
    rw [State.graph]
    split <;> exact ⟨rfl, rfl, rfl, rfl, rfl⟩
  have hclass : ∀ (i : Nat) (d : Draft α), s.objects[i]? = some d →
      catalog.resolve? d.cls.name = some d.cls := by
    intro i d hd
    refine h.classes d.cls (List.mem_of_getElem? (i := i) ?_)
    rw [State.classes_getElem?, hd]
    rfl
  refine ⟨hrest.1, hrest.2.1, hrest.2.2.1, ?_, ?_, ?_, ?_, ?_⟩
  · have hkinds : ∀ l : List (Draft α), (l.map (Draft.finished o)).map
        (fun n => (n.className, n.perVoice)) =
          (l.map Draft.shape).map fun x => (x.cls.name, x.perVoice) := by
      intro l
      simp [Function.comp_def, Draft.shape]
    obtain ⟨more, hmore⟩ := hs
    have htake : s.shapes.take Builtin.objectCount = builtinShapes input output := by
      rw [← hmore]
      rfl
    rw [State.nodes_graph, ← List.map_take, hkinds, List.map_take]
    rw [State.shapes] at htake
    rw [htake]
    simp [builtinShapes, builtinKinds, hi, ho, Builtin.globalInputs, Builtin.voiceInputs]
  · intro n hn
    rw [State.nodes_graph] at hn
    obtain ⟨d, hd, rfl⟩ := List.mem_map.mp hn
    obtain ⟨i, hi⟩ := List.getElem?_of_mem hd
    refine ⟨d.cls, ?_, ?_⟩
    · rw [className_finished]
      exact hclass i d hi
    · rw [keys_finished]
      exact perm_keys (regular_of_mem h hk hd) (h.sockets d hd)
  · intro n hn mix hm id name span hc
    rw [State.nodes_graph] at hn ⊢
    obtain ⟨d, hd, rfl⟩ := List.mem_map.mp hn
    obtain ⟨old, hold, place, hmem⟩ := output_mem_finished o d hm hc
    have hold' := (mem_values (regular_of_mem h hk hd) (h.sockets d hd)).mp hold
    obtain ⟨c, hc, hname⟩ : HasOutput s.classes id name := h.mixes d hd old hold' _ hmem
    rw [State.classes_getElem?] at hc
    obtain ⟨source, hsource, rfl⟩ := Option.map_eq_some_iff.mp hc
    refine ⟨source.finished o, source.cls, ?_, ?_, hname⟩
    · rw [List.getElem?_map, hsource]
      rfl
    · rw [className_finished]
      exact hclass id source hsource
  · rw [hrest.2.2.2.1, State.nodes_graph, List.length_map]
    exact h.parameters
  · rw [hrest.2.2.2.2, State.nodes_graph]
    exact hschedule.congr (reads_finished h hk o)

end Nodes

section Finished
variable (s : State α) (o : Options) (order : List Nat)

private theorem order_graph : (s.graph o order).order = order := by
  rw [State.graph]
  split
  · rfl
  · rfl

private theorem length_graph : (s.graph o order).nodes.length = s.objects.length := by
  rw [State.nodes_graph, List.length_map]

private theorem spans_graph {o : Options} (ho : o.removeSpans = false) :
    (s.graph o order).nodes.map Node.span = s.objects.map Draft.span := by
  rw [State.nodes_graph, List.map_map]
  refine congrArg (List.map · s.objects) (funext fun d => ?_)
  simp [Draft.finished, ho, Draft.node]

end Finished

section Warnings

/-- The written and operator objects that an order leaves out. -/
def unread (count : Nat) (order : List Nat) : List Nat :=
  (List.range' Builtin.objectCount (count - Builtin.objectCount)).filter (· ∉ order)

private theorem unconnected_eq (s : State α) (order : List Nat) :
    s.unconnected order = (unread s.objects.length order).map fun i =>
      ⟨.unconnected, s.objects[i]?.bind Draft.span⟩ := by
  have hdrop : s.objects.zipIdx.drop Builtin.objectCount =
      (s.objects.drop Builtin.objectCount).zipIdx Builtin.objectCount := by
    apply List.ext_getElem?
    intro i
    simp [List.getElem?_drop, List.getElem?_zipIdx]
  have walk : ∀ (l : List (Draft α)) (first : Nat), (∀ j : Nat, l[j]? = s.objects[first + j]?) →
      (l.zipIdx first).filterMap (fun x =>
          if order.contains x.2 then none else some ⟨Warning.unconnected, x.1.span⟩) =
        ((List.range' first l.length).filter (· ∉ order)).map fun i =>
          (⟨.unconnected, s.objects[i]?.bind Draft.span⟩ : Located Warning) := by
    intro l
    induction l with
    | nil =>
      intro first _
      rfl
    | cons d rest ih =>
      intro first hl
      have hd : s.objects[first]? = some d := (hl 0).symm
      have hr := ih (first + 1) fun j => by
        have := hl (j + 1)
        rwa [List.getElem?_cons_succ, Nat.add_comm j 1, ← Nat.add_assoc] at this
      rw [List.zipIdx_cons, List.filterMap_cons, List.length_cons, List.range'_succ,
        List.filter_cons, hr]
      by_cases hm : first ∈ order <;> simp [hm, hd]
  rw [State.unconnected, hdrop, walk, List.length_drop, unread]
  intro j
  rw [List.getElem?_drop]

/-- The warnings about objects, among all of them. -/
private theorem warned_eq {catalog : Catalog} {s : State α} (h : Valid catalog s)
    (order : List Nat) :
    (s.warnings ++ s.unconnected order).filter (·.fault = .unconnected) =
      (unread s.objects.length order).map fun i =>
        ⟨.unconnected, s.objects[i]?.bind Draft.span⟩ := by
  have hold : s.warnings.filter (·.fault = .unconnected) = [] := by
    refine List.filter_eq_nil_iff.mpr fun w hw => ?_
    simpa using h.warnings w hw
  have hnew : (s.unconnected order).filter (·.fault = .unconnected) = s.unconnected order := by
    refine List.filter_eq_self.mpr fun w hw => ?_
    rw [unconnected_eq] at hw
    obtain ⟨i, _, rfl⟩ := List.mem_map.mp hw
    rfl
  rw [List.filter_append, hold, hnew, List.nil_append, unconnected_eq]

end Warnings

/-- Whatever graph is built is well formed. -/
theorem wellFormed_of_build [Arithmetic α] {o : Options} {program : Program} {g : Graph α}
    (h : (build Library.standard.catalog o program).graph = some g) :
    WellFormed Library.standard.catalog o g := by
  obtain ⟨hvalid, hshapes⟩ := built_extends (α := α) program
  have hroot : Builtin.outputObject < ((built program : State α).objects.map
      Draft.dependencies).length := by
    have hle := hshapes.length_le
    rw [State.length_shapes] at hle
    rw [List.length_map]
    exact Nat.lt_of_lt_of_le (by decide) hle
  obtain ⟨_, order, hs, rfl⟩ := graph_of_build h
  exact wellFormed_graph hvalid Library.standard_regular rfl rfl hshapes o
    (Graph.isSchedule_of_schedule hroot hs)

/-- What a program is built into. There is a graph just if there is no fault, and it is well formed;
objects that it leaves out are warned about, each once and in order. With all lines built, the one
thing that can stand in the way is a cycle that the final signal depends on. -/
theorem build_wellFormed [Arithmetic α] (o : Options) (program : Program) :
    let outcome : Outcome α := build Library.standard.catalog o program
    let lines : State α := built program
    let dependencies := lines.objects.map Draft.dependencies
    (outcome.graph.isSome ↔ outcome.faults = []) ∧
    (∀ g, outcome.graph = some g →
      WellFormed Library.standard.catalog o g ∧ g.nodes.length = lines.objects.length ∧
      (o.removeSpans = false → g.nodes.map Node.span = lines.objects.map Draft.span) ∧
      outcome.warnings.filter (·.fault = .unconnected) =
        (unread g.nodes.length g.order).map fun i =>
          ⟨.unconnected, lines.objects[i]?.bind Draft.span⟩) ∧
    (lines.faults ≠ [] → outcome.graph = none ∧ outcome.faults = lines.faults) ∧
    (lines.faults = [] →
      (outcome.graph = none ↔ ∃ i, ReflTransGen (Graph.Reads dependencies) Builtin.outputObject i ∧
        TransGen (Graph.Reads dependencies) i i) ∧
      (outcome.graph = none → ∃ i,
        ReflTransGen (Graph.Reads dependencies) Builtin.outputObject i ∧
        TransGen (Graph.Reads dependencies) i i ∧
        outcome.faults = [⟨.cycle, lines.objects[i]?.bind Draft.span⟩])) := by
  intro outcome lines dependencies
  have hout : outcome = lines.finish o := build_standard o program
  obtain ⟨hvalid, hshapes⟩ := built_extends (α := α) program
  have hroot : Builtin.outputObject < dependencies.length := by
    have hle := hshapes.length_le
    rw [State.length_shapes] at hle
    rw [List.length_map]
    exact Nat.lt_of_lt_of_le (by decide) hle
  by_cases hf : lines.faults = []
  · have hiff := Graph.schedule_eq_error_iff hroot
    cases hs : Graph.schedule dependencies Builtin.outputObject with
    | error cycle =>
      have hfin : outcome =
          ⟨none, [⟨.cycle, lines.objects[cycle.object]?.bind Draft.span⟩], lines.warnings⟩ := by
        rw [hout, State.finish, hf, hs]
        rfl
      have hc := Graph.cycle_of_schedule hs
      rw [hfin]
      refine ⟨by simp, by simp, fun hn => absurd hf hn, fun _ => ⟨?_, fun _ => ?_⟩⟩
      · exact iff_of_true rfl (hiff.mp ⟨cycle, hs⟩)
      · exact ⟨cycle.object, hc.1, hc.2, rfl⟩
    | ok order =>
      have hfin : outcome =
          ⟨some (lines.graph o order), [], lines.warnings ++ lines.unconnected order⟩ := by
        rw [hout, State.finish, hf, hs]
        rfl
      have hschedule := Graph.isSchedule_of_schedule hroot hs
      rw [hfin]
      refine ⟨by simp, fun g hg => ?_, fun hn => absurd hf hn, fun _ => ⟨?_, by simp⟩⟩
      · cases hg
        refine ⟨wellFormed_graph hvalid Library.standard_regular rfl rfl hshapes o hschedule,
          length_graph lines o order, spans_graph lines order, ?_⟩
        rw [length_graph, order_graph]
        exact warned_eq hvalid order
      · have hacyclic : ¬ ∃ i, ReflTransGen (Graph.Reads dependencies) Builtin.outputObject i ∧
            TransGen (Graph.Reads dependencies) i i := by
          intro hcycle
          obtain ⟨cycle, he⟩ := hiff.mpr hcycle
          rw [hs] at he
          cases he
        exact iff_of_false (by simp) hacyclic
  · have hfin : outcome = ⟨none, lines.faults, lines.warnings⟩ := by
      rw [hout, State.finish, if_neg (by simpa using hf)]
    rw [hfin]
    exact ⟨by simpa using hf, by simp, fun _ => ⟨rfl, rfl⟩, fun hn => absurd hn hf⟩

end Patchbay.Building
