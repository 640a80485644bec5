import Mathlib.Data.List.Permutation
import Patchbay.Compilation
import Patchbay.Library.Standard
import Patchbay.Proofs.Building.Export
import Patchbay.Proofs.Building.Layout
import Patchbay.Proofs.Checking.Layout
import Patchbay.Proofs.Graph.Plain
import Patchbay.Proofs.Program.Lines

/-! Layout does not matter: texts that read as the same tokens compile alike, whatever stands
between the tokens. -/
namespace Patchbay
variable {α : Type}

theorem Contribution.stripSpan_bare (c : Contribution α) : c.bare.stripSpan = c.stripSpan := by
  cases c <;> rfl

theorem Contribution.object?_bare (c : Contribution α) : c.bare.object? = c.object? := by
  cases c <;> rfl

theorem Located.bare_bare {ε : Type} (l : Located ε) : l.bare.bare = l.bare := by
  obtain ⟨fault, _ | span⟩ := l <;> rfl

/-- A finding of which only is known whether it has a place. -/
def Diagnostic.bare (d : Diagnostic) : Diagnostic := ⟨d.kind, d.message, d.span.map Span.bare⟩

namespace Building

theorem Draft.dependencies_bare (d : Draft α) : d.bare.dependencies = d.dependencies := by
  have hobject : (Contribution.object? ∘ Contribution.bare : Contribution α → Option Nat) =
      Contribution.object? := funext Contribution.object?_bare
  rw [dependencies, dependencies, bare, ← List.map_flatten, List.filterMap_map, hobject]

theorem Draft.stripSpans_node_bare (o : Options) (d : Draft α) :
    (d.bare.node o).stripSpans = (d.node o).stripSpans := by
  have hstrip : (List.map Contribution.stripSpan ∘ List.map Contribution.bare :
      List (Contribution α) → _) = List.map Contribution.stripSpan := by
    funext mix
    rw [Function.comp_apply, List.map_map]
    exact List.map_congr_left fun c _ => c.stripSpan_bare
  simp only [Node.stripSpans, node, SortedMap.map_ofList, Node.mk.injEq, and_true]
  refine ⟨rfl, rfl, ?_⟩
  simp only [bare, List.zip_map_right, List.flatMap_map, List.map_flatMap, List.map_map]
  congr 2
  funext x
  exact List.map_congr_left fun name _ => congrArg (name, ·) (congrFun hstrip x.2)

theorem State.stripSpans_graph (s : State α) (o : Options) (order : List Nat) :
    (s.graph o order).stripSpans = {
      inputNames := Builtin.globalInputs
      outputNames := [Builtin.output]
      voiceInputNames := Builtin.voiceInputs
      parameters := s.parameters
      nodes := s.objects.map fun d => (d.node o).stripSpans
      order } := by
  rw [graph]
  split
  · rw [Graph.stripSpans_stripSpans, Graph.stripSpans, List.map_map]
    rfl
  · rw [Graph.stripSpans, List.map_map]
    rfl

theorem State.stripSpans_graph_bare (s : State α) (o : Options) (order : List Nat) :
    (s.bare.graph o order).stripSpans = (s.graph o order).stripSpans := by
  have hnodes : (s.objects.map Draft.bare).map (fun d => (d.node o).stripSpans) =
      s.objects.map fun d => (d.node o).stripSpans := by
    rw [List.map_map]
    exact List.map_congr_left fun d _ => d.stripSpans_node_bare o
  rw [stripSpans_graph, stripSpans_graph, bare, hnodes]

theorem State.unconnected_bare (s : State α) (order : List Nat) :
    s.bare.unconnected order = (s.unconnected order).map Located.bare := by
  rw [unconnected, unconnected, bare, List.zipIdx_map, ← List.map_drop, List.filterMap_map,
    List.map_filterMap]
  refine congrArg (List.filterMap · _) (funext fun x => ?_)
  obtain ⟨d, id⟩ := x
  dsimp only [Function.comp_apply, Prod.map]
  rw [apply_ite (Option.map Located.bare)]
  rfl

/-- What a program comes to, without places. -/
def Outcome.bare (a : Outcome α) : Outcome α :=
  ⟨a.graph.map Graph.stripSpans, a.faults.map Located.bare, a.warnings.map Located.bare⟩

theorem State.finish_bare (s : State α) (o : Options) :
    (s.bare.finish o).bare = (s.finish o).bare := by
  have htwice : ∀ {ε : Type} (ls : List (Located ε)),
      (ls.map Located.bare).map Located.bare = ls.map Located.bare := by
    intro ε ls
    rw [List.map_map]
    exact List.map_congr_left fun l _ => l.bare_bare
  have hreads : (s.objects.map Draft.bare).map Draft.dependencies =
      s.objects.map Draft.dependencies := by
    rw [List.map_map]
    exact List.map_congr_left fun d _ => d.dependencies_bare
  rw [finish, finish]
  have hfaults : s.bare.faults.isEmpty = s.faults.isEmpty := List.isEmpty_map
  have hobjects : s.bare.objects = s.objects.map Draft.bare := rfl
  have hwarnings : s.bare.warnings = s.warnings.map Located.bare := rfl
  rw [hfaults, hobjects, hreads]
  split
  · cases Graph.schedule (s.objects.map Draft.dependencies) Builtin.outputObject with
    | error cycle =>
      have hplace : (s.objects.map Draft.bare)[cycle.object]?.bind Draft.span =
          (s.objects[cycle.object]?.bind Draft.span).map Span.bare := by
        rw [List.getElem?_map]
        cases s.objects[cycle.object]? <;> rfl
      have hcycle := Located.bare_bare ⟨Fault.cycle, s.objects[cycle.object]?.bind Draft.span⟩
      simp only [Outcome.bare, Option.map_none, hwarnings, htwice, hplace]
      exact congrArg (Outcome.mk none [·] _) hcycle
    | ok order =>
      simp only [Outcome.bare, Option.map_some, stripSpans_graph_bare, unconnected_bare, hwarnings,
        ← List.map_append, htwice]
  · have hall : s.bare.faults = s.faults.map Located.bare := rfl
    simp only [Outcome.bare, Option.map_none, hall, hwarnings, htwice]

theorem build_bare [Arithmetic α] (catalog : Catalog) (o : Options) (program : Program) :
    (build catalog o program.bare : Outcome α).bare = (build catalog o program).bare := by
  have hstart := blind_start catalog (.empty : State α)
  have hempty : (.empty : State α).bare = .empty := rfl
  rw [hempty] at hstart
  rw [build, build]
  generalize (start catalog).run (.empty : State α) = result at hstart
  obtain ⟨fault | _, s⟩ := result
  · rfl
  · have hs : s.bare = s := (Prod.mk.inj hstart).2.symm
    have hlines := buildLines_bare catalog s program.lines
    rw [hs] at hlines
    show ((buildLines catalog s program.bare.lines).finish o).bare = _
    rw [Program.bare, hlines, State.finish_bare]

end Building

namespace Compilation
open Building
variable [Arithmetic α]

/-- What a text comes to, without places. -/
def bare (c : Compilation α) : Compilation α :=
  ⟨c.tokens.map Token.bare, c.textFaults.map Located.bare, c.meaningFaults.map Located.bare,
    c.outcome.bare⟩

omit [Arithmetic α] in
theorem diagnostics_bare (c : Compilation α) :
    c.bare.diagnostics = c.diagnostics.map Diagnostic.bare := by
  simp only [diagnostics, bare, Outcome.bare, List.map_append, List.map_map]
  rfl

/-- What a text comes to is told by its tokens without places. -/
theorem bare_ofText (catalog : Catalog) (o : Options) (source : String) :
    (ofText catalog o source : Compilation α).bare =
      let tokens := (Token.scan source).map Token.bare
      let read := Program.ofTokens tokens
      let checked := Checking.check catalog read.program
      ⟨tokens, read.faults, checked.faults,
        if read.faults.isEmpty && checked.faults.isEmpty then (build catalog o read.program).bare
        else ⟨none, [], []⟩⟩ := by
  have hread := Program.ofTokens_bare (Token.scan source)
  rw [ofText, bare]
  dsimp only
  rw [hread]
  generalize Program.ofTokens (Token.scan source) = read
  have hcheck : Checking.check catalog read.bare.program =
      (Checking.check catalog read.program).bare := Checking.check_bare catalog read.program
  have hbuild : (build catalog o read.bare.program : Outcome α).bare =
      (build catalog o read.program).bare := build_bare catalog o read.program
  have hfaults : read.bare.faults.isEmpty = read.faults.isEmpty := List.isEmpty_map
  have hfound : (Checking.check catalog read.program).bare.faults.isEmpty =
      (Checking.check catalog read.program).faults.isEmpty := List.isEmpty_map
  rw [hcheck, hbuild, hfaults, hfound, apply_ite Outcome.bare]
  rfl

/-- With places left out, graphs have none. -/
theorem stripSpans_graph? (catalog : Catalog) {o : Options} (ho : o.removeSpans = true)
    (source : String) : (ofText catalog o source : Compilation α).graph?.map Graph.stripSpans =
      (ofText catalog o source : Compilation α).graph? := by
  have hfinish : ∀ s : State α, (s.finish o).graph.map Graph.stripSpans = (s.finish o).graph := by
    intro s
    rw [State.finish]
    split
    · split
      · rfl
      · rw [State.graph, if_pos ho, Option.map_some, Graph.stripSpans_stripSpans]
    · rfl
  rw [graph?, ofText]
  dsimp only
  split
  · rw [build]
    split
    · rfl
    · exact hfinish _
  · rfl

/-- Texts that read as the same tokens have the same program but for the places in it, and compile
to the same findings, stage by stage and in the same order, each with a place or without one as
before, and to the same graph but for the places in it, or to none. Which places there are plays no
part in it, whatever classes there are and whatever the options. -/
theorem ofText_layout (catalog : Catalog) (o : Options) {source other : String}
    (h : (Token.scan source).map Token.kind = (Token.scan other).map Token.kind) :
    let a : Compilation α := ofText catalog o source
    let b : Compilation α := ofText catalog o other
    (Program.ofTokens a.tokens).program.bare = (Program.ofTokens b.tokens).program.bare ∧
    a.textFaults.map Located.bare = b.textFaults.map Located.bare ∧
    a.meaningFaults.map Located.bare = b.meaningFaults.map Located.bare ∧
    a.outcome.faults.map Located.bare = b.outcome.faults.map Located.bare ∧
    a.outcome.warnings.map Located.bare = b.outcome.warnings.map Located.bare ∧
    a.diagnostics.map Diagnostic.bare = b.diagnostics.map Diagnostic.bare ∧
    a.graph?.map Graph.stripSpans = b.graph?.map Graph.stripSpans ∧
    (o.removeSpans = true → a.graph? = b.graph?) := by
  intro a b
  have htokens : ∀ source, (Token.scan source).map Token.bare =
      ((Token.scan source).map Token.kind).map (⟨·, ⟨0, 0⟩⟩) := by
    intro source
    rw [List.map_map]
    rfl
  have hbare : a.bare = b.bare := by
    dsimp only [a, b]
    rw [bare_ofText, bare_ofText, htokens, htokens, h]
  have hgraph : a.graph?.map Graph.stripSpans = b.graph?.map Graph.stripSpans :=
    congrArg (·.outcome.graph) hbare
  have hprogram : (Program.ofTokens a.tokens).program.bare =
      (Program.ofTokens b.tokens).program.bare := by
    have hreading := congrArg (fun tokens => (Program.ofTokens tokens).program)
      (congrArg tokens hbare)
    dsimp only [bare] at hreading
    rwa [Program.ofTokens_bare, Program.ofTokens_bare] at hreading
  refine ⟨hprogram, congrArg textFaults hbare, congrArg meaningFaults hbare,
    congrArg (·.outcome.faults) hbare, congrArg (·.outcome.warnings) hbare, ?_, hgraph, ?_⟩
  · rw [← diagnostics_bare, ← diagnostics_bare, hbare]
  · intro ho
    rwa [stripSpans_graph? catalog ho, stripSpans_graph? catalog ho] at hgraph

/-- A line with a class that is not known, with nothing between its tokens that need not be there. -/
def tightText : String := "Sow s()=>output"

/-- The same tokens, with a comment, a character that is passed over, and in two lines. -/
def looseText : String := "Sow s ( ) // a saw\n  @ => output"

theorem ofText_looseText :
    (Token.scan tightText).map Token.kind = (Token.scan looseText).map Token.kind ∧
    let a : Compilation Float := ofText Library.standard.catalog .standard tightText
    let b : Compilation Float := ofText Library.standard.catalog .standard looseText
    a.meaningFaults = [⟨.undefinedClass "Sow", some ⟨0, 3⟩⟩] ∧
      a.meaningFaults.map Located.bare = b.meaningFaults.map Located.bare ∧
      a.diagnostics.map Diagnostic.bare = b.diagnostics.map Diagnostic.bare := by
  have h : (Token.scan tightText).map Token.kind = (Token.scan looseText).map Token.kind := by cbv
  have hread : Program.ofTokens (Token.scan tightText) =
      ⟨⟨[⟨.global, .chain (.construction ⟨⟨"Sow", ⟨0, 3⟩⟩, some ⟨"s", ⟨4, 5⟩⟩, [], ⟨0, 7⟩⟩) []
        (.name ⟨"output", ⟨9, 15⟩⟩) ⟨0, 15⟩⟩]⟩, []⟩ := by
    cbv
  have hcheck : (Checking.check Library.standard.catalog
      (Program.ofTokens (Token.scan tightText)).program).faults =
        [⟨.undefinedClass "Sow", some ⟨0, 3⟩⟩] := by
    rw [hread]
    rfl
  obtain ⟨_, _, hmeaning, _, _, hdiagnostics, _⟩ :=
    ofText_layout (α := Float) Library.standard.catalog .standard h
  exact ⟨h, hcheck, hmeaning, hdiagnostics⟩

end Compilation
end Patchbay
