import Patchbay.Building.Run
import Patchbay.Graph.Schedule

/-! From the built objects to a finished graph. -/
namespace Patchbay.Building

structure Options where
  removeSpans : Bool
  /-- Name each socket once. Otherwise it is there under all its names. -/
  removeAliases : Bool
  deriving Repr, DecidableEq

def Options.standard : Options := ⟨true, true⟩

variable {α : Type}

def Options.namesOf (o : Options) (socket : Jack) : List String :=
  if o.removeAliases then [socket.canonical] else socket.names

def Draft.node (o : Options) (d : Draft α) : Node α where
  className := d.cls.name
  perVoice := d.perVoice
  mixes := .ofList ((d.cls.sockets.zip d.mixes).flatMap fun (socket, mix) =>
    (o.namesOf socket).map (·, mix))
  span := d.span

def State.graph (s : State α) (o : Options) (order : List Nat) : Graph α :=
  let graph : Graph α := {
    inputNames := Builtin.globalInputs
    outputNames := [Builtin.output]
    voiceInputNames := Builtin.voiceInputs
    parameters := s.parameters
    nodes := s.objects.map (Draft.node o)
    order }
  if o.removeSpans then graph.stripSpans else graph

def State.unconnected (s : State α) (order : List Nat) : List (Located Warning) :=
  (s.objects.zipIdx.drop Builtin.objectCount).filterMap fun (d, id) =>
    if order.contains id then none else some ⟨.unconnected, d.span⟩

/-- A graph, if one could be built, and what there is to say about it. -/
structure Outcome (α : Type) where
  graph : Option (Graph α)
  faults : List (Located Fault)
  warnings : List (Located Warning)

/-- Finish the graph. Any fault stands in the way, and so does an object that reads itself. -/
def State.finish (s : State α) (o : Options) : Outcome α :=
  if s.faults.isEmpty then
    match Graph.schedule (s.objects.map Draft.dependencies) Builtin.outputObject with
    | .error cycle =>
      ⟨none, [⟨.cycle, s.objects[cycle.object]?.bind Draft.span⟩], s.warnings⟩
    | .ok order => ⟨some (s.graph o order), [], s.warnings ++ s.unconnected order⟩
  else ⟨none, s.faults, s.warnings⟩

/-- The graph that a program describes. Without the built-in classes no line is looked at. -/
def build [Arithmetic α] (catalog : Catalog) (o : Options) (program : Program) : Outcome α :=
  match (start catalog).run .empty with
  | (.error fault, _) => ⟨none, [fault], []⟩
  | (.ok _, s) => (buildLines catalog s program.lines).finish o

end Patchbay.Building
