import Patchbay.Diagnostic
import Patchbay.SortedMap

/-! Graphs of objects: which signals are summed into each socket, and in which order the objects
are computed. -/
namespace Patchbay

/-- A summand of the signal at a socket. -/
inductive Contribution (α : Type) where
  | output (object : Nat) (name : String) (span : Option Span)
  | constant (value : α) (span : Option Span)

namespace Contribution
variable {α : Type}

def object? : Contribution α → Option Nat
  | output object _ _ => some object
  | constant _ _ => none

def span : Contribution α → Option Span
  | output _ _ span | constant _ span => span

def stripSpan : Contribution α → Contribution α
  | output object name _ => output object name none
  | constant value _ => constant value none

end Contribution

/-- An object: its class, whether each voice has one of its own, and what its sockets receive. -/
structure Node (α : Type) where
  className : String
  perVoice : Bool
  mixes : SortedMap (List (Contribution α))
  span : Option Span

namespace Node
variable {α : Type}

def dependencies (n : Node α) : List Nat := n.mixes.values.flatten.filterMap Contribution.object?

def stripSpans (n : Node α) : Node α :=
  { n with mixes := n.mixes.map (·.map Contribution.stripSpan), span := none }

end Node

/-- An object under a name that the player may set. -/
structure Parameter where
  name : String
  object : Nat
  deriving Repr, DecidableEq

structure Graph (α : Type) where
  inputNames : List String
  outputNames : List String
  voiceInputNames : List String
  parameters : List Parameter
  nodes : List (Node α)
  order : List Nat

namespace Graph
variable {α : Type}

def stripSpans (g : Graph α) : Graph α := { g with nodes := g.nodes.map Node.stripSpans }

def parameter? (g : Graph α) (name : String) : Option Parameter :=
  g.parameters.find? (·.name == name)

end Patchbay.Graph
