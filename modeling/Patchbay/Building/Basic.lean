import Patchbay.Catalog.Basic
import Patchbay.Catalog.Builtin
import Patchbay.Graph.Basic
import Patchbay.Program.Basic

/-! A graph under construction: its objects so far, the values bound to names, and what went
wrong. -/
namespace Patchbay.Building

/-- An object of the graph and its class. -/
structure Ref where
  id : Nat
  cls : UnitClass
  deriving Repr, DecidableEq

/-- A single thing that a value is made of, and the place it comes from. -/
inductive Atom (α : Type) where
  | object (ref : Ref) (span : Option Span)
  | output (id : Nat) (name : String) (span : Option Span)
  /-- A socket, by its place among those of the object. It can only be sent to. -/
  | socket (id index : Nat) (span : Option Span)
  | constant (value : α) (span : Option Span)

def Atom.span : Atom α → Option Span
  | object _ span | output _ _ span | socket _ _ span | constant _ span => span

/-- The value of an expression: a sum, nothing of which is routed anywhere yet. -/
abbrev Value (α : Type) := List (Atom α)

def spanOf (v : Value α) : Option Span :=
  match v.filterMap Atom.span with
  | [] => none
  | first :: rest => some (rest.foldl Span.join first)

inductive Origin where
  | builtin
  | written
  | operator
  deriving Repr, DecidableEq

/-- An object under construction, with the summands of each socket in the order of its class. -/
structure Draft (α : Type) where
  cls : UnitClass
  perVoice : Bool
  mixes : List (List (Contribution α))
  span : Option Span
  origin : Origin

def Draft.dependencies (d : Draft α) : List Nat := d.mixes.flatten.filterMap Contribution.object?

inductive Fault where
  | malformedStatement
  | malformedExpression
  | undefinedClass (name : String)
  | undefinedName (name : String)
  | undefinedSocket (socket className : String)
  | undefinedOutput (output className : String)
  | notAnObject (part : Part) (name : String)
  | tooManyArguments (className : String)
  | noSuchSocket (className socket : String)
  | incompatible
  | voiceParameter
  | cycle
  deriving Repr, DecidableEq

def Fault.message : Fault → String
  | malformedStatement => "Malformed statement"
  | malformedExpression => "Malformed expression"
  | undefinedClass name => "Undefined class: " ++ name
  | undefinedName name => "Undefined identifier: " ++ name
  | undefinedSocket socket className =>
    "Undefined socket '" ++ socket ++ "' for class '" ++ className ++ "'"
  | undefinedOutput output className =>
    "Undefined output '" ++ output ++ "' for class '" ++ className ++ "'"
  | notAnObject part name => "Only objects have " ++ part.plural ++ ": " ++ name
  | tooManyArguments className => "Too many arguments for " ++ className
  | noSuchSocket className socket => "Class " ++ className ++ " has no socket named " ++ socket
  | incompatible => "Incompatible connection in chain"
  | voiceParameter => "Voice-level custom inputs are not supported"
  | cycle => "Cyclic dependency detected"

def Fault.report (f : Located Fault) : Diagnostic := ⟨.interpretation, f.fault.message, f.span⟩

inductive Warning where
  | unknownUnit (unit : String)
  | unconnected
  deriving Repr, DecidableEq

def Warning.message : Warning → String
  | unknownUnit unit => "Unknown unit '" ++ unit ++ "', value used unconverted"
  | unconnected => "Unconnected object will not be processed"

def Warning.report (w : Located Warning) : Diagnostic := ⟨.warning, w.fault.message, w.span⟩

structure State (α : Type) where
  objects : List (Draft α)
  global : Table (Value α)
  voice : Table (Value α)
  parameters : List Parameter
  faults : List (Located Fault)
  warnings : List (Located Warning)

namespace State
variable {α : Type}

def empty : State α := ⟨[], .empty, .empty, [], [], []⟩

/-- Look a name up as a line of the given scope sees it. In the voice block its own names come
first. -/
def find? (s : State α) (scope : Scope) (name : String) : Option (Value α) :=
  match scope with
  | .global => s.global.get? name
  | .voice => (s.voice.get? name).or (s.global.get? name)

def bind (s : State α) (scope : Scope) (name : String) (value : Value α) : State α :=
  match scope with
  | .global => { s with global := s.global.put name value }
  | .voice => { s with voice := s.voice.put name value }

def mix (s : State α) (id socket : Nat) (more : List (Contribution α)) : State α :=
  { s with objects := s.objects.modify id fun d =>
      { d with mixes := d.mixes.modify socket (· ++ more) } }

end Patchbay.Building.State
