import Patchbay.Diagnostic

/-! Programs: the lines of a patch text as trees. Every node knows the characters it was read
from. -/
namespace Patchbay

structure Ident where
  name : String
  span : Span
  deriving Repr, DecidableEq

def Ident.isDiscard (i : Ident) : Bool := i.name == "_"

inductive Sign where
  | plus
  | minus
  deriving Repr, DecidableEq

inductive BinaryOp where
  | add
  | subtract
  | multiply
  deriving Repr, DecidableEq

def BinaryOp.text : BinaryOp → String
  | add => "+"
  | subtract => "-"
  | multiply => "*"

/-- The range a mapped signal comes from: 0 to 1, or -1 to 1. -/
inductive Polarity where
  | unipolar
  | bipolar
  deriving Repr, DecidableEq

/-- The socket name in front of an argument, and the place of the whole argument. -/
structure Label where
  socket : Ident
  span : Span
  deriving Repr, DecidableEq

/-- An argument of a construction. Without a label it goes to the next socket in turn. -/
structure Arg (ε : Type) where
  label : Option Label
  value : ε

/-- A new object of a class, with a name of its own if it is to be used elsewhere. -/
structure Construction (ε : Type) where
  className : Ident
  name : Option Ident
  args : List (Arg ε)
  span : Span

inductive Expr where
  | error (span : Span)
  | number (value : Float) (unit : String) (span : Span)
  | unary (sign : Sign) (operand : Expr) (span : Span)
  | binary (op : BinaryOp) (left right : Expr) (span : Span)
  | mapping (polarity : Polarity) (source low high : Expr) (span : Span)
  | construction (c : Construction Expr)
  | socket (object socket : Ident) (span : Span)
  | output (object output : Ident) (span : Span)
  | name (ident : Ident)

def Expr.span : Expr → Span
  | error span | number _ _ span | unary _ _ span | binary _ _ _ span | mapping _ _ _ _ span
  | socket _ _ span | output _ _ span => span
  | construction c => c.span
  | name ident => ident.span

def Expr.withSpan (span : Span) : Expr → Expr
  | error _ => error span
  | number value unit _ => number value unit span
  | unary sign operand _ => unary sign operand span
  | binary op left right _ => binary op left right span
  | mapping polarity source low high _ => mapping polarity source low high span
  | construction c => construction { c with span }
  | socket object member _ => socket object member span
  | output object member _ => output object member span
  | name ident => name { ident with span }

/-- A single statement. A chain is kept from its source to its target, whichever way it was
written. -/
inductive Statement where
  | error (span : Span)
  | definition (name : Ident) (value : Expr) (span : Span)
  | construction (c : Construction Expr)
  | chain (source : Expr) (steps : List Expr) (target : Expr) (span : Span)

def Statement.span : Statement → Span
  | error span | definition _ _ span | chain _ _ _ span => span
  | construction c => c.span

/-- The two tables that names can be bound in. -/
inductive Scope where
  | global
  | voice
  deriving Repr, DecidableEq

/-- A statement and whether it stands inside the voice block. -/
structure Line where
  scope : Scope
  statement : Statement

structure Program where
  lines : List Line

/-- How a value may be connected: signals may be sent into it, read out of it, or both. -/
structure Direction where
  input : Bool
  output : Bool
  deriving Repr, DecidableEq

namespace Direction

def sink : Direction := ⟨true, false⟩
def source : Direction := ⟨false, true⟩
def both : Direction := ⟨true, true⟩

end Direction
end Patchbay
