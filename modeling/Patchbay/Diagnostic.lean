/-! Places in a patch text and the findings reported about them. -/
namespace Patchbay

/-- A range of character offsets, from `start` up to but not including `stop`. -/
structure Span where
  start : Nat
  stop : Nat
  deriving Repr, DecidableEq

def Span.join (a b : Span) : Span := ⟨min a.start b.start, max a.stop b.stop⟩

/-- A fault and the place it concerns, if it has one. -/
structure Located (ε : Type) where
  fault : ε
  span : Option Span
  deriving Repr, DecidableEq

/-- Which part of the work reported a finding. -/
inductive Diagnostic.Kind where
  | text
  | meaning
  | interpretation
  | warning
  deriving Repr, DecidableEq

def Diagnostic.Kind.label : Diagnostic.Kind → String
  | text => "Syntax error"
  | meaning => "Semantic error"
  | interpretation => "Interpretation error"
  | warning => "Warning"

/-- A finding as it is shown to the user. It has no span when it concerns the end of the text or
no place at all. -/
structure Diagnostic where
  kind : Diagnostic.Kind
  message : String
  span : Option Span
  deriving Repr, DecidableEq

/-- The line and column of a character offset, both counted from one. Offsets past the end stand
for the place just after the last character. -/
def lineColumn (source : String) (offset : Nat) : Nat × Nat :=
  (source.toList.take offset).foldl
    (fun p c => if c = '\n' then (p.1 + 1, 1) else (p.1, p.2 + 1)) (1, 1)

namespace Diagnostic

def lineColumn? (d : Diagnostic) (source : String) : Option (Nat × Nat) :=
  d.span.map fun s => lineColumn source s.start

/-- The finding with its line and column in the text it was made from. -/
def render (d : Diagnostic) (source : String) : String :=
  match d.lineColumn? source with
  | some (line, column) =>
    d.kind.label ++ " at line " ++ toString line ++ ", col " ++ toString column ++ ": " ++ d.message
  | none => d.kind.label ++ " at end of input: " ++ d.message

def summary (d : Diagnostic) : String :=
  match d.span with
  | some s =>
    "[" ++ toString s.start ++ ".." ++ toString s.stop ++ "] " ++ d.kind.label ++ ": " ++ d.message
  | none => "[eof] " ++ d.kind.label ++ ": " ++ d.message

end Patchbay.Diagnostic
