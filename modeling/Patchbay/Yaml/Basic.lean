/-! YAML documents: scalars, sequences and mappings. A node may have an anchor, and a
reference elsewhere stands for it. -/
namespace Patchbay

/-- How a scalar is written: without quotes, in quotes, or as a block of lines that are kept or
folded. -/
inductive ScalarStyle where
  | plain
  | quoted
  | literal
  | folded
  deriving Repr, DecidableEq

/-- A node of a document. Anchors are numbers. Where a value is missing there is an empty plain
scalar. -/
inductive Yaml where
  | reference (anchor : Nat)
  | scalar (anchor : Option Nat) (tag : Option String) (style : ScalarStyle) (text : String)
  | sequence (anchor : Option Nat) (items : List Yaml)
  | mapping (anchor : Option Nat) (members : List (Yaml × Yaml))
  deriving Repr, Inhabited

namespace Yaml

def missing : Yaml := scalar none none .plain ""

def anchor? : Yaml → Option Nat
  | reference _ => none
  | scalar anchor _ _ _ | sequence anchor _ | mapping anchor _ => anchor

mutual

/-- The nodes of a document in the order in which they start. -/
def nodes : Yaml → List Yaml
  | sequence anchor items => sequence anchor items :: itemNodes items
  | mapping anchor members => mapping anchor members :: memberNodes members
  | leaf => [leaf]

def itemNodes : List Yaml → List Yaml
  | [] => []
  | item :: rest => nodes item ++ itemNodes rest

def memberNodes : List (Yaml × Yaml) → List Yaml
  | [] => []
  | (key, value) :: rest => nodes key ++ nodes value ++ memberNodes rest

end

/-- The node of a document that an anchor stands at. Of several it is the last one. -/
def anchored? (document : Yaml) (anchor : Nat) : Option Yaml :=
  (document.nodes.filter (·.anchor? = some anchor)).getLast?

/-- What a node of a document stands for: another one if it is a reference, else itself. -/
def target? (document : Yaml) : Yaml → Option Yaml
  | reference anchor => document.anchored? anchor
  | node => some node

end Patchbay.Yaml
