/-! Classes of units: what can be plugged into them and read from them. -/
namespace Patchbay

/-- A socket or output with the names it answers to. The first one is its proper name. -/
structure Jack where
  names : List String
  deriving Repr, DecidableEq

/-- The proper name. A jack without names has the empty one. -/
def Jack.canonical (j : Jack) : String := j.names.head?.getD ""

def Jack.answersTo (j : Jack) (name : String) : Bool := j.names.contains name

/-- The shape of all units of one class. -/
structure UnitClass where
  name : String
  sockets : List Jack
  outputs : List Jack
  positional : List String
  group : Option String
  deriving Repr, DecidableEq

/-- The two kinds of parts that only objects have. -/
inductive Part where
  | socket
  | output
  deriving Repr, DecidableEq

def Part.plural : Part → String
  | socket => "sockets"
  | output => "outputs"

namespace UnitClass

/-- The place of a socket among the sockets, by any of its names. -/
def socketIndex? (c : UnitClass) (name : String) : Option Nat :=
  c.sockets.findIdx? (·.answersTo name)

/-- The place of an output among the outputs, by any of its names. -/
def outputIndex? (c : UnitClass) (name : String) : Option Nat :=
  c.outputs.findIdx? (·.answersTo name)

def canonicalSocket? (c : UnitClass) (name : String) : Option String :=
  (c.sockets.find? (·.answersTo name)).map Jack.canonical

def canonicalOutput? (c : UnitClass) (name : String) : Option String :=
  (c.outputs.find? (·.answersTo name)).map Jack.canonical

def hasSocket (c : UnitClass) (name : String) : Bool := c.sockets.any (·.answersTo name)

def hasOutput (c : UnitClass) (name : String) : Bool := c.outputs.any (·.answersTo name)

def positionalSocket? (c : UnitClass) (position : Nat) : Option String := c.positional[position]?

/-- Whether signals can be sent to a whole unit: into its input, or into both sides. -/
def takesSignal (c : UnitClass) : Bool :=
  c.hasSocket "input" || (c.hasSocket "left" && c.hasSocket "right")

def isStereoSource (c : UnitClass) : Bool := c.hasOutput "left" && c.hasOutput "right"

/-- Whether a whole unit can be read as a signal: its output, or both sides. -/
def givesSignal (c : UnitClass) : Bool := c.hasOutput "output" || c.isStereoSource

end Patchbay.UnitClass
