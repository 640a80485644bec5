import Patchbay.Catalog.Basic
import Patchbay.Catalog.Builtin
import Patchbay.Program.Basic

/-! What checking a program finds out: the type of each value, the names in each scope, and the
faults in the use of names, classes and directions. -/
namespace Patchbay.Checking

/-- How a value may be connected, and its class if it is an object. -/
structure ValueType where
  direction : Direction
  className : Option String
  deriving Repr, DecidableEq

def ValueType.sink : ValueType := ⟨.sink, none⟩

def ValueType.source : ValueType := ⟨.source, none⟩

/-- The type of what is not known, so that one mistake is reported once. -/
def ValueType.unknown : ValueType := ⟨.both, none⟩

def ValueType.object (c : UnitClass) : ValueType := ⟨⟨c.takesSignal, c.givesSignal⟩, some c.name⟩

inductive Origin where
  | builtin
  | declared (span : Span)
  deriving Repr, DecidableEq

/-- A name's origin and the type of its value. -/
structure Declaration where
  origin : Origin
  type : ValueType
  deriving Repr, DecidableEq

structure Names where
  global : Table Declaration
  voice : Table Declaration

def Names.builtin : Names :=
  let input (name : String) : String × Declaration :=
    (name, ⟨.builtin, ⟨.source, some Builtin.userInput⟩⟩)
  ⟨.ofList (Builtin.globalInputs.map input ++
      [(Builtin.output, ⟨.builtin, ⟨.sink, some Builtin.stereoOutput⟩⟩)]),
    .ofList (Builtin.voiceInputs.map input)⟩

def Names.table (n : Names) : Scope → Table Declaration
  | .global => n.global
  | .voice => n.voice

/-- Look a name up as a line of the given scope sees it. In the voice block its own names come
first. -/
def Names.find? (n : Names) (scope : Scope) (name : String) : Option Declaration :=
  match scope with
  | .global => n.global.get? name
  | .voice => (n.voice.get? name).or (n.global.get? name)

def Names.put (n : Names) (scope : Scope) (name : String) (d : Declaration) : Names :=
  match scope with
  | .global => { n with global := n.global.put name d }
  | .voice => { n with voice := n.voice.put name d }

inductive Fault where
  | undefinedClass (name : String)
  | tooManyPositional (className : String) (limit count : Nat)
  | unreadableArgument (position : Nat) (className : String)
  | unreadableLabelled (socket className : String)
  | assignedTwice (socket className : String)
  | noSuchSocket (className socket : String)
  | undefinedSocket (socket className : String)
  | undefinedOutput (output className : String)
  | notAnObject (part : Part) (name : String)
  | discardRead
  | discardDefined
  | undefinedName (name : String)
  | definedTwice (name : String)
  | unreadableOperand
  | unreadableLeft (op : BinaryOp)
  | unreadableRight (op : BinaryOp)
  | unreadableMappingSource
  | unreadableMappingStart
  | unreadableMappingEnd
  | unreadableChainSource
  | unwritableChainStep
  | unreadableChainStep
  | unwritableChainTarget
  deriving Repr, DecidableEq

def Fault.message : Fault → String
  | undefinedClass name => "Undefined class: " ++ name
  | tooManyPositional className limit count =>
    "Too many positional arguments for " ++ className ++ ": expected at most " ++ toString limit ++
      ", got " ++ toString count
  | unreadableArgument position className =>
    "Argument " ++ toString position ++ " for " ++ className ++ " should be an output"
  | unreadableLabelled socket className =>
    "Keyword argument " ++ socket ++ " for " ++ className ++ " should be an output"
  | assignedTwice socket className =>
    "Socket " ++ socket ++ " for class " ++ className ++ " previously assigned"
  | noSuchSocket className socket => "Class " ++ className ++ " has no socket named " ++ socket
  | undefinedSocket socket className =>
    "Undefined socket '" ++ socket ++ "' for class '" ++ className ++ "'"
  | undefinedOutput output className =>
    "Undefined output '" ++ output ++ "' for class '" ++ className ++ "'"
  | notAnObject part name => "Only objects have " ++ part.plural ++ ": " ++ name
  | discardRead => "Identifier '_' cannot be accessed"
  | discardDefined => "Identifier '_' cannot be defined as a constant"
  | undefinedName name => "Undefined identifier: " ++ name
  | definedTwice name => "Identifier already defined in this scope: " ++ name
  | unreadableOperand => "Operand should be an output"
  | unreadableLeft op => "Left operand of '" ++ op.text ++ "' should be an output"
  | unreadableRight op => "Right operand of '" ++ op.text ++ "' should be an output"
  | unreadableMappingSource => "Mapping source should be an output"
  | unreadableMappingStart => "Mapping interval start should be an output"
  | unreadableMappingEnd => "Mapping interval end should be an output"
  | unreadableChainSource => "Chain source should be an output"
  | unwritableChainStep => "Chain mid step should be an input"
  | unreadableChainStep => "Chain mid step should be an output"
  | unwritableChainTarget => "Chain target should be an input"

def Fault.report (f : Located Fault) : Diagnostic := ⟨.meaning, f.fault.message, f.span⟩

end Patchbay.Checking
