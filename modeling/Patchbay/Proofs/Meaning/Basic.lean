import Mathlib.Algebra.Field.Defs
import Patchbay.Catalog.Basic
import Patchbay.Catalog.Builtin
import Patchbay.Program.Basic
import Patchbay.Quantity

/-! What a program says, without a graph: expressions are arithmetic on the signals of the objects
that the text constructs, and every argument and every link of a chain sends one to a socket. -/
namespace Patchbay

/-- Arithmetic without rounding. -/
class ExactArithmetic (α : Type) extends Field α, Arithmetic α where
  natural_eq (n : Nat) : natural n = (n : α)

theorem Arithmetic.natural_cast {α : Type} [ExactArithmetic α] (n : Nat) :
    (Arithmetic.natural n : α) = n := ExactArithmetic.natural_eq n

namespace Meaning
variable {α : Type}

/-- Numbers at the outputs of the objects, which are numbered as they come in. -/
abbrev Signals (α : Type) := Nat → String → α

/-- What an expression means: an object, a socket of one, or a number for given signals. -/
inductive Sense (α : Type) where
  | object (id : Nat) (cls : UnitClass)
  | socket (id index : Nat)
  | signal (f : Signals α → α)

/-- A signal sent to a socket. -/
structure Route (α : Type) where
  object : Nat
  socket : Nat
  signal : Signals α → α

/-- All that is said up to some place: the objects, what names mean, and what is sent where. -/
structure Story (α : Type) where
  objects : List UnitClass
  global : Table (Sense α)
  voice : Table (Sense α)
  routes : List (Route α)

namespace Story

def find? (t : Story α) (scope : Scope) (name : String) : Option (Sense α) :=
  match scope with
  | .global => t.global.get? name
  | .voice => (t.voice.get? name).or (t.global.get? name)

def bind (t : Story α) (scope : Scope) (name : String) (sense : Sense α) : Story α :=
  match scope with
  | .global => { t with global := t.global.put name sense }
  | .voice => { t with voice := t.voice.put name sense }

def add (t : Story α) (cls : UnitClass) : Story α := { t with objects := t.objects ++ [cls] }

def send (t : Story α) (object socket : Nat) (signal : Signals α → α) : Story α :=
  { t with routes := t.routes ++ [⟨object, socket, signal⟩] }

/-- The sum of all that is sent to a socket. -/
def received [AddMonoid α] (t : Story α) (object socket : Nat) (ρ : Signals α) : α :=
  ((t.routes.filter fun r => r.object = object ∧ r.socket = socket).map (·.signal ρ)).sum

end Story

/-- A part of the reading of a program, which fails where the program makes no sense. -/
abbrev Telling (α : Type) := StateT (Story α) Option

/-- The signal of a whole object is its output, or the sum of both sides if it has none. -/
def Sense.signal? [Add α] : Sense α → Option (Signals α → α)
  | .object id cls =>
    match cls.canonicalOutput? "output" with
    | some name => some fun ρ => ρ id name
    | none => if cls.isStereoSource then some fun ρ => ρ id "left" + ρ id "right" else none
  | .socket _ _ => none
  | .signal f => some f

def find (scope : Scope) (name : String) : Telling α (Sense α) := do
  (← get).find? scope name

def findObject (scope : Scope) (name : String) : Telling α (Nat × UnitClass) := do
  match ← find scope name with
  | .object id cls => return (id, cls)
  | _ => failure

/-- The number of a new object. -/
def newObject (cls : UnitClass) : Telling α Nat :=
  modifyGet fun t => (t.objects.length, t.add cls)

def send (object socket : Nat) (signal : Signals α → α) : Telling α Unit :=
  modify (·.send object socket signal)

/-- Give a name a meaning. The name `_` has none. -/
def define (scope : Scope) (name : Ident) (sense : Sense α) : Telling α Unit :=
  if name.isDiscard then pure () else modify (·.bind scope name.name sense)

/-- A whole stereo object goes side by side into two sides, all else goes into both. -/
def connectSides [Add α] (source : Sense α) (id left right : Nat) : Telling α Unit :=
  match source with
  | .object other stereo =>
    if stereo.isStereoSource then do
      send id left fun ρ => ρ other "left"
      send id right fun ρ => ρ other "right"
    else do
      let signal ← source.signal?
      send id left signal
      send id right signal
  | _ => do
    let signal ← source.signal?
    send id left signal
    send id right signal

/-- A link of a chain into the next: into the input of an object, else into both its sides, or into
a socket. -/
def connect [Add α] (source : Sense α) : Sense α → Telling α Unit
  | .object id cls =>
    match cls.socketIndex? "input", cls.socketIndex? "left", cls.socketIndex? "right" with
    | some input, _, _ => do send id input (← source.signal?)
    | none, some left, some right => connectSides source id left right
    | _, _, _ => failure
  | .socket id index => do send id index (← source.signal?)
  | .signal _ => failure

variable [ExactArithmetic α]

/-- A written number on the scale of signals. With an unknown unit it is taken as it stands. -/
def number (value : Float) (unit : String) : α :=
  (Quantity.ofLiteral? (Arithmetic.ofFloat value) unit).getD (Arithmetic.ofFloat value)

def combine (op : BinaryOp) (x y : α) : α :=
  match op with
  | .add => x + y
  | .subtract => x - y
  | .multiply => x * y

/-- A signal moved from its range to the interval between two others. -/
def rescale (polarity : Polarity) (source low high : α) : α :=
  match polarity with
  | .unipolar => source * (high - low) + low
  | .bipolar => (source + 1) / 2 * (high - low) + low

mutual

/-- What an expression means. -/
def evalExpr (catalog : Catalog) (scope : Scope) (e : Expr) : Telling α (Sense α) := do
  match e with
  | .error _ => failure
  | .number value unit _ => return .signal fun _ => number value unit
  | .unary sign operand _ =>
    let sense ← evalExpr catalog scope operand
    match sign with
    | .plus => return sense
    | .minus =>
      let x ← sense.signal?
      return .signal fun ρ => -x ρ
  | .binary op left right _ =>
    let x ← (← evalExpr catalog scope left).signal?
    let y ← (← evalExpr catalog scope right).signal?
    return .signal fun ρ => combine op (x ρ) (y ρ)
  | .mapping polarity source low high _ =>
    let x ← (← evalExpr catalog scope source).signal?
    let y ← (← evalExpr catalog scope low).signal?
    let z ← (← evalExpr catalog scope high).signal?
    return .signal fun ρ => rescale polarity (x ρ) (y ρ) (z ρ)
  | .construction c => evalConstruction catalog scope c
  | .socket object socket _ =>
    let (id, cls) ← findObject scope object.name
    return .socket id (← cls.socketIndex? socket.name)
  | .output object output _ =>
    let (id, cls) ← findObject scope object.name
    let name ← cls.canonicalOutput? output.name
    return .signal fun ρ => ρ id name
  | .name ident => find scope ident.name
termination_by structural e

/-- A new object. Its name has a meaning once its arguments are read. -/
def evalConstruction (catalog : Catalog) (scope : Scope) (c : Construction Expr) :
    Telling α (Sense α) := do
  match c with
  | ⟨className, name, args, _⟩ =>
    let cls ← catalog.resolve? className.name
    let id ← newObject cls
    evalArgs catalog scope id cls 0 args
    match name with
    | none => return .object id cls
    | some name =>
      define scope name (.object id cls)
      return .object id cls
termination_by structural c

/-- Arguments go to the sockets of their labels, or else to the positional sockets in turn. -/
def evalArgs (catalog : Catalog) (scope : Scope) (id : Nat) (cls : UnitClass) (position : Nat)
    (args : List (Arg Expr)) : Telling α Unit := do
  match args with
  | [] => return ()
  | ⟨none, value⟩ :: rest =>
    let socket ← (cls.positionalSocket? position).bind cls.socketIndex?
    send id socket (← (← evalExpr catalog scope value).signal?)
    evalArgs catalog scope id cls (position + 1) rest
  | ⟨some label, value⟩ :: rest =>
    let socket ← cls.socketIndex? label.socket.name
    send id socket (← (← evalExpr catalog scope value).signal?)
    evalArgs catalog scope id cls position rest
termination_by structural args

end

def evalLinks (catalog : Catalog) (scope : Scope) (previous : Sense α) :
    List Expr → Telling α Unit
  | [] => return ()
  | link :: rest => do
    let next ← evalExpr catalog scope link
    connect previous next
    evalLinks catalog scope next rest

def evalStatement (catalog : Catalog) (scope : Scope) : Statement → Telling α Unit
  | .error _ => failure
  | .definition name value _ => do
    define scope name (← evalExpr catalog scope value)
  | .construction c => do
    let _ ← evalConstruction catalog scope c
  | .chain source steps target _ => do
    let first ← evalExpr catalog scope source
    evalLinks catalog scope first (steps ++ [target])

def evalLines (catalog : Catalog) : List Line → Telling α Unit
  | [] => return ()
  | line :: rest => do
    evalStatement catalog line.scope line.statement
    evalLines catalog rest

/-- An object that every patch starts with, under its name. -/
def Story.withBuiltin (cls : UnitClass) (scope : Scope) (t : Story α) (name : String) : Story α :=
  (t.add cls).bind scope name (.object t.objects.length cls)

/-- The story before the first line: the note inputs and the final signal. -/
def start (input output : UnitClass) : Story α :=
  let t := Builtin.globalInputs.foldl (Story.withBuiltin input .global) ⟨[], .empty, .empty, []⟩
  Builtin.voiceInputs.foldl (Story.withBuiltin input .voice)
    (t.withBuiltin output .global Builtin.output)

end Meaning
end Patchbay
