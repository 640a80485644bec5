import Patchbay.Arithmetic
import Patchbay.Catalog.Builtin
import Patchbay.Engine.Extent
import Patchbay.Graph.Basic
import Patchbay.Library.Basic

/-! Wiring: the objects of a graph as instances that read and write numbered slots. An object that
belongs to each voice has an instance for each. The outputs of all instances come first among the
slots, the constants behind them. -/
namespace Patchbay

inductive Engine.Fault where
  | unknownClass (name : String)
  | missingBuiltin (object : Nat) (className : String)
  | tooManySockets (className : String) (count : Nat)
  | objectOutOfRange (object : Nat)
  | unknownOutput (className output : String)
  | noVoices
  deriving Repr, DecidableEq

def Engine.socketLimit : Nat := 16

def Engine.Fault.message : Engine.Fault → String
  | unknownClass name => "unknown unit class: " ++ name
  | missingBuiltin object className =>
    "object " ++ toString object ++ " should be a built-in " ++ className
  | tooManySockets className count =>
    "class " ++ className ++ " has " ++ toString count ++ " sockets, at most " ++
      toString socketLimit ++ " are supported"
  | objectOutOfRange object => "object index " ++ toString object ++ " out of range"
  | unknownOutput className output => "class " ++ className ++ " has no output named " ++ output
  | noVoices => "at least one voice is required"

namespace Wiring
open Engine (Fault)

/-- The instances of one object or of one voice that note events set. -/
structure NoteInputs where
  trigger : Nat
  gate : Nat
  pitch : Nat
  velocity : Nat
  deriving Repr, DecidableEq

structure Slot where
  name : String
  instances : Extent
  deriving Repr, DecidableEq

def classesOf (catalog : Catalog) (nodes : List (Node α)) : Except Fault (List UnitClass) :=
  nodes.mapM fun n =>
    match catalog.resolve? n.className with
    | none => .error (.unknownClass n.className)
    | some c =>
      if Engine.socketLimit < c.sockets.length then
        .error (.tooManySockets c.name c.sockets.length)
      else .ok c

/-- An object that has to be there: its class, and whether it belongs to each voice. -/
structure Demand where
  object : Nat
  className : String
  perVoice : Bool

def demands : List Demand :=
  (List.range Builtin.globalInputs.length).map (⟨·, Builtin.userInput, false⟩) ++
    [⟨Builtin.outputObject, Builtin.stereoOutput, false⟩] ++
    (List.range Builtin.voiceInputs.length).map fun i =>
      ⟨Builtin.firstVoiceInput + i, Builtin.userInput, true⟩

/-- Whether an object is what it has to be. The final signal needs both its sides. -/
def Demand.isMet (d : Demand) (c : UnitClass) (perVoice : Bool) : Bool :=
  c.name == d.className && perVoice == d.perVoice &&
    (d.object != Builtin.outputObject || (c.hasSocket "left" && c.hasSocket "right"))

/-- Fail at the first object that is not what it has to be. -/
def checkBuiltins (objects : List (Node α × UnitClass)) : Except Fault Unit :=
  if objects.length < Builtin.objectCount then
    .error (.missingBuiltin objects.length Builtin.userInput)
  else
    demands.forM fun d =>
      match objects[d.object]? with
      | some (n, c) =>
        if d.isMet c n.perVoice then .ok () else .error (.missingBuiltin d.object d.className)
      | none => .error (.missingBuiltin d.object d.className)

/-- What a socket reads: a slot of an output, or a constant that has no slot yet. -/
inductive Feed (α : Type) where
  | slot (i : Nat)
  | constant (value : α)

/-- An object with its class and its instances. -/
structure Placed (α : Type) where
  node : Node α
  cls : UnitClass
  instances : Extent

/-- The instance of an object that belongs to a voice, or the only one. -/
def Placed.forVoice (p : Placed α) (voice : Nat) : Nat :=
  p.instances.start + if p.node.perVoice then voice else 0

/-- What a contribution to the given voice of an object is read from. An object shared by all
voices reads an object of each voice in all of them. -/
def feedsOf (placed : Array (Placed α)) (outputs : Array Extent) (reader : Placed α) (voice : Nat) :
    Contribution α → Except Fault (List (Feed α))
  | .constant value _ => .ok [.constant value]
  | .output object name _ =>
    match placed[object]? with
    | none => .error (.objectOutOfRange object)
    | some producer =>
      match producer.cls.outputIndex? name with
      | none => .error (.unknownOutput producer.cls.name name)
      | some place =>
        let slot (id : Nat) : Feed α := .slot ((outputs.getD id ⟨0, 0⟩).start + place)
        if producer.node.perVoice && !reader.node.perVoice then
          .ok (producer.instances.toList.map slot)
        else .ok [slot (producer.forVoice voice)]

def instanceFeeds (placed : Array (Placed α)) (outputs : Array Extent) (reader : Placed α)
    (voice : Nat) : Except Fault (List (List (Feed α))) :=
  reader.cls.sockets.mapM fun socket => do
    let mix := (reader.node.mixes.get? socket.canonical).getD []
    return (← mix.mapM (feedsOf placed outputs reader voice)).flatten

/-- Give each constant a slot of its own, from the given one on. -/
def number (next : Nat) : List (Feed α) → List Nat
  | [] => []
  | .slot i :: rest => i :: number next rest
  | .constant _ :: rest => next :: number (next + 1) rest

def constantsOf (feeds : List (Feed α)) : List α :=
  feeds.filterMap fun
    | .slot _ => none
    | .constant value => some value

end Wiring

structure Wiring (α : Type) where
  blocks : List Extent
  outputs : Array Extent
  sockets : Array Extent
  socketArgs : Array Extent
  args : Array Nat
  initial : Array α
  order : List Nat
  /-- The instance that takes the final signal, and the places of its two sockets. -/
  output : Nat
  left : Nat
  right : Nat
  globalInputs : Wiring.NoteInputs
  voiceInputs : List Wiring.NoteInputs
  parameters : List Wiring.Slot

namespace Wiring
open Engine (Fault)

/-- The note inputs among the objects from the given one on, for one voice. -/
def noteInputs (placed : Array (Placed α)) (first voice : Nat) : NoteInputs :=
  let input (i : Nat) : Nat := (placed[first + i]?.map (·.forVoice voice)).getD 0
  ⟨input 0, input 1, input 2, input 3⟩

def place (voices : Nat) (objects : List (Node α × UnitClass)) : List (Placed α) :=
  let sizes := objects.map fun o => if o.1.perVoice then voices else 1
  List.zipWith (fun o e => ⟨o.1, o.2, e⟩) objects (Extent.tile 0 sizes)

/-- The instances of an object that a graph names, if there is such an object. -/
def instancesOf (placed : Array (Placed α)) (object : Nat) : Except Fault Extent :=
  match placed[object]? with
  | some p => .ok p.instances
  | none => .error (.objectOutOfRange object)

def ofGraph [Arithmetic α] (voices : Nat) (graph : Graph α) (placed : List (Placed α)) :
    Except Fault (Wiring α) := do
  let table := placed.toArray
  let readers := placed.flatMap fun p => (List.range p.instances.size).map (p, ·)
  let outputs := (Extent.tile 0 (readers.map (·.1.cls.outputs.length))).toArray
  let feeds ← readers.mapM fun (p, voice) => instanceFeeds table outputs p voice
  let order ← graph.order.mapM (instancesOf table)
  let parameters ← graph.parameters.mapM fun p => do
    return (⟨p.name, ← instancesOf table p.object⟩ : Slot)
  let firstConstant := readers.foldl (fun n r => n + r.1.cls.outputs.length) 0
  let perSocket := feeds.flatten
  let output := placed[Builtin.outputObject]?
  let side (name : String) : Nat := ((output.bind (·.cls.socketIndex? name))).getD 0
  return {
    blocks := placed.map (·.instances)
    outputs
    sockets := (Extent.tile 0 (feeds.map List.length)).toArray
    socketArgs := (Extent.tile 0 (perSocket.map List.length)).toArray
    args := (number firstConstant perSocket.flatten).toArray
    initial := (List.replicate firstConstant (Arithmetic.natural 0) ++
      constantsOf perSocket.flatten).toArray
    order := order.flatMap Extent.toList
    output := (output.map (·.instances.start)).getD 0
    left := side "left"
    right := side "right"
    globalInputs := noteInputs table 0 0
    voiceInputs := (List.range voices).map (noteInputs table Builtin.firstVoiceInput)
    parameters }

end Patchbay.Wiring
