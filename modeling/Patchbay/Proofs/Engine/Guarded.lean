import Patchbay.Proofs.Engine.Reference

/-! Engines with nothing to fall back on. Whatever an engine looks up by its number is looked up
here as well, and where one of these places is missing there is no answer at all. -/
namespace Patchbay
open Arithmetic

namespace Extent
variable {β : Type}

/-- All places of an extent are among the first ones, that many. -/
def Within (e : Extent) (size : Nat) : Prop := e.start ≤ e.stop ∧ e.stop ≤ size

instance (e : Extent) (size : Nat) : Decidable (e.Within size) :=
  inferInstanceAs (Decidable (_ ∧ _))

/-- What an extent has, if it lies within what there is. -/
def slice? (e : Extent) (items : Array β) : Option (List β) :=
  if e.Within items.size then e.toList.mapM fun i => items[i]? else none

end Extent

namespace SoundUnit
variable {α : Type} [Arithmetic α]

/-- The unit after a sample and its signals, if the sockets that it reads are there. A junction
reads as many as it has room for at its outputs. -/
def sample? (u : SoundUnit α) (inputs : List α) (room : Nat) : Option (SoundUnit α × List α) :=
  match u with
  | control value => some (control value, [value])
  | sink => some (sink, [])
  | inverter => do return (inverter, [-(← inputs[0]?)])
  | attenuator => do return (attenuator, [(← inputs[1]?) * (← inputs[0]?)])
  | mapping polarity => do
    return (mapping polarity, [rescale polarity (← inputs[0]?) (← inputs[1]?) (← inputs[2]?)])
  | passThrough => if room ≤ inputs.length then some (passThrough, inputs.take room) else none
  | oscillator o => do
    let (o, value) := o.step (← inputs[0]?)
    return (oscillator o, [value])
  | noise n =>
    let (n, x) := n.next
    some (noise n, [Noise.sample x])
  | lowPass12 f => do
    let f := f.step (← inputs[0]?) (← inputs[1]?) (← inputs[2]?)
    return (lowPass12 f, [f.second])
  | lowPass24 f => do
    let f := f.step (← inputs[0]?) (← inputs[1]?) (← inputs[2]?)
    return (lowPass24 f, [f.fourth])
  | envelope sampleRate e => do
    let e := e.step (envelopeInput sampleRate (← inputs[0]?) (← inputs[1]?) (← inputs[2]?)
      (← inputs[3]?) (← inputs[4]?) (← inputs[5]?))
    return (envelope sampleRate e, [e.level])
  | delay sampleRate tape => do
    let input ← inputs[0]?
    let delayed := tape.read (delaySamples sampleRate (← inputs[1]?))
    return (delay sampleRate (tape.write (input + delayed * (← inputs[2]?))), [input + delayed])
  | pingPong sampleRate left right => do
    let samples := delaySamples sampleRate (← inputs[1]?)
    let fromLeft := left.read samples
    let fromRight ← right.samples[left.place samples]?
    let feedback ← inputs[2]?
    return (pingPong sampleRate (left.write ((← inputs[0]?) + fromRight * feedback))
      (right.write (fromLeft * feedback)), [fromLeft, fromRight])
  | drive => do return (drive, [tanh ((← inputs[1]?) * (← inputs[0]?))])

/-- The same, if its outputs have room for all signals as well. -/
def process? (u : SoundUnit α) (inputs : List α) (room : Nat) :
    Option (SoundUnit α × List α) := do
  let (unit, signals) ← u.sample? inputs room
  if signals.length ≤ room then some (unit, signals) else none

end SoundUnit

namespace Voices

/-- Start a note on a voice that is there. The table has a place for it, and for the note that it
takes the voice from. -/
def assign? (v : Voices) (note : Nat) : Option (Voices × Nat) := do
  let note := min note highestNote
  match ← v.holders[note]? with
  | some place => if place < v.voices.length then some (v.play place note, place) else none
  | none =>
    let place ← longestIdle v.voices
    let voice ← v.voices[place.val]?
    if voice.note.all (· ≤ highestNote) then some ((v.hand place note).play place note, place)
    else none

/-- Stop a note on a voice that is there. -/
def release? (v : Voices) (note : Nat) : Option (Voices × Option Nat) := do
  match ← v.holders[min note highestNote]? with
  | none => some (v, none)
  | some place =>
    let voice ← v.voices[place]?
    return if voice.active then (v.stop place, some place) else (v, none)

end Voices

namespace Engine
open Reference
variable {α : Type} [Arithmetic α]

def setUnit? (e : Engine α) (id : Nat) (value : α) : Option (Engine α) :=
  if id < e.units.size then some (e.setUnit id value) else none

def setAll? (e : Engine α) (ids : List Nat) (value : α) : Option (Engine α) :=
  ids.foldlM (fun e id => e.setUnit? id value) e

/-- Set the first parameter of a name. An unknown one is left alone. -/
def setParameter? (e : Engine α) (name : String) (value : α) : Option (Engine α) :=
  match e.wiring.parameters.find? (·.name == name) with
  | none => some e
  | some slot => e.setAll? slot.instances.toList (clamp (natural 0) (natural 1) value)

def startNote? (e : Engine α) (pitch velocity : α) (inputs : Wiring.NoteInputs) :
    Option (Engine α) := do
  let e ← e.setUnit? inputs.gate (natural 1)
  let e ← e.setUnit? inputs.pitch pitch
  let e ← e.setUnit? inputs.velocity velocity
  let e ← e.setUnit? inputs.trigger (natural 1)
  return if e.latched.contains inputs.trigger then e
    else { e with latched := e.latched ++ [inputs.trigger] }

def noteOn? (e : Engine α) (note : Nat) (velocity : α) : Option (Engine α) :=
  if highestNote < note then some e
  else do
    let (voices, voice) ← e.voices.assign? note
    let inputs ← e.wiring.voiceInputs[voice]?
    let velocity := clamp (natural 0) (natural 1) velocity
    let e ← { e with voices }.startNote? (Quantity.keyPitch note) velocity e.wiring.globalInputs
    e.startNote? (Quantity.keyPitch note) velocity inputs

def noteOff? (e : Engine α) (note : Nat) : Option (Engine α) := do
  match ← e.voices.release? note with
  | (_, none) => some e
  | (voices, some voice) =>
    let inputs ← e.wiring.voiceInputs[voice]?
    let e ← { e with voices }.setUnit? inputs.gate (natural 0)
    if voices.anyActive then some e else e.setUnit? e.wiring.globalInputs.gate (natural 0)

def releaseAll? (e : Engine α) : Option (Engine α) :=
  let gates := e.wiring.voiceInputs.map (·.gate) ++ [e.wiring.globalInputs.gate]
  { e with voices := e.voices.releaseAll }.setAll? gates (natural 0)

/-- The sum of the slots that a socket reads. -/
def socketSum? (w : Wiring α) (values : Array α) (args : Extent) : Option α := do
  let signals ← (← args.slice? w.args).mapM fun slot => values[slot]?
  return signals.foldl (· + ·) (natural 0)

/-- The signals at the sockets of an instance. There is room for no more than so many. -/
def inputsOf? (w : Wiring α) (values : Array α) (id : Nat) : Option (List α) := do
  let inputs ← (← (← w.sockets[id]?).slice? w.socketArgs).mapM (socketSum? w values)
  if inputs.length ≤ socketLimit then some inputs else none

/-- The final signal, if its two sockets are there. Other instances leave the frame alone. -/
def frameOf? (w : Wiring α) (inputs : List α) (frame : α × α) (id : Nat) : Option (α × α) :=
  if id = w.output then do return (← inputs[w.left]?, ← inputs[w.right]?) else some frame

def computeInstance? (e : Engine α) (frame : α × α) (id : Nat) :
    Option (Engine α × (α × α)) := do
  let unit ← e.units[id]?
  let inputs ← inputsOf? e.wiring e.values id
  let frame ← frameOf? e.wiring inputs frame id
  let slots ← e.wiring.outputs[id]?
  let (unit, signals) ← unit.process? inputs slots.size
  if slots.Within e.values.size then
    some ({ e with
      units := e.units.setIfInBounds id unit
      values := store e.values slots signals }, frame)
  else none

def computeAll? (e : Engine α) (frame : α × α) : List Nat → Option (Engine α × (α × α))
  | [] => some (e, frame)
  | id :: rest => do
    let (e, frame) ← e.computeInstance? frame id
    e.computeAll? frame rest

def tick? (e : Engine α) : Option (Engine α × (α × α)) := do
  let (e, frame) ← e.computeAll? (natural 0, natural 0) e.wiring.order
  let e ← e.setAll? e.latched (natural 0)
  return ({ e with latched := [] }, frame)

def generateOnto? (frames : List (α × α)) (e : Engine α) :
    Nat → Option (Engine α × List (α × α))
  | 0 => some (e, frames)
  | n + 1 => do
    let (e, frame) ← e.tick?
    e.generateOnto? (frame :: frames) n

def generate? (e : Engine α) (count : Nat) : Option (Engine α × List (α × α)) := do
  let (e, frames) ← e.generateOnto? [] count
  return (e, frames.reverse)

/-- The engine behind a call and the frames it gave, if all places that it looks up are there. -/
def call? (e : Engine α) : Call α → Option (Engine α × List (α × α))
  | .noteOn note velocity => (e.noteOn? note velocity).map (·, [])
  | .noteOff note => (e.noteOff? note).map (·, [])
  | .releaseAll => e.releaseAll?.map (·, [])
  | .setParameter name value => (e.setParameter? name value).map (·, [])
  | .generate count => e.generate? count

def run? (e : Engine α) : List (Call α) → Option (Engine α × List (α × α))
  | [] => some (e, [])
  | c :: rest => do
    let (e, frames) ← e.call? c
    let (e, more) ← e.run? rest
    return (e, frames ++ more)

end Engine

namespace Wiring
open Engine (Fault)
variable {α : Type}

/-- What may fail with a fault, and gives no answer where a place is missing. -/
abbrev Guarded (β : Type) : Type := ExceptT Fault Option β

/-- What may fail, but looks nothing up by its number. -/
def Guarded.ofExcept {β : Type} (x : Except Fault β) : Guarded β := ExceptT.mk (some x)

/-- What is at a place, if it is there. -/
def Guarded.lookUp {β : Type} (x : Option β) : Guarded β := ExceptT.lift x

def checkBuiltins? (objects : List (Node α × UnitClass)) : Guarded Unit :=
  if objects.length < Builtin.objectCount then
    throw (.missingBuiltin objects.length Builtin.userInput)
  else
    demands.forM fun d => do
      let (n, c) ← .lookUp objects[d.object]?
      if d.isMet c n.perVoice then return () else throw (.missingBuiltin d.object d.className)

def feedsOf? (placed : Array (Placed α)) (outputs : Array Extent) (reader : Placed α)
    (voice : Nat) : Contribution α → Guarded (List (Feed α))
  | .constant value _ => return [.constant value]
  | .output object name _ =>
    match placed[object]? with
    | none => throw (.objectOutOfRange object)
    | some producer =>
      match producer.cls.outputIndex? name with
      | none => throw (.unknownOutput producer.cls.name name)
      | some place =>
        let ids := if producer.node.perVoice && !reader.node.perVoice then
          producer.instances.toList else [producer.forVoice voice]
        ids.mapM fun id => do return .slot ((← .lookUp outputs[id]?).start + place)

def instanceFeeds? (placed : Array (Placed α)) (outputs : Array Extent) (reader : Placed α)
    (voice : Nat) : Guarded (List (List (Feed α))) :=
  reader.cls.sockets.mapM fun socket => do
    let mix := (reader.node.mixes.get? socket.canonical).getD []
    return (← mix.mapM (feedsOf? placed outputs reader voice)).flatten

def noteInputs? (placed : Array (Placed α)) (first voice : Nat) : Option NoteInputs := do
  let input (i : Nat) : Option Nat := placed[first + i]?.map (·.forVoice voice)
  return ⟨← input 0, ← input 1, ← input 2, ← input 3⟩

/-- Wire a graph whose objects have the given classes, if all places that it looks up are there. -/
def ofGraph? [Arithmetic α] (voices : Nat) (graph : Graph α) (placed : List (Placed α)) :
    Guarded (Wiring α) := do
  let table := placed.toArray
  let readers := placed.flatMap fun p => (List.range p.instances.size).map (p, ·)
  let outputs := (Extent.tile 0 (readers.map (·.1.cls.outputs.length))).toArray
  let feeds ← readers.mapM fun r => instanceFeeds? table outputs r.1 r.2
  let order ← .ofExcept (graph.order.mapM (instancesOf table))
  let parameters ← .ofExcept (graph.parameters.mapM fun p => do
    return (⟨p.name, ← instancesOf table p.object⟩ : Slot))
  let firstConstant := readers.foldl (fun n r => n + r.1.cls.outputs.length) 0
  let perSocket := feeds.flatten
  let output ← .lookUp table[Builtin.outputObject]?
  return {
    blocks := placed.map (·.instances)
    outputs
    sockets := (Extent.tile 0 (feeds.map List.length)).toArray
    socketArgs := (Extent.tile 0 (perSocket.map List.length)).toArray
    args := (number firstConstant perSocket.flatten).toArray
    initial := (List.replicate firstConstant (Arithmetic.natural 0) ++
      constantsOf perSocket.flatten).toArray
    order := order.flatMap Extent.toList
    output := output.instances.start
    left := (output.cls.socketIndex? "left").getD 0
    right := (output.cls.socketIndex? "right").getD 0
    globalInputs := ← .lookUp (noteInputs? table 0 0)
    voiceInputs := ← .lookUp ((List.range voices).mapM (noteInputs? table Builtin.firstVoiceInput))
    parameters }

end Wiring

namespace Engine
open Reference
open Wiring (Guarded)
variable {α : Type} [Arithmetic α]

def spreadVoices? (e : Engine α) (inputs : Extent) : Option (Engine α) :=
  let last := natural (max e.voices.voices.length 2 - 1)
  (List.range inputs.size).foldlM
    (fun e voice => e.setUnit? (inputs.start + voice) (natural voice / last)) e

/-- The engine of a graph with the units of a library, if all places that are looked up on the way
are there. -/
def ofGraph? (library : Library) (settings : EngineSettings) (graph : Graph α) :
    Guarded (Engine α) := do
  if settings.voices = 0 then throw .noVoices
  let classes ← .ofExcept (Wiring.classesOf library.catalog graph.nodes)
  let objects := graph.nodes.zip classes
  Wiring.checkBuiltins? objects
  let placed := Wiring.place settings.voices objects
  let units ← .ofExcept (unitsOf library.registry settings placed)
  let wiring ← Wiring.ofGraph? settings.voices graph placed
  let engine : Engine α :=
    ⟨wiring, units.toArray, wiring.initial, [], .ofCount settings.voices⟩
  let voicePlace ← .lookUp placed[Builtin.firstVoiceInput + 4]?
  .lookUp (engine.spreadVoices? voicePlace.instances)

/-- Build the engine of a graph and run it, if all places that are looked up are there. -/
def play? (library : Library) (settings : EngineSettings) (graph : Graph α)
    (calls : List (Call α)) : Guarded (Engine α × List (α × α)) := do
  let e ← ofGraph? library settings graph
  .lookUp (e.run? calls)

end Engine
end Patchbay
