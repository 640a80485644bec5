import Patchbay.Engine.Voices
import Patchbay.Engine.Wiring
import Patchbay.Settings.Basic
import Patchbay.Unit.Basic

/-! Engines: a wired graph with the state of its units, played note by note and sample by
sample. -/
namespace Patchbay
open Arithmetic

structure Engine (α : Type) (U : Type := SoundUnit α) where
  wiring : Wiring α
  units : Array U
  values : Array α
  latched : List Nat
  voices : Voices

namespace Engine
variable {α U : Type} [Arithmetic α] [Playable α U]

/-- The units of all instances. Each has a seed of its own. -/
def unitsOf (registry : Registry α U) (settings : EngineSettings)
    (placed : List (Wiring.Placed α)) : Except Fault (List U) :=
  placed.flatMapM fun p => p.instances.toList.mapM fun id =>
    match registry.create? p.cls.name (natural settings.sampleRate)
      (UInt64.ofNat (settings.seed + id)) with
    | some unit => .ok unit
    | none => .error (.unknownClass p.cls.name)

def setUnit (e : Engine α U) (id : Nat) (value : α) : Engine α U :=
  { e with units := e.units.modify id (Playable.setValue value) }

def spreadVoices (e : Engine α U) (inputs : Extent) : Engine α U :=
  let last := natural (max e.voices.voices.length 2 - 1)
  (List.range inputs.size).foldl
    (fun e voice => e.setUnit (inputs.start + voice) (natural voice / last)) e

def ofRegistry (registry : Registry α U) (settings : EngineSettings) (graph : Graph α) :
    Except Fault (Engine α U) := do
  if settings.voices = 0 then throw .noVoices
  let classes ← Wiring.classesOf registry.catalog graph.nodes
  let objects := graph.nodes.zip classes
  Wiring.checkBuiltins objects
  let placed := Wiring.place settings.voices objects
  let units ← unitsOf registry settings placed
  let wiring ← Wiring.ofGraph settings.voices graph placed
  let engine : Engine α U :=
    ⟨wiring, units.toArray, wiring.initial, [], .ofCount settings.voices⟩
  let voicePlace := (placed[Builtin.firstVoiceInput + 4]?.map (·.instances)).getD ⟨0, 0⟩
  return engine.spreadVoices voicePlace

def ofGraph (library : Library) (settings : EngineSettings) (graph : Graph α) :
    Except Fault (Engine α) :=
  ofRegistry library.registry settings graph

def parameterNames (e : Engine α U) : List String := e.wiring.parameters.map (·.name)

/-- Set the first parameter of a name, moved into the range from zero to one. -/
def setParameter (e : Engine α U) (name : String) (value : α) : Option (Engine α U) :=
  match e.wiring.parameters.find? (·.name == name) with
  | none => none
  | some slot =>
    let value := clamp (natural 0) (natural 1) value
    some (slot.instances.toList.foldl (fun e id => e.setUnit id value) e)

/-- Set note inputs for a note that starts. The trigger is on for one sample. -/
def startNote (e : Engine α U) (pitch velocity : α) (inputs : Wiring.NoteInputs) : Engine α U :=
  let e := (((e.setUnit inputs.gate (natural 1)).setUnit inputs.pitch pitch).setUnit
    inputs.velocity velocity).setUnit inputs.trigger (natural 1)
  if e.latched.contains inputs.trigger then e
  else { e with latched := e.latched ++ [inputs.trigger] }

/-- Start a note. Notes above the highest are ignored. -/
def noteOn (e : Engine α U) (note : Nat) (velocity : α) : Engine α U :=
  if highestNote < note then e
  else
    let (voices, voice) := e.voices.assign note
    let velocity := clamp (natural 0) (natural 1) velocity
    let inputs := e.wiring.globalInputs :: e.wiring.voiceInputs[voice]?.toList
    inputs.foldl (fun e => e.startNote (Quantity.keyPitch note) velocity) { e with voices }

/-- End a note. The shared gate closes with the last one. -/
def noteOff (e : Engine α U) (note : Nat) : Engine α U :=
  match e.voices.release note with
  | (_, none) => e
  | (voices, some voice) =>
    let e := match e.wiring.voiceInputs[voice]? with
      | some inputs => { e with voices }.setUnit inputs.gate (natural 0)
      | none => { e with voices }
    if voices.anyActive then e else e.setUnit e.wiring.globalInputs.gate (natural 0)

def releaseAll (e : Engine α U) : Engine α U :=
  let gates := e.wiring.voiceInputs.map (·.gate) ++ [e.wiring.globalInputs.gate]
  gates.foldl (fun e id => e.setUnit id (natural 0)) { e with voices := e.voices.releaseAll }

def socketSum (w : Wiring α) (values : Array α) (args : Extent) : α :=
  args.toList.foldl (fun sum i => sum + values.getD (w.args.getD i 0) (natural 0)) (natural 0)

def inputsOf (w : Wiring α) (values : Array α) (id : Nat) : List α :=
  (w.sockets.getD id ⟨0, 0⟩).toList.map fun socket =>
    socketSum w values (w.socketArgs.getD socket ⟨0, 0⟩)

def store (values : Array α) (slots : Extent) (signals : List α) : Array α :=
  (slots.toList.zip signals).foldl (fun values s => values.setIfInBounds s.1 s.2) values

/-- The unit at a place, and the units without it. Kept as a call of its own, so that nothing else
holds the unit while it is computed. -/
@[noinline] def takeUnit (units : Array U) (id : Nat) (h : id < units.size) : U × Array U :=
  units.swapAt id default h

/-- Compute one instance. The final signal is taken off its sockets. -/
def computeInstance (e : Engine α U) (frame : α × α) (id : Nat) : Engine α U × (α × α) :=
  let inputs := inputsOf e.wiring e.values id
  let frame :=
    if id = e.wiring.output then
      (inputs.getD e.wiring.left (natural 0), inputs.getD e.wiring.right (natural 0))
    else frame
  if h : id < e.units.size then
    let ⟨wiring, units, values, latched, voices⟩ := e
    let (unit, units) := takeUnit units id h
    let (unit, signals) := Playable.process unit inputs
    (⟨wiring, units.setIfInBounds id unit, store values (wiring.outputs.getD id ⟨0, 0⟩) signals,
      latched, voices⟩, frame)
  else (e, frame)

def computeAll (e : Engine α U) (frame : α × α) : List Nat → Engine α U × (α × α)
  | [] => (e, frame)
  | id :: rest =>
    let (e, frame) := e.computeInstance frame id
    e.computeAll frame rest

def tick (e : Engine α U) : Engine α U × (α × α) :=
  let (e, frame) := e.computeAll (natural 0, natural 0) e.wiring.order
  ({ e.latched.foldl (fun e id => e.setUnit id (natural 0)) e with latched := [] }, frame)

/-- So many frames, the latest first, in front of those there are. -/
def generateOnto (frames : List (α × α)) (e : Engine α U) : Nat → Engine α U × List (α × α)
  | 0 => (e, frames)
  | n + 1 =>
    let (e, frame) := e.tick
    e.generateOnto (frame :: frames) n

def generate (e : Engine α U) (count : Nat) : Engine α U × List (α × α) :=
  let (e, frames) := e.generateOnto [] count
  (e, frames.reverse)

end Patchbay.Engine
