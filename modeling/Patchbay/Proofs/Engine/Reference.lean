import Mathlib.Logic.Function.Basic
import Patchbay.Engine.Basic

/-! Playing a graph object by object. Each object has a unit for each of its voices, and reads the
outputs of others by their names; nothing is laid out in advance. -/
namespace Patchbay.Reference
open Arithmetic

/-- An object and one of its voices. What all voices share is at voice zero. -/
structure Place where
  object : Nat
  voice : Nat
  deriving DecidableEq

/-- A graph whose objects have their classes. -/
structure Patch (α : Type) where
  objects : List (Node α × UnitClass)
  voices : Nat
  order : List Nat
  parameters : List Parameter

structure Player (α U : Type) where
  units : Place → U
  /-- The last values of the outputs, by their places in the class. -/
  values : Place → Nat → α
  /-- Triggers that end with the next sample. -/
  latched : List Place
  voices : Voices

/-- What is asked of an engine. -/
inductive Call (α : Type) where
  | noteOn (note : Nat) (velocity : α)
  | noteOff (note : Nat)
  | releaseAll
  | setParameter (name : String) (value : α)
  | generate (count : Nat)

variable {α : Type}

namespace Patch

def ofGraph (catalog : Catalog) (voices : Nat) (g : Graph α) : Patch α where
  objects := g.nodes.filterMap fun n => (catalog.resolve? n.className).map (n, ·)
  voices := voices
  order := g.order
  parameters := g.parameters

/-- How many units an object has. -/
def count (p : Patch α) (object : Nat) : Nat :=
  match p.objects[object]? with
  | some (n, _) => if n.perVoice then p.voices else 1
  | none => 0

/-- The places of an object, voice by voice. -/
def placesOf (p : Patch α) (object : Nat) : List Place :=
  (List.range (p.count object)).map (⟨object, ·⟩)

def places (p : Patch α) : List Place := (List.range p.objects.length).flatMap p.placesOf

end Patch

section Playing
variable {U : Type} [Arithmetic α] [Playable α U] (p : Patch α)

/-- The unit of a place before the first call. Each has a seed of its own. -/
def unitAt (registry : Registry α U) (settings : EngineSettings) (place : Place) : U :=
  match p.objects[place.object]? with
  | none => default
  | some (_, c) =>
    (registry.create? c.name (natural settings.sampleRate)
      (UInt64.ofNat (settings.seed + p.places.idxOf place))).getD default

/-- The start: no output was computed yet, and each voice knows its place among all. -/
def start (registry : Registry α U) (settings : EngineSettings) : Player α U where
  units place :=
    let unit := unitAt p registry settings place
    if place.object = Builtin.firstVoiceInput + 4 then
      Playable.setValue (natural place.voice / natural (max p.voices 2 - 1)) unit
    else unit
  values _ _ := natural 0
  latched := []
  voices := .ofCount p.voices

/-- Set the value of a unit that takes one from outside. -/
def set (s : Player α U) (place : Place) (value : α) : Player α U :=
  { s with units := Function.update s.units place (Playable.setValue value (s.units place)) }

/-- What a summand is for a voice of an object. Where all voices share the object, it hears each
voice of an object that they do not share. -/
def heard (values : Place → Nat → α) (reader : Node α) (voice : Nat) : Contribution α → List α
  | .constant value _ => [value]
  | .output object name _ =>
    match p.objects[object]? with
    | none => []
    | some (n, c) =>
      match c.outputIndex? name with
      | none => []
      | some i =>
        if !n.perVoice then [values ⟨object, 0⟩ i]
        else if reader.perVoice then [values ⟨object, voice⟩ i]
        else (List.range p.voices).map fun v => values ⟨object, v⟩ i

/-- The signals at the sockets of a place, each the sum of a mix in its order. -/
def inputs (values : Place → Nat → α) (n : Node α) (c : UnitClass) (voice : Nat) : List α :=
  c.sockets.map fun socket =>
    let mix := (n.mixes.get? socket.canonical).getD []
    (mix.flatMap (heard p values n voice)).foldl (· + ·) (natural 0)

/-- The signal at the socket of a name. -/
def side (c : UnitClass) (inputs : List α) (name : String) : α :=
  ((c.socketIndex? name).bind (inputs[·]?)).getD (natural 0)

/-- Compute the unit of a place. The final signal is taken off the sockets of its object. -/
def compute (s : Player α U) (frame : α × α) (place : Place) : Player α U × (α × α) :=
  match p.objects[place.object]? with
  | none => (s, frame)
  | some (n, c) =>
    let inputs := inputs p s.values n c place.voice
    let (unit, signals) := Playable.process (s.units place) inputs
    ({ s with
        units := Function.update s.units place unit
        values := Function.update s.values place fun i => signals.getD i (s.values place i) },
      if place.object = Builtin.outputObject then (side c inputs "left", side c inputs "right")
      else frame)

def computeAll (s : Player α U) (frame : α × α) : List Place → Player α U × (α × α)
  | [] => (s, frame)
  | place :: rest =>
    let (s, frame) := compute p s frame place
    computeAll s frame rest

/-- One sample: object by object in order and voice by voice, then the triggers end. -/
def tick (s : Player α U) : Player α U × (α × α) :=
  let (s, frame) := computeAll p s (natural 0, natural 0) (p.order.flatMap p.placesOf)
  ({ s.latched.foldl (fun s place => set s place (natural 0)) s with latched := [] }, frame)

def generate (s : Player α U) : Nat → Player α U × List (α × α)
  | 0 => (s, [])
  | n + 1 =>
    let (s, frame) := tick p s
    let (s, frames) := generate s n
    (s, frame :: frames)

/-- Set the four note inputs from an object on, for a note that starts. -/
def startNote (s : Player α U) (pitch velocity : α) (first voice : Nat) : Player α U :=
  let s := set (set (set (set s ⟨first + 1, voice⟩ (natural 1)) ⟨first + 2, voice⟩ pitch)
    ⟨first + 3, voice⟩ velocity) ⟨first, voice⟩ (natural 1)
  if s.latched.contains ⟨first, voice⟩ then s
  else { s with latched := s.latched ++ [⟨first, voice⟩] }

def noteOn (s : Player α U) (note : Nat) (velocity : α) : Player α U :=
  if highestNote < note then s
  else
    let (voices, voice) := s.voices.assign note
    let pitch := Quantity.keyPitch note
    let velocity := clamp (natural 0) (natural 1) velocity
    startNote (startNote { s with voices } pitch velocity 0 0) pitch velocity
      Builtin.firstVoiceInput voice

def noteOff (s : Player α U) (note : Nat) : Player α U :=
  match s.voices.release note with
  | (_, none) => s
  | (voices, some voice) =>
    let s := set { s with voices } ⟨Builtin.firstVoiceInput + 1, voice⟩ (natural 0)
    if voices.anyActive then s else set s ⟨1, 0⟩ (natural 0)

def releaseAll (s : Player α U) : Player α U :=
  let gates := (List.range p.voices).map (⟨Builtin.firstVoiceInput + 1, ·⟩) ++ [⟨1, 0⟩]
  gates.foldl (fun s place => set s place (natural 0)) { s with voices := s.voices.releaseAll }

def setParameter (s : Player α U) (name : String) (value : α) : Player α U :=
  match p.parameters.find? (·.name == name) with
  | none => s
  | some parameter =>
    (p.placesOf parameter.object).foldl
      (fun s place => set s place (clamp (natural 0) (natural 1) value)) s

/-- The player behind a call, and the frames it gave. -/
def call (s : Player α U) : Call α → Player α U × List (α × α)
  | .noteOn note velocity => (noteOn s note velocity, [])
  | .noteOff note => (noteOff s note, [])
  | .releaseAll => (releaseAll p s, [])
  | .setParameter name value => (setParameter p s name value, [])
  | .generate count => generate p s count

def run (s : Player α U) : List (Call α) → Player α U × List (α × α)
  | [] => (s, [])
  | c :: rest =>
    let (s, frames) := call p s c
    let (s, more) := run s rest
    (s, frames ++ more)

end Playing
end Reference

namespace Engine
open Reference
variable {α U : Type} [Arithmetic α] [Playable α U]

/-- The engine behind a call, and the frames it gave. An unknown parameter is left alone. -/
def call (e : Engine α U) : Call α → Engine α U × List (α × α)
  | .noteOn note velocity => (e.noteOn note velocity, [])
  | .noteOff note => (e.noteOff note, [])
  | .releaseAll => (e.releaseAll, [])
  | .setParameter name value => ((e.setParameter name value).getD e, [])
  | .generate count => e.generate count

def run (e : Engine α U) : List (Call α) → Engine α U × List (α × α)
  | [] => (e, [])
  | c :: rest =>
    let (e, frames) := e.call c
    let (e, more) := e.run rest
    (e, frames ++ more)

end Patchbay.Engine
