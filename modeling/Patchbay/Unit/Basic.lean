import Patchbay.Library.Basic
import Patchbay.Unit.Envelope
import Patchbay.Unit.Filter
import Patchbay.Unit.Noise
import Patchbay.Unit.Oscillator
import Patchbay.Unit.Tape

/-! Sound units: for each sample they turn the signals at their sockets into those at their
outputs. -/
namespace Patchbay
open Arithmetic

/-- A unit in some state. Those that measure time keep the sample rate. -/
inductive SoundUnit (α : Type) where
  | control (value : α)
  | sink
  | inverter
  | attenuator
  | mapping (polarity : Polarity)
  | passThrough
  | oscillator (o : Oscillator α)
  | noise (n : Noise)
  | lowPass12 (f : LowPass12 α)
  | lowPass24 (f : LowPass24 α)
  | envelope (sampleRate : α) (e : Envelope α)
  | delay (sampleRate : α) (tape : Tape α)
  /-- A tape for each side. What comes off one goes back onto the other. -/
  | pingPong (sampleRate : α) (left right : Tape α)
  | drive

namespace SoundUnit
variable {α : Type} [Arithmetic α]

def tapeSize (sampleRate : α) : Nat := whole (natural 5 * sampleRate)

def ofKind (sampleRate : α) (seed : UInt64) : UnitKind → SoundUnit α
  | .control => control (natural 0)
  | .knob => control (ratio 1 2)
  | .sink => sink
  | .inverter => inverter
  | .attenuator => attenuator
  | .mapping polarity => mapping polarity
  | .passThrough => passThrough
  | .oscillator waveform => oscillator (.ofRate waveform sampleRate)
  | .noise => noise (.ofSeed seed)
  | .lowPass12 => lowPass12 (.ofRate sampleRate)
  | .lowPass24 => lowPass24 (.ofRate sampleRate)
  | .envelope curve => envelope sampleRate (.ofCurve curve)
  | .delay => delay sampleRate (.blank (tapeSize sampleRate) (natural 0))
  | .pingPong =>
    let tape := .blank (tapeSize sampleRate) (natural 0)
    pingPong sampleRate tape tape
  | .drive => drive

/-- Set the value that a unit takes from outside. Units without one ignore it. -/
def setValue (value : α) : SoundUnit α → SoundUnit α
  | control _ => control value
  | other => other

def delaySamples (sampleRate time : α) : Nat := nearest (Quantity.toSeconds time * sampleRate)

/-- Move a signal from its range to the interval between two others. -/
def rescale (polarity : Polarity) (source low high : α) : α :=
  let position :=
    match polarity with
    | .unipolar => source
    | .bipolar => (source + natural 1) / natural 2
  position * (high - low) + low

/-- What the sockets of an envelope tell it. A gate or trigger is on above one half. -/
def envelopeInput (sampleRate gate trigger attack decay sustain release : α) : Envelope.Input α :=
  ⟨lt (ratio 1 2) gate, lt (ratio 1 2) trigger, .ofDuration sampleRate attack,
    .ofDuration sampleRate decay, sustain, .ofDuration sampleRate release⟩

/-- The unit after a sample and the signals at its outputs. The signals at the sockets come in
the order of the class; one that is missing is zero. -/
def process (u : SoundUnit α) (inputs : List α) : SoundUnit α × List α :=
  let input (i : Nat) : α := inputs.getD i (natural 0)
  match u with
  | control value => (control value, [value])
  | sink => (sink, [])
  | inverter => (inverter, [-input 0])
  | attenuator => (attenuator, [input 1 * input 0])
  | mapping polarity => (mapping polarity, [rescale polarity (input 0) (input 1) (input 2)])
  | passThrough => (passThrough, inputs)
  | oscillator o =>
    let (o, value) := o.step (input 0)
    (oscillator o, [value])
  | noise n =>
    let (n, x) := n.next
    (noise n, [Noise.sample x])
  | lowPass12 f =>
    let f := f.step (input 0) (input 1) (input 2)
    (lowPass12 f, [f.second])
  | lowPass24 f =>
    let f := f.step (input 0) (input 1) (input 2)
    (lowPass24 f, [f.fourth])
  | envelope sampleRate e =>
    let e := e.step
      (envelopeInput sampleRate (input 0) (input 1) (input 2) (input 3) (input 4) (input 5))
    (envelope sampleRate e, [e.level])
  | delay sampleRate tape =>
    let delayed := tape.read (delaySamples sampleRate (input 1))
    (delay sampleRate (tape.write (input 0 + delayed * input 2)), [input 0 + delayed])
  | pingPong sampleRate left right =>
    -- The right tape is read at the place that the left one tells.
    let samples := delaySamples sampleRate (input 1)
    let fromLeft := left.read samples
    let fromRight := right.samples.getD (left.place samples) (natural 0)
    (pingPong sampleRate (left.write (input 0 + fromRight * input 2))
      (right.write (fromLeft * input 2)), [fromLeft, fromRight])
  | drive => (drive, [tanh (input 1 * input 0)])

end SoundUnit

/-- What an engine asks of the units that it plays, whatever they are. -/
class Playable (α : outParam Type) (U : Type) extends Inhabited U where
  process : U → List α → U × List α
  setValue : α → U → U

instance [Arithmetic α] : Playable α (SoundUnit α) where
  default := .sink
  process := SoundUnit.process
  setValue := SoundUnit.setValue

/-- Classes, and how units of them are made. -/
structure Registry (α U : Type) where
  catalog : Catalog
  /-- A new unit of a class, for a sample rate and a seed. -/
  create? : String → α → UInt64 → Option U

namespace Library
variable [Arithmetic α]

def create? (l : Library) (name : String) (sampleRate : α) (seed : UInt64) :
    Option (SoundUnit α) :=
  (l.kind? name).map (.ofKind sampleRate seed)

def registry (l : Library) : Registry α (SoundUnit α) := ⟨l.catalog, l.create?⟩

end Library

end Patchbay
