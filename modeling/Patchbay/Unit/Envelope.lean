import Patchbay.Quantity
import Patchbay.Unit.Kind

/-! Envelopes: a level that rises when a note starts, falls to where it is held, and falls to
nothing when the note ends. -/
namespace Patchbay
open Arithmetic

inductive Envelope.Stage where
  | idle
  | attack
  | decay
  | sustain
  | release
  deriving Repr, DecidableEq

/-- The length of a segment as the envelope uses it. -/
structure Envelope.Timing (α : Type) where
  instant : Bool
  slope : α
  /-- The factor of one sample when the whole segment makes a hundredth. -/
  factor : α

structure Envelope (α : Type) where
  curve : Curve
  stage : Envelope.Stage
  level : α
  factor : α
  held : α

namespace Envelope
variable {α : Type} [Arithmetic α]

def threshold : α := ratio 1 100

def Timing.ofSamples (samples : α) : Timing α :=
  ⟨le samples (natural 0), natural 1 / samples, pow threshold (natural 1 / samples)⟩

def Timing.ofDuration (sampleRate duration : α) : Timing α :=
  .ofSamples (Quantity.toSeconds duration * sampleRate)

def ofCurve (curve : Curve) : Envelope α := ⟨curve, .idle, natural 0, natural 1, natural 0⟩

/-- What an envelope is told for one sample. -/
structure Input (α : Type) where
  gate : Bool
  trigger : Bool
  attack : Timing α
  decay : Timing α
  sustain : α
  release : Timing α

def Stage.isSilent : Stage → Bool
  | idle | release => true
  | attack | decay | sustain => false

/-- Start or end a note as gate and trigger say. Each start and end sets the factor of its
segment. -/
def switch (e : Envelope α) (i : Input α) : Envelope α :=
  if i.trigger || (i.gate && e.stage.isSilent) then
    { e with stage := .attack, factor := i.attack.factor }
  else if !i.gate && !e.stage.isSilent then
    { e with stage := .release, factor := i.release.factor }
  else e

def advanceLinear (e : Envelope α) (i : Input α) : Envelope α :=
  match e.stage with
  | .idle => e
  | .sustain => { e with level := i.sustain }
  | .attack =>
    let level := if i.attack.instant then natural 1 else e.level + i.attack.slope
    if le (natural 1) level then { e with level := natural 1, stage := .decay }
    else { e with level }
  | .decay =>
    let level := if i.decay.instant then i.sustain else e.level - i.decay.slope
    if le level i.sustain then { e with level := i.sustain, stage := .sustain }
    else { e with level }
  | .release =>
    let level := if i.release.instant then natural 0 else e.level - i.release.slope
    if le level (natural 0) then { e with level := natural 0, stage := .idle }
    else { e with level }

/-- One sample along curves that approach their ends. The level held is fixed when the attack
ends. -/
def advanceExponential (e : Envelope α) (i : Input α) : Envelope α :=
  match e.stage with
  | .idle => e
  | .sustain => { e with level := e.held }
  | .attack =>
    let level :=
      if i.attack.instant then natural 1 else natural 1 - (natural 1 - e.level) * e.factor
    if le (natural 1 - threshold) level then
      { e with
        level := natural 1, stage := .decay, held := atLeast threshold i.sustain,
        factor := i.decay.factor }
    else { e with level }
  | .decay =>
    let level := if i.decay.instant then e.held else e.level * e.factor
    if le level (e.held + threshold) then { e with level := e.held, stage := .sustain }
    else { e with level }
  | .release =>
    let level := e.level * e.factor
    if le level threshold then { e with level := natural 0, stage := .idle }
    else { e with level }

def step (e : Envelope α) (i : Input α) : Envelope α :=
  match e.curve with
  | .linear => (e.switch i).advanceLinear i
  | .exponential => (e.switch i).advanceExponential i

end Patchbay.Envelope
