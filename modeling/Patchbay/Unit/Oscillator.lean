import Patchbay.Quantity
import Patchbay.Unit.Kind

/-! Oscillators. A phase runs from 0 to 1 in each cycle. -/
namespace Patchbay
open Arithmetic

variable {α : Type} [Arithmetic α]

def Waveform.value (phase : α) : Waveform → α
  | sine => sin (phase * natural 2 * pi)
  | saw => natural 2 * phase - natural 1
  | square => if lt phase (ratio 1 2) then natural 1 else -natural 1
  | triangle =>
    if lt phase (ratio 1 4) then natural 4 * phase
    else if lt phase (ratio 3 4) then natural 2 - natural 4 * phase
    else natural 4 * phase - natural 4

/-- An oscillator and the time between two samples. -/
structure Oscillator (α : Type) where
  waveform : Waveform
  phase : α
  period : α

namespace Oscillator

def ofRate (waveform : Waveform) (sampleRate : α) : Oscillator α :=
  ⟨waveform, natural 0, natural 1 / sampleRate⟩

/-- The wave at the present phase, and the oscillator one sample later. -/
def step (o : Oscillator α) (frequency : α) : Oscillator α × α :=
  ({ o with phase := wrap (o.phase + Quantity.toHertz frequency * o.period) },
    o.waveform.value o.phase)

end Patchbay.Oscillator
