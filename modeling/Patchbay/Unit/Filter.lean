import Patchbay.Quantity

/-! Low-pass filters made of simple sections with a feedback around them. -/
namespace Patchbay
open Arithmetic

variable {α : Type} [Arithmetic α]

def sectionGain (cutoff sampleRate : α) : α :=
  let angle := natural 2 * pi * Quantity.toHertz cutoff / sampleRate
  angle / (angle + natural 1)

/-- Two sections. The feedback takes up their difference. -/
structure LowPass12 (α : Type) where
  sampleRate : α
  first : α
  second : α

namespace LowPass12

def ofRate (sampleRate : α) : LowPass12 α := ⟨sampleRate, natural 0, natural 0⟩

/-- The filter after a sample; the second section holds what is heard. -/
def step (f : LowPass12 α) (input cutoff resonance : α) : LowPass12 α :=
  let gain := sectionGain cutoff f.sampleRate
  let feedback := resonance + resonance / (natural 1 - gain)
  let first := f.first + gain * (input - f.first + feedback * (f.first - f.second))
  { f with first, second := f.second + gain * (first - f.second) }

end LowPass12

/-- Four sections, with a feedback from the last to the input. -/
structure LowPass24 (α : Type) where
  sampleRate : α
  first : α
  second : α
  third : α
  fourth : α

namespace LowPass24

def ofRate (sampleRate : α) : LowPass24 α :=
  ⟨sampleRate, natural 0, natural 0, natural 0, natural 0⟩

/-- The filter after a sample; the fourth section holds what is heard. -/
def step (f : LowPass24 α) (input cutoff resonance : α) : LowPass24 α :=
  let gain := atMost (ratio 99 100) (sectionGain cutoff f.sampleRate)
  let feedback := clamp (natural 0) (natural 1) resonance * ratio 395 100
  let follow (held signal : α) : α := held + gain * (signal - held)
  let first := follow f.first (input - f.fourth * feedback)
  let second := follow f.second first
  let third := follow f.third second
  { f with first, second, third, fourth := follow f.fourth third }

end Patchbay.LowPass24
