import Patchbay.Program.Basic

/-! The kinds of units that make sound. -/
namespace Patchbay

inductive Waveform where
  | sine
  | saw
  | square
  | triangle
  deriving Repr, DecidableEq

/-- The shape of the segments of an envelope. -/
inductive Curve where
  | linear
  | exponential
  deriving Repr, DecidableEq

inductive UnitKind where
  | control
  /-- A value set from outside, in the middle of its range at first. -/
  | knob
  | sink
  | inverter
  | attenuator
  | mapping (polarity : Polarity)
  /-- Each output gives the signal of the socket at the same place. -/
  | passThrough
  | oscillator (waveform : Waveform)
  | noise
  | lowPass12
  | lowPass24
  | envelope (curve : Curve)
  | delay
  | pingPong
  | drive
  deriving Repr, DecidableEq

end Patchbay
