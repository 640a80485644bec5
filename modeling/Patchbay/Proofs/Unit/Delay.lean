import Patchbay.Proofs.Exact
import Patchbay.Proofs.Unit.Tape

/-! Delays as recurrences. What a delay or ping-pong delay gives at each sample is told by what went
onto its tapes so many samples before. -/
namespace Patchbay
open Arithmetic (natural)

/-- What is at the sockets of a delay during a sample. -/
structure EchoInput (α : Type) where
  input : α
  time : α
  feedback : α

namespace SoundUnit
variable {α : Type} [Arithmetic α]

/-- A delay after so many samples. -/
def afterEchoes (u : SoundUnit α) (inputs : Nat → EchoInput α) : Nat → SoundUnit α
  | 0 => u
  | n + 1 =>
    let i := inputs n
    ((u.afterEchoes inputs n).process [i.input, i.time, i.feedback]).1

/-- What is at the outputs of a delay during a sample. -/
def echoes (u : SoundUnit α) (inputs : Nat → EchoInput α) (n : Nat) : List α :=
  let i := inputs n
  ((u.afterEchoes inputs n).process [i.input, i.time, i.feedback]).2

section
variable (sampleRate : α) (inputs : Nat → EchoInput α)

/-- What goes onto the tape of a delay. -/
private def feed (i : EchoInput α) (t : Tape α) : α :=
  i.input + t.read (delaySamples sampleRate i.time) * i.feedback

/-- The tape of a delay after so many samples. -/
private def tapeAfter : Nat → Tape α
  | 0 => .blank (tapeSize sampleRate) (natural 0)
  | n + 1 => (tapeAfter n).write (feed sampleRate (inputs n) (tapeAfter n))

private theorem after_delay (seed : UInt64) (n : Nat) :
    (ofKind sampleRate seed .delay).afterEchoes inputs n =
      .delay sampleRate (tapeAfter sampleRate inputs n) := by
  induction n with
  | zero => rfl
  | succ n ih =>
    rw [afterEchoes, ih]
    rfl

private theorem runs_tapeAfter : Tape.Runs (natural 0) (tapeSize sampleRate)
    (fun n => feed sampleRate (inputs n) (tapeAfter sampleRate inputs n))
    (tapeAfter sampleRate inputs) := ⟨rfl, fun _ => rfl⟩

/-- What went onto the tape of a delay, before the first sample as well. -/
private def laid : Int → α :=
  Tape.history (natural 0) fun n => feed sampleRate (inputs n) (tapeAfter sampleRate inputs n)

private theorem read_tapeAfter (n delay : Nat) : (tapeAfter sampleRate inputs n).read delay =
    laid sampleRate inputs (n - (min (max delay 1) (max (tapeSize sampleRate) 2 - 1) : Nat)) :=
  (runs_tapeAfter sampleRate inputs).read_eq n delay

private theorem echoes_delay (seed : UInt64) (n : Nat) :
    (ofKind sampleRate seed .delay).echoes inputs n = [(inputs n).input +
      (tapeAfter sampleRate inputs n).read (delaySamples sampleRate (inputs n).time)] := by
  rw [echoes, after_delay]
  rfl

/-- A delay gives its input and what went onto the tape so many samples before, for delays of at
least one sample and less than the length of the tape. -/
theorem delay_echoes (seed : UInt64) :
    ∃ w : Int → α, (∀ m < 0, w m = natural 0) ∧ ∀ n : Nat,
      let i := inputs n
      let size := max (tapeSize sampleRate) 2
      let lag := min (max (delaySamples sampleRate i.time) 1) (size - 1)
      w n = i.input + w (n - lag) * i.feedback ∧
        (ofKind sampleRate seed .delay).echoes inputs n = [i.input + w (n - lag)] := by
  refine ⟨laid sampleRate inputs, fun m => Tape.history_of_neg, fun n => ?_⟩
  dsimp only
  rw [← read_tapeAfter, echoes_delay]
  exact ⟨rfl, rfl⟩

end

section Longest

/-- An impulse into a delay without feedback. -/
def impulse (time : α) (n : Nat) : EchoInput α :=
  ⟨natural (if n = 0 then 1 else 0), time, natural 0⟩

/-- A delay that gives back what went onto the tape exactly so many samples before. -/
def DelaysExactly (sampleRate : α) (inputs : Nat → EchoInput α) : Prop :=
  ∃ w : Int → α, (∀ m < 0, w m = natural 0) ∧ ∀ n : Nat,
    let i := inputs n
    let delay := delaySamples sampleRate i.time
    w n = i.input + w (n - delay) * i.feedback ∧
      (ofKind sampleRate 0 .delay).echoes inputs n = [i.input + w (n - delay)]

/-- The place that is five samples back on a tape of five samples is the one to be written next. -/
private theorem not_delaysExactly_impulse {sampleRate time : α} (hsize : tapeSize sampleRate = 5)
    (hdelay : delaySamples sampleRate time = 5)
    (hne : (natural 0 + (natural 1 + natural 0 * natural 0) : α) ≠ natural 0 + natural 0) :
    ¬ DelaysExactly sampleRate (impulse time) := by
  rintro ⟨w, hsilent, hw⟩
  have hclaimed := (hw 4).2
  have hblank : (tapeAfter sampleRate (impulse time) 0).read 5 = natural 0 := by
    rw [read_tapeAfter, hsize]
    rfl
  have hfirst : laid sampleRate (impulse time) 0 = natural 1 + natural 0 * natural 0 := by
    show natural 1 + (tapeAfter sampleRate (impulse time) 0).read (delaySamples _ time) * _ = _
    rw [hdelay, hblank]
    rfl
  have hlag : (4 : Nat) - (min (max 5 1) (max 5 2 - 1) : Nat) = (0 : Int) := rfl
  have htime : delaySamples sampleRate (impulse time 4).time = 5 := hdelay
  rw [echoes_delay, read_tapeAfter, htime, hsize, hlag, hfirst, hsilent _ (by decide)] at hclaimed
  exact hne (List.head_eq_of_cons_eq hclaimed)

section Exact
variable (rate : Nat)

/-- A tape is as long as five seconds. -/
private theorem tapeSize_natural : tapeSize (natural rate : ℝ) = 5 * rate := by
  show ⌊((5 : ℕ) : ℝ) * (rate : ℝ)⌋₊ = 5 * rate
  rw [← Nat.cast_mul, Nat.floor_natCast]

private theorem delaySamples_fromSeconds {seconds : Nat} (h : 0 < seconds) :
    delaySamples (natural rate : ℝ) (Quantity.fromSeconds (natural seconds)) = seconds * rate := by
  have hpos : (0 : ℝ) < natural seconds := Nat.cast_pos.mpr h
  rw [delaySamples, Quantity.toSeconds_fromSeconds hpos]
  show ⌊(seconds : ℝ) * (rate : ℝ) + 1 / ((2 : ℕ) : ℝ)⌋₊ = seconds * rate
  rw [← Nat.cast_mul, Nat.floor_eq_iff (by positivity)]
  constructor <;> norm_num

end Exact

/-- At one sample a second a tape is five samples long, and a delay of five seconds takes five
samples; but the echo of an impulse comes after four. So it is with exact numbers, and with binary
ones for each time that takes five samples. -/
theorem longest_delay_early :
    (tapeSize (natural 1 : ℝ) = 5 ∧
      delaySamples (natural 1) (Quantity.fromSeconds (natural 5) : ℝ) = 5 ∧
      ¬ DelaysExactly (natural 1) (impulse (Quantity.fromSeconds (natural 5) : ℝ))) ∧
    tapeSize (natural 1 : Float) = 5 ∧
      ∀ time : Float, delaySamples (natural 1) time = 5 →
        ¬ DelaysExactly (natural 1) (impulse time) := by
  have hreal : tapeSize (natural 1 : ℝ) = 5 := tapeSize_natural 1
  have hfive : delaySamples (natural 1) (Quantity.fromSeconds (natural 5) : ℝ) = 5 :=
    delaySamples_fromSeconds 1 (Nat.succ_pos 4)
  have hfloat : tapeSize (natural 1 : Float) = 5 := by decide +kernel
  refine ⟨⟨hreal, hfive, not_delaysExactly_impulse hreal hfive ?_⟩, hfloat, fun time htime =>
    not_delaysExactly_impulse hfloat htime ?_⟩
  · rw [Arithmetic.natural_cast, Arithmetic.natural_cast]
    norm_num
  · decide +kernel

end Longest

section
variable (sampleRate : α) (inputs : Nat → EchoInput α)

/-- What goes onto the two tapes of a ping-pong delay. -/
private def feeds (i : EchoInput α) (t : Tape α × Tape α) : α × α :=
  let samples := delaySamples sampleRate i.time
  (i.input + t.2.read samples * i.feedback, t.1.read samples * i.feedback)

/-- The tapes of a ping-pong delay after so many samples. -/
private def tapesAfter : Nat → Tape α × Tape α
  | 0 =>
    let tape := .blank (tapeSize sampleRate) (natural 0)
    (tape, tape)
  | n + 1 =>
    let t := tapesAfter n
    let written := feeds sampleRate (inputs n) t
    (t.1.write written.1, t.2.write written.2)

private theorem inStep_tapesAfter (n : Nat) :
    (tapesAfter sampleRate inputs n).1.InStep (tapesAfter sampleRate inputs n).2 := by
  induction n with
  | zero => exact ⟨rfl, rfl⟩
  | succ n ih => exact ih.write _ _

/-- The place that the left tape tells is right for the right one. -/
private theorem process_pingPong {left right : Tape α} (h : left.InStep right) (i : EchoInput α) :
    (pingPong sampleRate left right).process [i.input, i.time, i.feedback] =
      (.pingPong sampleRate (left.write (feeds sampleRate i (left, right)).1)
        (right.write (feeds sampleRate i (left, right)).2),
        [left.read (delaySamples sampleRate i.time),
          right.read (delaySamples sampleRate i.time)]) := by
  have hright : right.samples.getD (left.place (delaySamples sampleRate i.time)) (natural 0) =
      right.read (delaySamples sampleRate i.time) := by
    rw [Array.getD_eq_getD_getElem?, h.getElem?, Option.getD_some]
  rw [process]
  simp only [List.getD_cons_zero, List.getD_cons_succ, hright]
  rfl

private theorem after_pingPong (seed : UInt64) (n : Nat) :
    (ofKind sampleRate seed .pingPong).afterEchoes inputs n = .pingPong sampleRate
      (tapesAfter sampleRate inputs n).1 (tapesAfter sampleRate inputs n).2 := by
  induction n with
  | zero => rfl
  | succ n ih =>
    rw [afterEchoes, ih, process_pingPong sampleRate (inStep_tapesAfter sampleRate inputs n)]
    rfl

private theorem runs_left : Tape.Runs (natural 0) (tapeSize sampleRate)
    (fun n => (feeds sampleRate (inputs n) (tapesAfter sampleRate inputs n)).1)
    (fun n => (tapesAfter sampleRate inputs n).1) := ⟨rfl, fun _ => rfl⟩

private theorem runs_right : Tape.Runs (natural 0) (tapeSize sampleRate)
    (fun n => (feeds sampleRate (inputs n) (tapesAfter sampleRate inputs n)).2)
    (fun n => (tapesAfter sampleRate inputs n).2) := ⟨rfl, fun _ => rfl⟩

/-- What went onto the two tapes of a ping-pong delay, before the first sample as well. -/
private def laidLeft : Int → α :=
  Tape.history (natural 0) fun n => (feeds sampleRate (inputs n) (tapesAfter sampleRate inputs n)).1

private def laidRight : Int → α :=
  Tape.history (natural 0) fun n => (feeds sampleRate (inputs n) (tapesAfter sampleRate inputs n)).2

private theorem read_tapesAfter (n delay : Nat) :
    let lag := min (max delay 1) (max (tapeSize sampleRate) 2 - 1)
    (tapesAfter sampleRate inputs n).1.read delay = laidLeft sampleRate inputs (n - lag) ∧
      (tapesAfter sampleRate inputs n).2.read delay = laidRight sampleRate inputs (n - lag) :=
  ⟨(runs_left sampleRate inputs).read_eq n delay, (runs_right sampleRate inputs).read_eq n delay⟩

/-- A ping-pong delay gives what went onto its left and its right tape so many samples before, and
each goes onto the other with feedback. Its tapes stay in step, so that one place does for both. -/
theorem pingPong_echoes (seed : UInt64) :
    ∃ l r : Int → α, (∀ m < 0, l m = natural 0 ∧ r m = natural 0) ∧ ∀ n : Nat,
      let i := inputs n
      let samples := delaySamples sampleRate i.time
      let size := max (tapeSize sampleRate) 2
      let lag := min (max samples 1) (size - 1)
      l n = i.input + r (n - lag) * i.feedback ∧ r n = l (n - lag) * i.feedback ∧
        (ofKind sampleRate seed .pingPong).echoes inputs n = [l (n - lag), r (n - lag)] ∧
        ∃ left right : Tape α,
          (ofKind sampleRate seed .pingPong).afterEchoes inputs n =
            .pingPong sampleRate left right ∧
          left.size = size ∧ right.size = size ∧ left.head = right.head ∧
          left.place samples = (left.head + size - lag) % size ∧
          right.place samples = left.place samples ∧
          left.place samples < left.size ∧ left.place samples < right.size ∧
          lag ≤ left.head + size ∧ 1 ≤ size - 1 := by
  refine ⟨laidLeft sampleRate inputs, laidRight sampleRate inputs,
    fun m hm => ⟨Tape.history_of_neg hm, Tape.history_of_neg hm⟩, fun n => ?_⟩
  have hstep := inStep_tapesAfter sampleRate inputs n
  have hsize := (runs_left sampleRate inputs).size_eq n
  obtain ⟨hleft, hright⟩ := read_tapesAfter sampleRate inputs n
    (delaySamples sampleRate (inputs n).time)
  dsimp only
  rw [← hleft, ← hright]
  refine ⟨rfl, rfl, ?_, _, _, after_pingPong sampleRate inputs seed n, hsize,
    hstep.size.symm.trans hsize, hstep.head, ?_, (hstep.place _).symm, Tape.place_lt _ _, ?_, ?_, ?_⟩
  · rw [echoes, after_pingPong, process_pingPong sampleRate hstep]
  · rw [Tape.place, Tape.reach, hsize]
  · rw [hstep.place]
    exact Tape.place_lt _ _
  · omega
  · omega

end
end SoundUnit
end Patchbay
