import Patchbay.Unit.Basic

/-! Tapes as histories. Whatever is written, a tape gives back what was written so many samples ago,
for every delay up to its own length. -/
namespace Patchbay

namespace Tape
variable {β : Type} {silence : β} {written : Nat → β} {n : Nat} {t : Tape β}

/-- What was written at each sample; before the first one there was silence. -/
def history (silence : β) (written : Nat → β) : Int → β
  | .ofNat n => written n
  | .negSucc _ => silence

theorem history_of_neg {m : Int} (h : m < 0) : history silence written m = silence := by
  cases m with
  | ofNat n => exact absurd h (Int.not_lt.mpr (Int.natCast_nonneg n))
  | negSucc => rfl

@[simp] theorem size_blank (size : Nat) (value : β) : (blank size value).size = max size 2 :=
  Array.size_replicate

@[simp] theorem size_write (t : Tape β) (value : β) : (t.write value).size = t.size :=
  Array.size_set t.head_lt

@[simp] theorem head_write (t : Tape β) (value : β) :
    (t.write value).head = (t.head + 1) % t.size := rfl

theorem two_le_size (t : Tape β) : 2 ≤ t.size := t.wide

theorem head_lt_size (t : Tape β) : t.head < t.size := t.head_lt

theorem one_le_reach (t : Tape β) (delay : Nat) : 1 ≤ t.reach delay := by
  have hsize := t.two_le_size
  rw [reach]
  omega

theorem reach_lt_size (t : Tape β) (delay : Nat) : t.reach delay < t.size := by
  have hsize := t.two_le_size
  rw [reach]
  omega

/-- At sample `n` the tape holds what was written during the last samples, as many as it is long. -/
def Recalls (silence : β) (written : Nat → β) (n : Nat) (t : Tape β) : Prop :=
  ∀ delay, 1 ≤ delay → delay ≤ t.size →
    t.samples[(t.head + t.size - delay) % t.size]? = some (history silence written (n - delay))

theorem recalls_blank (size : Nat) (silence : β) (written : Nat → β) :
    (blank size silence).Recalls silence written 0 := by
  intro delay hpos _
  have hplace : ∀ k, k % (blank size silence).size < (blank size silence).samples.size := fun k =>
    Nat.mod_lt _ (Nat.lt_of_lt_of_le Nat.two_pos (blank size silence).wide)
  rw [Array.getElem?_eq_getElem (hplace _), history_of_neg (by omega)]
  exact congrArg some (Array.getElem_replicate _)

/-- The place of what was written some samples ago, one sample later. -/
private theorem place_succ {head size delay : Nat} (hhead : head < size) (hpos : 1 ≤ delay)
    (hle : delay ≤ size) :
    ((head + 1) % size + size - delay) % size = (head + size - (delay - 1)) % size := by
  rcases Nat.lt_or_eq_of_le (Nat.succ_le_of_lt hhead) with hlt | rfl
  · rw [Nat.mod_eq_of_lt hlt]
    congr 1
    omega
  · rw [Nat.mod_self, Nat.zero_add]
    have hwrap : head + (head + 1) - (delay - 1) = head + 1 - delay + (head + 1) := by omega
    rw [hwrap, Nat.add_mod_right]

/-- What is not at the head stays. -/
private theorem place_ne_head {head size delay : Nat} (hhead : head < size) (hpos : 1 ≤ delay)
    (hlt : delay < size) : (head + size - delay) % size ≠ head := by
  rcases Nat.lt_or_ge head delay with hwrap | hle
  · rw [Nat.mod_eq_of_lt (by omega)]
    omega
  · have hback : head + size - delay = head - delay + size := by omega
    rw [hback, Nat.add_mod_right, Nat.mod_eq_of_lt (by omega)]
    omega

/-- The next sample takes the place of the oldest one. -/
theorem Recalls.write (h : t.Recalls silence written n) :
    (t.write (written n)).Recalls silence written (n + 1) := by
  intro delay hpos hle
  rw [size_write] at hle
  rw [head_write, size_write, place_succ t.head_lt_size hpos hle]
  show (t.samples.set t.head (written n) t.head_lt)[_]? = _
  rcases Nat.eq_or_lt_of_le hpos with rfl | hone
  · have hhead : (t.head + t.size - (1 - 1)) % t.size = t.head := by
      rw [Nat.sub_self, Nat.sub_zero, Nat.add_mod_right, Nat.mod_eq_of_lt t.head_lt_size]
    have hlast : ((n + 1 : Nat) : Int) - (1 : Nat) = n := by omega
    rw [hhead, Array.getElem?_set_self t.head_lt, hlast]
    rfl
  · have hplace := place_ne_head t.head_lt_size (Nat.le_sub_one_of_lt hone) (by omega)
    have hsame : (n : Int) - (delay - 1 : Nat) = (n + 1 : Nat) - delay := by omega
    rw [Array.getElem?_set_ne t.head_lt hplace.symm, h (delay - 1) (by omega) (by omega), hsame]

/-- Reading gives what was written so many samples ago, up to the delays that the tape can give. -/
theorem Recalls.read (h : t.Recalls silence written n) (delay : Nat) :
    t.read delay = history silence written (n - t.reach delay) := by
  have hplace := h (t.reach delay) (t.one_le_reach delay) (Nat.le_of_lt (t.reach_lt_size delay))
  rw [← place, Array.getElem?_eq_getElem (t.place_lt delay)] at hplace
  exact Option.some.inj hplace

/-- A tape from sample to sample: blank at first, then with one write a sample. -/
structure Runs (silence : β) (size : Nat) (written : Nat → β) (tape : Nat → Tape β) : Prop where
  start : tape 0 = blank size silence
  step : ∀ n, tape (n + 1) = (tape n).write (written n)

namespace Runs
variable {size : Nat} {tape : Nat → Tape β} (h : Runs silence size written tape)
include h

theorem size_eq (n : Nat) : (tape n).size = max size 2 := by
  induction n with
  | zero => rw [h.start, size_blank]
  | succ n ih => rw [h.step, size_write, ih]

theorem recalls (n : Nat) : (tape n).Recalls silence written n := by
  induction n with
  | zero =>
    rw [h.start]
    exact recalls_blank size silence written
  | succ n ih =>
    rw [h.step]
    exact ih.write

/-- At any sample the tape gives what was written before it, for delays of at least one sample and
less than its length. -/
theorem read_eq (n delay : Nat) : (tape n).read delay =
    history silence written (n - (min (max delay 1) (max size 2 - 1) : Nat)) := by
  rw [(h.recalls n).read, reach, h.size_eq]

end Runs

/-- Two tapes of one length, with their heads at one place. -/
structure InStep (left right : Tape β) : Prop where
  size : left.size = right.size
  head : left.head = right.head

theorem InStep.write {left right : Tape β} (h : left.InStep right) (value value' : β) :
    (left.write value).InStep (right.write value') := by
  constructor
  · rw [size_write, size_write, h.size]
  · rw [head_write, head_write, h.size, h.head]

/-- A place of one tape is the same place of the other. -/
theorem InStep.place {left right : Tape β} (h : left.InStep right) (delay : Nat) :
    left.place delay = right.place delay := by
  rw [Tape.place, Tape.place, reach, reach, h.size, h.head]

theorem InStep.getElem? {left right : Tape β} (h : left.InStep right) (delay : Nat) :
    right.samples[left.place delay]? = some (right.read delay) := by
  rw [h.place, Array.getElem?_eq_getElem (right.place_lt delay)]
  rfl

end Tape

namespace SoundUnit
variable {α : Type}

/-- The two tapes of a unit, if it has two, are in step. -/
def InStep : SoundUnit α → Prop
  | pingPong _ left right => left.InStep right
  | control _ | sink | inverter | attenuator | mapping _ | passThrough | oscillator _ | noise _
  | lowPass12 _ | lowPass24 _ | envelope _ _ | delay _ _ | drive => True

theorem InStep.setValue {u : SoundUnit α} (h : u.InStep) (value : α) :
    (u.setValue value).InStep := by
  cases u with
  | pingPong => exact h
  | _ => trivial

variable [Arithmetic α]

theorem inStep_ofKind (sampleRate : α) (seed : UInt64) (kind : UnitKind) :
    (ofKind sampleRate seed kind).InStep := by
  cases kind with
  | pingPong => exact ⟨rfl, rfl⟩
  | _ => trivial

theorem InStep.process {u : SoundUnit α} (h : u.InStep) (inputs : List α) :
    (u.process inputs).1.InStep := by
  cases u with
  | pingPong sampleRate left right => exact Tape.InStep.write h _ _
  | _ => trivial

end SoundUnit
end Patchbay
