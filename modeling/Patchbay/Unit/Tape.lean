/-! Tapes: loops that are written at a head and read some way behind it. -/
namespace Patchbay

/-- A loop of samples and the place that is written next. -/
structure Tape (β : Type) where
  samples : Array β
  head : Nat
  wide : 2 ≤ samples.size
  head_lt : head < samples.size

namespace Tape
variable {β : Type}

def size (t : Tape β) : Nat := t.samples.size

/-- A tape of at least two samples that holds one value all over. -/
def blank (size : Nat) (value : β) : Tape β :=
  ⟨Array.replicate (max size 2) value, 0, by rw [Array.size_replicate]; omega,
    by rw [Array.size_replicate]; omega⟩

/-- A delay the tape can give: at least one sample, and less than its size. -/
def reach (t : Tape β) (delay : Nat) : Nat := min (max delay 1) (t.size - 1)

def place (t : Tape β) (delay : Nat) : Nat := (t.head + t.size - t.reach delay) % t.size

theorem place_lt (t : Tape β) (delay : Nat) : t.place delay < t.samples.size :=
  Nat.mod_lt _ (by have := t.wide; simp only [size]; omega)

def read (t : Tape β) (delay : Nat) : β :=
  have := t.place_lt delay
  t.samples[t.place delay]

def write (t : Tape β) (value : β) : Tape β :=
  let next := (t.head + 1) % t.samples.size
  ⟨t.samples.set t.head value t.head_lt, next,
    by simp only [Array.size_set]; exact t.wide,
    by simp only [Array.size_set]; exact Nat.mod_lt _ (by have := t.wide; omega)⟩

end Patchbay.Tape
