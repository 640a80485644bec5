import Patchbay.Engine.Basic

/-! Playing one note from its start to some time after its end. Frames are computed in blocks, and
a block that would go on past the end of the note is cut there. -/
namespace Patchbay
open Arithmetic

/-- A note to be played, measured in frames. -/
structure Performance (α : Type) where
  note : Nat
  velocity : α
  total : Nat
  hold : Nat
  /-- The most frames of one block; at least one is computed in any case. -/
  block : Nat

namespace Performance
variable {α : Type}

def release (p : Performance α) : Nat := min p.hold p.total

/-- The frame at which a block ends that begins at frame `start`. -/
def blockEnd (p : Performance α) (start : Nat) : Nat :=
  let stop := min (start + max p.block 1) p.total
  if start < p.release && p.release < stop then p.release else stop

theorem lt_blockEnd (p : Performance α) {start : Nat} (h : start < p.total) :
    start < p.blockEnd start := by
  simp only [blockEnd, Bool.and_eq_true, decide_eq_true_eq]
  split <;> omega

/-- Go on from frame `start` to the end, block by block: `compute` goes on by so many frames, and
`endNote` follows the block at whose end the note ends. -/
@[specialize] def goOn {σ : Type} (p : Performance α) (compute : σ → Nat → σ) (endNote : σ → σ)
    (s : σ) (start : Nat) : σ :=
  if _h : start < p.total then
    let stop := p.blockEnd start
    let s := compute s (stop - start)
    let s := if stop = p.release then endNote s else s
    goOn p compute endNote s stop
  else s
termination_by p.total - start
decreasing_by
  have := p.lt_blockEnd _h
  omega

/-- Go through all frames of a note that has started. A note that is not held at all ends before
the first one. -/
@[specialize] def perform {σ : Type} (p : Performance α) (compute : σ → Nat → σ)
    (endNote : σ → σ) (s : σ) : σ :=
  let s := if p.release = 0 then endNote s else s
  p.goOn compute endNote s 0

/-- How many whole frames fit into a time. A negative time has none. -/
def framesWithin [Arithmetic α] (rate : Nat) (seconds : α) : Nat :=
  whole (atLeast (natural 0) seconds * natural rate)

end Performance

namespace Engine
variable {α U : Type} [Arithmetic α] [Playable α U]

/-- Play a note. Frames come with the latest one first while it is played. -/
def play (e : Engine α U) (p : Performance α) : Engine α U × List (α × α) :=
  let (e, frames) := p.perform (fun s count => s.1.generateOnto s.2 count)
    (fun s => (s.1.noteOff p.note, s.2)) (e.noteOn p.note p.velocity, [])
  (e, frames.reverse)

end Patchbay.Engine
