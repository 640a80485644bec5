import Patchbay.Engine.Performance
import Patchbay.Recording

/-! Notes as they are played. What is heard does not depend on the size of the blocks, and the note
ends once, at its frame, wherever blocks begin and end. -/
namespace Patchbay

namespace Performance
variable {α σ : Type} {p : Performance α} {compute : σ → Nat → σ} {endNote : σ → σ}

theorem release_le (p : Performance α) : p.release ≤ p.total := Nat.min_le_right _ _

theorem blockEnd_le (p : Performance α) (start : Nat) : p.blockEnd start ≤ p.total := by
  have hrelease := p.release_le
  rw [blockEnd]
  split
  · exact hrelease
  · exact Nat.min_le_right _ _

/-- A block that begins while the note is held goes on to its end at most. -/
theorem blockEnd_le_release {start : Nat} (h : start < p.release) :
    p.blockEnd start ≤ p.release := by
  simp only [blockEnd, Bool.and_eq_true, decide_eq_true_eq]
  split <;> omega

/-- Going on in two steps is going on in one. -/
structure Divisible (compute : σ → Nat → σ) : Prop where
  zero : ∀ s, compute s 0 = s
  add : ∀ s m n, compute s (m + n) = compute (compute s m) n

namespace Divisible

/-- A piece and what is left after it. -/
theorem split (h : Divisible compute) (s : σ) {start stop last : Nat} (hstart : start ≤ stop)
    (hstop : stop ≤ last) :
    compute (compute s (stop - start)) (last - stop) = compute s (last - start) := by
  rw [← h.add]
  congr 1
  omega

/-- Once the note has ended, the loop goes on to the last frame. -/
theorem goOn_after_release (h : Divisible compute) (s : σ) {start : Nat}
    (hstart : p.release ≤ start) :
    p.goOn compute endNote s start = compute s (p.total - start) := by
  fun_induction goOn p compute endNote s start with
  | case1 s start hlt stop computed next ih =>
    have hstop : start < stop := p.lt_blockEnd hlt
    have hnext : next = compute s (stop - start) := if_neg (by omega)
    rw [ih (by omega), hnext, h.split s (Nat.le_of_lt hstop) (p.blockEnd_le start)]
  | case2 s start hlt => rw [Nat.sub_eq_zero_of_le (Nat.le_of_not_lt hlt), h.zero]

/-- While the note is held, the loop goes on to its end, ends it, and goes on from there. -/
theorem goOn_before_release (h : Divisible compute) (s : σ) {start : Nat}
    (hstart : start < p.release) :
    p.goOn compute endNote s start =
      compute (endNote (compute s (p.release - start))) (p.total - p.release) := by
  have hrelease := p.release_le
  fun_induction goOn p compute endNote s start with
  | case1 s start hlt stop computed next ih =>
    have hstop : start < stop := p.lt_blockEnd hlt
    have hheld : stop ≤ p.release := blockEnd_le_release hstart
    -- Only the block that ends with the note ends it; from there on no other does.
    rcases Nat.lt_or_eq_of_le hheld with hheld | hend
    · have hnext : next = compute s (stop - start) := if_neg (Nat.ne_of_lt hheld)
      rw [ih hheld, hnext, h.split s (Nat.le_of_lt hstop) (Nat.le_of_lt hheld)]
    · have hnext : next = endNote (compute s (stop - start)) := if_pos hend
      rw [h.goOn_after_release next (Nat.le_of_eq hend.symm), hnext, hend]
  | case2 s start hlt => omega

/-- However blocks fall, what is computed is the held note, its end, and the rest. -/
theorem perform_eq (h : Divisible compute) (s : σ) : p.perform compute endNote s =
    compute (endNote (compute s p.release)) (p.total - p.release) := by
  rw [perform]
  split
  · next hnone => rw [h.goOn_after_release _ (Nat.le_of_eq hnone), hnone, h.zero]
  · next hsome => rw [h.goOn_before_release s (Nat.pos_of_ne_zero hsome), Nat.sub_zero]

end Divisible

/-- Each block has a frame, so there are no more blocks than frames. -/
theorem goOn_blocks_le (p : Performance α) (blocks start : Nat) :
    p.goOn (fun blocks _ => blocks + 1) id blocks start ≤ blocks + (p.total - start) := by
  fun_induction goOn p (fun blocks _ => blocks + 1) id blocks start with
  | case1 blocks start hlt stop computed next ih =>
    have hstop : start < stop := p.lt_blockEnd hlt
    have hnext : next = blocks + 1 := ite_self _
    have hlast := p.blockEnd_le start
    omega
  | case2 => omega

/-- For each time that the note ends, how many frames were computed before it; and how many were
computed in all. -/
def ends (p : Performance α) : Nat × List Nat :=
  p.perform (fun s count => (s.1 + count, s.2)) (fun s => (s.1, s.2 ++ [s.1])) (0, [])

theorem ends_eq (p : Performance α) : p.ends = (p.total, [p.release]) := by
  have hcounts : Divisible fun (s : Nat × List Nat) count => (s.1 + count, s.2) :=
    ⟨fun _ => rfl, fun s m n => by rw [Nat.add_assoc]⟩
  rw [ends, hcounts.perform_eq]
  have hrelease := p.release_le
  simp only [Nat.zero_add, List.nil_append, Nat.add_sub_cancel' hrelease]

end Performance

/-- A recording has two samples a frame. -/
theorem Recording.length_samples (r : Recording) : r.samples.length = 2 * r.frames.length := by
  rw [samples, List.length_flatMap, Nat.mul_comm]
  simp only [List.length_cons, List.length_nil, List.map_const', List.sum_replicate_nat]

namespace Engine
variable {α U : Type} [Arithmetic α] [Playable α U]

/-- Frames in front of those there are, in two steps. -/
theorem generateOnto_add (frames : List (α × α)) (e : Engine α U) (m n : Nat) :
    e.generateOnto frames (m + n) =
      (e.generateOnto frames m).1.generateOnto (e.generateOnto frames m).2 n := by
  induction m generalizing e frames with
  | zero => rw [Nat.zero_add, generateOnto]
  | succ m ih =>
    rw [Nat.succ_add, generateOnto, generateOnto]
    exact ih _ _

theorem generateOnto_eq (frames : List (α × α)) (e : Engine α U) (count : Nat) :
    e.generateOnto frames count =
      ((e.generate count).1, (e.generate count).2.reverse ++ frames) := by
  rw [generate]
  dsimp only
  rw [List.reverse_reverse]
  induction count generalizing e frames with
  | zero => rfl
  | succ count ih =>
    rw [generateOnto, generateOnto]
    dsimp only
    rw [ih, ih [e.tick.2], List.append_assoc]
    rfl

theorem length_generate (e : Engine α U) (count : Nat) : (e.generate count).2.length = count := by
  have hlength : ∀ (frames : List (α × α)) (e : Engine α U),
      (e.generateOnto frames count).2.length = count + frames.length := by
    induction count with
    | zero => exact fun frames _ => (Nat.zero_add _).symm
    | succ count ih =>
      intro frames e
      rw [generateOnto]
      dsimp only
      rw [ih, List.length_cons]
      omega
  rw [generate]
  dsimp only
  rw [List.length_reverse, hlength, List.length_nil, Nat.add_zero]

/-- Some frames and then some more are all of them at once. -/
theorem generate_add (e : Engine α U) (m n : Nat) : e.generate (m + n) =
    (((e.generate m).1.generate n).1, (e.generate m).2 ++ ((e.generate m).1.generate n).2) := by
  have hparts := generateOnto_add [] e m n
  rw [generateOnto_eq, generateOnto_eq, generateOnto_eq, List.append_nil, List.append_nil,
    ← List.reverse_append, Prod.mk.injEq, List.reverse_inj] at hparts
  exact Prod.ext hparts.1 hparts.2

private theorem divisible_generateOnto : Performance.Divisible
    fun (s : Engine α U × List (α × α)) count => s.1.generateOnto s.2 count :=
  ⟨fun _ => rfl, fun s m n => generateOnto_add s.2 s.1 m n⟩

/-- The frames of the held note in front of those after its end. -/
private theorem play_eq_append (e : Engine α U) (p : Performance α) :
    let held := (e.noteOn p.note p.velocity).generate p.release
    let rest := (held.1.noteOff p.note).generate (p.total - p.release)
    e.play p = (rest.1, held.2 ++ rest.2) := by
  dsimp only
  rw [play]
  dsimp only
  rw [divisible_generateOnto.perform_eq, generateOnto_eq, generateOnto_eq, List.append_nil,
    List.reverse_append, List.reverse_reverse, List.reverse_reverse]

/-- Playing a note in blocks is starting it, computing the frames for which it is held, ending it,
and computing all other frames. In each case the loop comes to its end, ends the note once, and
leaves two samples a frame. -/
theorem play_in_blocks (e : Engine α U) (p : Performance α) (rate : Nat) (round : α → Float32) :
    let held := (e.noteOn p.note p.velocity).generate p.release
    let rest := (held.1.noteOff p.note).generate (p.total - p.release)
    let samples (frames : List (α × α)) : List Float32 :=
      Recording.samples ⟨rate, frames.map (Prod.map round round)⟩
    e.play p = (rest.1, held.2 ++ rest.2) ∧
      samples (e.play p).2 = samples held.2 ++ samples rest.2 ∧
      (samples (e.play p).2).length = 2 * p.total ∧
      p.ends = (p.total, [p.release]) ∧
      p.perform (fun blocks _ => blocks + 1) id 0 ≤ p.total ∧
      ∀ (e : Engine α U) (m n : Nat), e.generate (m + n) =
        (((e.generate m).1.generate n).1, (e.generate m).2 ++ ((e.generate m).1.generate n).2) := by
  have hplay := e.play_eq_append p
  have hblocks := p.goOn_blocks_le 0 0
  dsimp only at hplay ⊢
  rw [hplay]
  refine ⟨rfl, ?_, ?_, p.ends_eq, ?_, generate_add⟩
  · rw [Recording.samples, List.map_append, List.flatMap_append]
    rfl
  · have hrelease := p.release_le
    rw [Recording.length_samples, List.length_map, List.length_append, length_generate,
      length_generate, Nat.add_sub_cancel' hrelease]
  · rw [Performance.perform, id_eq, ite_self]
    omega

end Engine
end Patchbay
