import Mathlib.Data.List.Forall2
import Patchbay.Proofs.Engine.Reference

/-! The states in front of the samples of a run, one by one. They are those from which the frames of
the run come, and what calls and samples keep holds of all of them. -/
namespace Patchbay
open Reference
variable {α U : Type}

namespace Reference.Call
variable {σ τ : Type}

/-- The states in front of so many samples. -/
def frontsOf (tick : σ → σ) (s : σ) : Nat → List σ
  | 0 => []
  | n + 1 => s :: frontsOf tick (tick s) n

/-- The states in front of all samples that calls ask for. -/
def fronts (tick : σ → σ) (call : σ → Call α → σ) (s : σ) : List (Call α) → List σ
  | [] => []
  | .generate n :: rest => frontsOf tick s n ++ fronts tick call (call s (.generate n)) rest
  | c :: rest => fronts tick call (call s c) rest

variable {R : σ → τ → Prop} {tick : σ → σ} {tick' : τ → τ} {call : σ → Call α → σ}
  {call' : τ → Call α → τ}

/-- What samples and calls keep of two states holds in front of all samples. -/
theorem forall₂_fronts (htick : ∀ s t, R s t → R (tick s) (tick' t))
    (hcall : ∀ s t c, R s t → R (call s c) (call' t c)) {s : σ} {t : τ} (h : R s t)
    (calls : List (Call α)) :
    List.Forall₂ R (fronts tick call s calls) (fronts tick' call' t calls) := by
  have hof : ∀ (n : Nat) {s : σ} {t : τ}, R s t →
      List.Forall₂ R (frontsOf tick s n) (frontsOf tick' t n) := by
    intro n
    induction n with
    | zero => exact fun _ => .nil
    | succ n ih => exact fun h => .cons h (ih (htick _ _ h))
  induction calls generalizing s t with
  | nil => exact .nil
  | cons c rest ih =>
    have hrest := ih (hcall _ _ c h)
    cases c with
    | generate n => exact List.rel_append (hof n h) hrest
    | _ => exact hrest

end Reference.Call

namespace Engine
variable [Arithmetic α] [Playable α U]

/-- The engine in front of each sample. -/
def fronts (e : Engine α U) (calls : List (Call α)) : List (Engine α U) :=
  Call.fronts (fun e => e.tick.1) (fun e c => (e.call c).1) e calls

/-- An invariant of samples and calls holds in front of all samples. -/
theorem forall_fronts {P : Engine α U → Prop} (htick : ∀ e, P e → P e.tick.1)
    (hcall : ∀ e c, P e → P (e.call c).1) {e : Engine α U} (h : P e) (calls : List (Call α)) :
    ∀ front ∈ e.fronts calls, P front := by
  have hboth : List.Forall₂ (fun front _ => P front) (e.fronts calls) (e.fronts calls) :=
    Call.forall₂_fronts (fun e _ => htick e) (fun e _ c => hcall e c) h calls
  have hall := List.forall₂_same.mp hboth
  exact hall

private theorem frames_generateOnto (e : Engine α U) (frames : List (α × α)) (n : Nat) :
    (e.generateOnto frames n).2.reverse =
      frames.reverse ++ (Call.frontsOf (fun e => e.tick.1) e n).map fun e => e.tick.2 := by
  induction n generalizing e frames with
  | zero => exact (List.append_nil _).symm
  | succ n ih =>
    rw [generateOnto, Call.frontsOf]
    dsimp only
    rw [ih, List.reverse_cons, List.append_assoc]
    rfl

/-- The frames of a run are those that the engine gives from in front of each sample. -/
theorem frames_fronts (e : Engine α U) (calls : List (Call α)) :
    (e.run calls).2 = (e.fronts calls).map fun e => e.tick.2 := by
  induction calls generalizing e with
  | nil => rfl
  | cons c rest ih =>
    rw [run]
    dsimp only
    rw [ih]
    cases c with
    | generate n =>
      have hframes : (e.call (.generate n)).2 =
          (Call.frontsOf (fun e => e.tick.1) e n).map fun e => e.tick.2 :=
        frames_generateOnto e [] n
      rw [hframes]
      exact List.map_append.symm
    | _ => rfl

end Engine
end Patchbay
