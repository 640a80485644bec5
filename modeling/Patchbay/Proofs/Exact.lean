import Mathlib.Analysis.SpecialFunctions.Log.Base
import Patchbay.Proofs.Meaning.Preserved

/-! What the operations on signals are on real numbers, and durations among them. -/
namespace Patchbay

namespace Arithmetic

theorem le_iff (x y : ℝ) : le x y = true ↔ x ≤ y := decide_eq_true_iff

theorem lt_iff (x y : ℝ) : lt x y = true ↔ x < y := decide_eq_true_iff

theorem natural_zero : (natural 0 : ℝ) = 0 := by rw [natural_cast, Nat.cast_zero]

theorem natural_one : (natural 1 : ℝ) = 1 := by rw [natural_cast, Nat.cast_one]

theorem atLeast_eq (bound x : ℝ) : atLeast bound x = max bound x := by
  rw [atLeast]
  split
  · next h => exact (max_eq_right ((lt_iff _ _).mp h).le).symm
  · next h => exact (max_eq_left (not_lt.mp (mt (lt_iff _ _).mpr h))).symm

end Arithmetic

namespace Quantity

theorem referenceHertz_pos : (0 : ℝ) < referenceHertz := by
  show (0 : ℝ) < ((2616255653005986 : ℕ) : ℝ) / ((10000000000000 : ℕ) : ℝ)
  positivity

/-- Every duration takes some time. -/
theorem toSeconds_pos (value : ℝ) : 0 < toSeconds value := by
  have href := referenceHertz_pos
  show (0 : ℝ) < ((1 : ℕ) : ℝ) / (referenceHertz * ((2 : ℕ) : ℝ) ^ value)
  positivity

theorem toSeconds_fromSeconds {seconds : ℝ} (h : 0 < seconds) :
    toSeconds (fromSeconds seconds) = seconds := by
  have href := referenceHertz_pos
  show ((1 : ℕ) : ℝ) / (referenceHertz * ((2 : ℕ) : ℝ) ^
    Real.logb ((2 : ℕ) : ℝ) (((1 : ℕ) : ℝ) / seconds / referenceHertz)) = seconds
  rw [Real.rpow_logb (by norm_num) (by norm_num) (by push_cast; positivity)]
  push_cast
  field_simp

end Quantity
end Patchbay
