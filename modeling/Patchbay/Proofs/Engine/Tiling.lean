import Mathlib.Algebra.GroupWithZero.Nat
import Patchbay.Proofs.Engine.Numbering

/-! Extents laid end to end. They leave no gap and do not overlap: each place that they tile is in
exactly one of them. -/
namespace Patchbay.Extent
variable {β : Type} {e : Extent} {extents : List Extent} {first last k : Nat}

/-- Extents that follow one another from one place up to another. -/
inductive Tiles : Nat → List Extent → Nat → Prop
  | nil (k : Nat) : Tiles k [] k
  | cons {first next last : Nat} {rest : List Extent} (hle : first ≤ next)
    (hrest : Tiles next rest last) : Tiles first (⟨first, next⟩ :: rest) last

theorem tiles_tile (first : Nat) (sizes : List Nat) :
    Tiles first (tile first sizes) (first + sizes.sum) := by
  induction sizes generalizing first with
  | nil => exact .nil first
  | cons size rest ih =>
    rw [List.sum_cons, ← Nat.add_assoc]
    exact .cons (Nat.le_add_right first size) (ih (first + size))

theorem map_size_tile (first : Nat) (sizes : List Nat) : (tile first sizes).map size = sizes := by
  induction sizes generalizing first with
  | nil => rfl
  | cons size rest ih => rw [tile, List.map_cons, ih, Extent.size, Nat.add_sub_cancel_left]

theorem mem_toList : k ∈ e.toList ↔ e.start ≤ k ∧ k < e.stop := by
  rw [toList, List.mem_range'_1, size]
  omega

namespace Tiles

theorem le (h : Tiles first extents last) : first ≤ last := by
  induction h with
  | nil k => exact Nat.le_refl k
  | cons hle _ ih => exact Nat.le_trans hle ih

theorem bounds (h : Tiles first extents last) (he : e ∈ extents) (hk : k ∈ e.toList) :
    first ≤ k ∧ k < last := by
  induction h with
  | nil => cases he
  | cons hle hrest ih =>
    rcases List.mem_cons.mp he with rfl | he
    · obtain ⟨hstart, hstop⟩ := mem_toList.mp hk
      exact ⟨hstart, Nat.lt_of_lt_of_le hstop hrest.le⟩
    · obtain ⟨hnext, hlast⟩ := ih he
      exact ⟨Nat.le_trans hle hnext, hlast⟩

/-- Each place is in exactly one of the extents. -/
theorem existsUnique (h : Tiles first extents last) (hfirst : first ≤ k) (hlast : k < last) :
    ∃ i, (∃ e : Extent, extents[i]? = some e ∧ k ∈ e.toList) ∧
      ∀ (j : Nat) (e : Extent), extents[j]? = some e → k ∈ e.toList → j = i := by
  induction h with
  | nil => omega
  | @cons first next last rest hle hrest ih =>
    by_cases hnext : k < next
    · refine ⟨0, ⟨_, rfl, mem_toList.mpr ⟨hfirst, hnext⟩⟩, fun j e hj hk => ?_⟩
      cases j with
      | zero => rfl
      | succ j =>
        exact absurd (hrest.bounds (List.mem_of_getElem? hj) hk).1 (Nat.not_le_of_lt hnext)
    · obtain ⟨i, hi, hunique⟩ := ih (Nat.le_of_not_lt hnext) hlast
      refine ⟨i + 1, hi, fun j e hj hk => ?_⟩
      cases j with
      | zero =>
        cases hj
        exact absurd (mem_toList.mp hk).2 hnext
      | succ j => exact congrArg (· + 1) (hunique j e hj hk)

end Tiles

/-- What is found among appended lists is in one of them, in its extent. -/
theorem exists_of_getElem?_flatten {L : List (List β)} {b : β} (h : L.flatten[k]? = some b) :
    ∃ (i : Nat) (e : Extent) (l : List β), L[i]? = some l ∧
      (tile 0 (L.map List.length))[i]? = some e ∧ k ∈ e.toList ∧ l[k - e.start]? = some b := by
  have hlt : k < 0 + (L.map List.length).sum := by
    rw [Nat.zero_add, ← List.length_flatten]
    exact (List.getElem?_eq_some_iff.mp h).1
  obtain ⟨i, ⟨e, he, hk⟩, -⟩ := (tiles_tile 0 _).existsUnique (Nat.zero_le k) hlt
  have hi := (List.getElem?_eq_some_iff.mp he).1
  rw [length_tile, List.length_map] at hi
  have hl := List.getElem?_eq_getElem hi
  obtain ⟨e', he', hholds⟩ := tile_holds hl
  obtain rfl := Option.some.inj (he.symm.trans he')
  obtain ⟨hstart, hstop⟩ := mem_toList.mp hk
  have hj : k - e.start < e.size := by
    rw [size]
    omega
  obtain ⟨b', hb', hall⟩ := forall₂_getElem? hholds (getElem?_toList hj)
  rw [Nat.add_sub_cancel' hstart, h] at hall
  obtain rfl := Option.some.inj hall
  exact ⟨i, e, _, hl, he, hk, hb'⟩

end Patchbay.Extent
