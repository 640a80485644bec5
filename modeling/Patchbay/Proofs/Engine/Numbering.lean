import Mathlib.Data.List.Forall2
import Patchbay.Engine.Extent

/-! Numbering by extents: stretches laid end to end hold the lists that are appended, and what is
said of the parts of lists holds of the lists. -/
namespace Patchbay
variable {α β γ δ ε : Type}

section Except
variable {f : α → Except ε β}

theorem exists_of_bind_eq_ok {x : Except ε α} {b : β} (h : x >>= f = .ok b) :
    ∃ a, x = .ok a ∧ f a = .ok b := by
  cases x with
  | error fault => cases h
  | ok a => exact ⟨a, rfl, h⟩

theorem forall₂_of_mapM {l : List α} {r : List β} (h : l.mapM f = .ok r) :
    List.Forall₂ (fun a b => f a = .ok b) l r := by
  induction l generalizing r with
  | nil =>
    cases h
    exact .nil
  | cons a rest ih =>
    rw [List.mapM_cons] at h
    obtain ⟨b, hb, h⟩ := exists_of_bind_eq_ok h
    obtain ⟨bs, hbs, h⟩ := exists_of_bind_eq_ok h
    cases h
    exact .cons hb (ih hbs)

theorem forall₂_of_flatMapM {f : α → Except ε (List β)} {l : List α} {r : List β}
    (h : l.flatMapM f = .ok r) :
    ∃ parts, List.Forall₂ (fun a part => f a = .ok part) l parts ∧ r = parts.flatten := by
  induction l generalizing r with
  | nil =>
    cases h
    exact ⟨[], .nil, rfl⟩
  | cons a rest ih =>
    rw [List.flatMapM_cons] at h
    obtain ⟨part, hpart, h⟩ := exists_of_bind_eq_ok h
    obtain ⟨others, hothers, h⟩ := exists_of_bind_eq_ok h
    cases h
    obtain ⟨parts, hparts, rfl⟩ := ih hothers
    exact ⟨part :: parts, .cons hpart hparts, rfl⟩

theorem of_forM_eq_ok {f : α → Except ε Unit} {l : List α} (h : l.forM f = .ok ()) :
    ∀ a ∈ l, f a = .ok () := by
  induction l with
  | nil => exact fun a ha => absurd ha List.not_mem_nil
  | cons first rest ih =>
    have hbind : (f first >>= fun _ => rest.forM f) = .ok () := h
    obtain ⟨_, hfirst, hrest⟩ := exists_of_bind_eq_ok hbind
    intro a ha
    rcases List.mem_cons.mp ha with rfl | ha
    · exact hfirst
    · exact ih hrest a ha

end Except

section Forall₂
variable {R : α → β → Prop} {l : List α} {r : List β}

theorem forall₂_getElem? (h : List.Forall₂ R l r) {i : Nat} {a : α} (ha : l[i]? = some a) :
    ∃ b, r[i]? = some b ∧ R a b := by
  induction h generalizing i with
  | nil => cases ha
  | cons hab _ ih =>
    cases i with
    | zero =>
      cases ha
      exact ⟨_, rfl, hab⟩
    | succ i => exact ih ha

theorem forall₂_of_getElem? (hl : l.length = r.length)
    (h : ∀ (i : Nat) (a : α) (b : β), l[i]? = some a → r[i]? = some b → R a b) :
    List.Forall₂ R l r := by
  refine List.forall₂_iff_get.mpr ⟨hl, fun i hi hj => ?_⟩
  exact h i _ _ (List.getElem?_eq_getElem hi) (List.getElem?_eq_getElem hj)

theorem exists_of_mem_right (h : List.Forall₂ R l r) {b : β} (hb : b ∈ r) : ∃ a ∈ l, R a b := by
  obtain ⟨i, hi⟩ := List.getElem?_of_mem hb
  obtain ⟨a, ha, hr⟩ := forall₂_getElem? h.flip hi
  exact ⟨a, List.mem_of_getElem? ha, hr⟩

end Forall₂

namespace Extent
variable {e : Extent} {all l : List β}

/-- The places of an extent hold a list. -/
def Holds (e : Extent) (all l : List β) : Prop :=
  List.Forall₂ (fun i b => all[i]? = some b) e.toList l

theorem Holds.size_eq (h : e.Holds all l) : e.size = l.length := by
  rw [← h.length_eq, toList, List.length_range']

theorem getElem?_toList {j : Nat} (h : j < e.size) : e.toList[j]? = some (e.start + j) := by
  rw [toList, List.getElem?_range' h, Nat.one_mul]

theorem Holds.getElem? (h : e.Holds all l) {j : Nat} {b : β} (hb : l[j]? = some b) :
    all[e.start + j]? = some b := by
  have hj : j < e.size := h.size_eq ▸ (List.getElem?_eq_some_iff.mp hb).1
  obtain ⟨c, hc, hall⟩ := forall₂_getElem? h (getElem?_toList hj)
  rw [hb] at hc
  cases hc
  exact hall

theorem Holds.exists_of_mem (h : e.Holds all l) {k : Nat} (hk : k ∈ e.toList) :
    ∃ b ∈ l, all[k]? = some b := by
  obtain ⟨j, hj⟩ := List.mem_iff_getElem?.mp hk
  obtain ⟨b, hb, hall⟩ := forall₂_getElem? h hj
  exact ⟨b, List.mem_of_getElem? hb, hall⟩

/-- What is computed place by place is computed from the list. -/
theorem Holds.map_eq (h : e.Holds all l) {f : Nat → γ} {g : β → γ}
    (hf : ∀ (i : Nat), ∀ b ∈ l, all[i]? = some b → f i = g b) : e.toList.map f = l.map g := by
  rw [Holds] at h
  generalize e.toList = places at h ⊢
  induction h with
  | nil => rfl
  | cons hb _ ih =>
    have hrest := ih fun i b hm => hf i b (List.mem_cons_of_mem _ hm)
    rw [List.map_cons, List.map_cons, hrest, hf _ _ List.mem_cons_self hb]

private theorem holds_between (before after : List β) :
    (⟨before.length, before.length + l.length⟩ : Extent).Holds (before ++ (l ++ after)) l := by
  have hsize : (⟨before.length, before.length + l.length⟩ : Extent).size = l.length :=
    Nat.add_sub_cancel_left _ _
  have hlen : (⟨before.length, before.length + l.length⟩ : Extent).toList.length = l.length := by
    rw [toList, List.length_range', hsize]
  refine forall₂_of_getElem? hlen fun i a b ha hb => ?_
  have hi := (List.getElem?_eq_some_iff.mp hb).1
  rw [getElem?_toList (Nat.lt_of_lt_of_eq hi hsize.symm)] at ha
  obtain rfl := Option.some.inj ha
  rw [List.getElem?_append_right (Nat.le_add_right _ _), Nat.add_sub_cancel_left,
    List.getElem?_append_left hi, hb]

theorem length_tile (start : Nat) (sizes : List Nat) : (tile start sizes).length = sizes.length := by
  induction sizes generalizing start with
  | nil => rfl
  | cons size rest ih => rw [tile, List.length_cons, ih, List.length_cons]

/-- Extents laid end to end hold the lists that are appended. -/
theorem tile_holds {L : List (List β)} {i : Nat} {l : List β} (hl : L[i]? = some l) :
    ∃ e, (tile 0 (L.map List.length))[i]? = some e ∧ e.Holds L.flatten l := by
  have from' : ∀ (L : List (List β)) (before : List β) (i : Nat), L[i]? = some l →
      ∃ e, (tile before.length (L.map List.length))[i]? = some e ∧
        e.Holds (before ++ L.flatten) l := by
    intro L
    induction L with
    | nil => intro before i hl; cases hl
    | cons first rest ih =>
      intro before i hl
      rw [List.map_cons, tile, List.flatten_cons]
      cases i with
      | zero =>
        cases hl
        exact ⟨_, rfl, holds_between before rest.flatten⟩
      | succ i =>
        obtain ⟨e, he, h⟩ := ih (before ++ first) i hl
        rw [List.length_append] at he
        rw [List.append_assoc] at h
        exact ⟨e, he, h⟩
  exact from' L [] i hl

/-- An extent looked up among those laid end to end. -/
theorem holds_getD_tile {L : List (List β)} {i : Nat} {l : List β} (hl : L[i]? = some l) :
    ((tile 0 (L.map List.length)).toArray.getD i ⟨0, 0⟩).Holds L.flatten l := by
  obtain ⟨e, he, h⟩ := tile_holds hl
  rwa [Array.getD_eq_getD_getElem?, List.getElem?_toArray, he, Option.getD_some]

end Extent
end Patchbay
