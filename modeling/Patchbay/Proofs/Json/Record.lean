import Patchbay.Json.Number
import Patchbay.Json.Record
import Patchbay.Proofs.Json.RoundTrip

/-! Values of one kind as parts of records: what is written for them is proper and read again. -/
namespace Patchbay.Json
open Number (ReadsBack)

theorem proper_array {items : List Json} : (array items).Proper ↔ ∀ item ∈ items, item.Proper := by
  constructor
  · intro h
    cases h with
    | array h => exact h
  · exact .array

theorem proper_object {members : List (Option String × Json)} :
    (object members).Proper ↔ ∀ m ∈ members, m.1.isSome = true ∧ m.2.Proper := by
  constructor
  · intro h
    cases h with
    | object hkeys h => exact fun m hm => ⟨hkeys m hm, h m hm⟩
  · exact fun h => .object (fun m hm => (h m hm).1) fun m hm => (h m hm).2

@[simp] theorem proper_ofNat (n : Nat) : (Json.ofNat n).Proper := .number (Number.proper_ofNat n)

@[simp] theorem proper_bool (value : Bool) : (bool value).Proper := .bool value

@[simp] theorem proper_ofString (s : String) : (ofString s).Proper := .string s

theorem isFinite_of_not {x : Float} (h : ¬ (x.isNaN || x.isInf) = true) : x.isFinite = true :=
  Decimal.isFinite_iff.mpr (Bool.or_eq_false_iff.mp (Bool.eq_false_iff.mpr h))

theorem proper_ofFloat {x : Float} (h : ReadsBack x) : (ofFloat x).Proper := by
  rw [ofFloat]
  split
  · exact .null
  · next hx => exact .number (Number.proper_ofFloat (isFinite_of_not hx) h)

theorem isPlain_ofNat {n : Nat} (h : n < UInt64.size) (depth : Nat) :
    (Json.ofNat n).isPlain depth = true := Number.float?_ofNat h

theorem isPlain_ofFloat {x : Float} (h : ReadsBack x) (depth : Nat) :
    (ofFloat x).isPlain depth = true := by
  rw [ofFloat]
  split
  · rfl
  · next hx =>
    rw [isPlain, h (isFinite_of_not hx)]
    rfl

theorem natural?_ofNat {n : Nat} (h : n < UInt64.size) : (Json.ofNat n).natural? = some n :=
  Number.natural?_ofNat h

theorem lt_of_natural? {j : Json} {n : Nat} (h : j.natural? = some n) : n < UInt64.size := by
  cases j with
  | number m =>
    rw [natural?, Number.natural?] at h
    split at h
    · cases h
    · dsimp only at h
      split at h
      · next hlt =>
        cases h
        exact hlt
      · cases h
  | _ => cases h

theorem isFinite_of_float? {j : Json} {x : Float} (h : j.float? = some x) : x.isFinite = true := by
  cases j with
  | number n => exact Number.isFinite_of_float? h
  | _ => cases h

theorem float?_ofFloat {x : Float} (hfinite : x.isFinite = true) (h : ReadsBack x) :
    (ofFloat x).float? = some x := by
  obtain ⟨hnan, hinf⟩ := Decimal.isFinite_iff.mp hfinite
  rw [ofFloat, hnan, hinf]
  exact h hfinite

/-- Nothing is read where null stands for a number. -/
theorem isFinite_of_float?_ofFloat {x y : Float} (h : (ofFloat x).float? = some y) :
    x.isFinite = true := by
  rw [ofFloat] at h
  split at h
  · cases h
  · next hx => exact isFinite_of_not hx

@[simp] theorem text?_ofString (s : String) : (ofString s).text? = some s := rfl

theorem mapM_map {α β : Type} {read : β → Option α} {write : α → β} {xs : List α}
    (h : ∀ x ∈ xs, read (write x) = some x) : (xs.map write).mapM read = some xs := by
  induction xs with
  | nil => rfl
  | cons x xs ih =>
    obtain ⟨hx, hxs⟩ := List.forall_mem_cons.mp h
    rw [List.map_cons, List.mapM_cons, hx, ih hxs]
    rfl

theorem list?_map {α : Type} {read : Json → Option α} {write : α → Json} {xs : List α}
    (h : ∀ x ∈ xs, read (write x) = some x) : (array (xs.map write)).list? read = some xs :=
  mapM_map h

theorem exists_of_mapM {α β : Type} {read : β → Option α} {items : List β} {xs : List α}
    (h : items.mapM read = some xs) : ∀ x ∈ xs, ∃ item, read item = some x := by
  induction items generalizing xs with
  | nil =>
    cases h
    simp
  | cons item items ih =>
    rw [List.mapM_cons] at h
    obtain ⟨x, hx, h⟩ := Option.bind_eq_some_iff.mp h
    obtain ⟨ys, hys, h⟩ := Option.bind_eq_some_iff.mp h
    cases h
    exact List.forall_mem_cons.mpr ⟨⟨item, hx⟩, ih hys⟩

theorem isSome_of_mapM {α β : Type} {read : β → Option α} {items : List β} {xs : List α}
    (h : items.mapM read = some xs) : ∀ item ∈ items, ∃ x, read item = some x := by
  induction items generalizing xs with
  | nil => simp
  | cons item items ih =>
    rw [List.mapM_cons] at h
    obtain ⟨x, hx, h⟩ := Option.bind_eq_some_iff.mp h
    obtain ⟨ys, hys, h⟩ := Option.bind_eq_some_iff.mp h
    exact List.forall_mem_cons.mpr ⟨⟨x, hx⟩, ih hys⟩

theorem exists_of_list? {α : Type} {read : Json → Option α} {j : Json} {xs : List α}
    (h : j.list? read = some xs) : ∀ x ∈ xs, ∃ item, read item = some x := by
  cases j with
  | array items => exact exists_of_mapM h
  | _ => cases h

theorem exists_of_optional? {α : Type} {read : Json → Option α} {j : Option Json} {x : Option α}
    (h : optional? read j = some x) : ∀ y ∈ x, ∃ item, read item = some y := by
  rw [optional?.eq_def] at h
  split at h
  · cases h
    simp
  · cases h
    simp
  · next value _ =>
    obtain ⟨y, hy, rfl⟩ := Option.map_eq_some_iff.mp h
    rintro _ ⟨⟩
    exact ⟨value, hy⟩

end Patchbay.Json
