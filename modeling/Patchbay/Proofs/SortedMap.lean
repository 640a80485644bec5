import Mathlib.Data.List.Forall2
import Mathlib.Data.List.Nodup
import Patchbay.Proofs.Table
import Patchbay.SortedMap

/-! Sorted maps hold what was put into them, once under each key. -/
namespace Patchbay.SortedMap
variable {α β : Type}

theorem nodup_keys (m : SortedMap α) : (m.entries.map Prod.fst).Nodup := by
  refine List.pairwise_map.mpr (m.sorted.imp ?_)
  intro a b h he
  exact String.lt_irrefl _ (he ▸ h)

theorem get?_eq_some_iff (m : SortedMap α) (key : String) (value : α) :
    m.get? key = some value ↔ (key, value) ∈ m.entries :=
  Table.lookup_eq_some_iff_mem m.nodup_keys

/-- What was inserted last under a key is found there, and other keys are left alone. -/
theorem get?_insert (m : SortedMap α) (key other : String) (value : α) :
    (m.insert key value).get? other = if other = key then some value else m.get? other := by
  show (insertEntry key value m.entries).lookup other = if _ then _ else m.entries.lookup other
  induction m.entries with
  | nil => rw [insertEntry, Table.lookup_cons]
  | cons e rest ih =>
    rw [insertEntry, Table.lookup_cons other e]
    split
    · rw [Table.lookup_cons, Table.lookup_cons]
    · split
      · next hkey => by_cases h : other = key <;> simp [Table.lookup_cons, h, hkey]
      · next hkey =>
        by_cases h : other = e.1
        · simp [Table.lookup_cons, h, hkey]
        · rw [Table.lookup_cons, if_neg h, if_neg h, ih]

theorem mem_values {m : SortedMap α} {key : String} {value : α} (h : m.get? key = some value) :
    value ∈ m.values :=
  List.mem_map_of_mem (f := Prod.snd) ((m.get?_eq_some_iff key value).mp h)

theorem perm_insertEntry {key : String} {value : α} {es : List (String × α)}
    (h : key ∉ es.map Prod.fst) : (insertEntry key value es).Perm ((key, value) :: es) := by
  induction es with
  | nil => exact .refl _
  | cons e rest ih =>
    obtain ⟨hne, hr⟩ := not_or.mp (mt List.mem_cons.mpr h)
    rw [insertEntry]
    split
    · exact .refl _
    · rw [if_neg (Ne.symm hne)]
      exact ((ih hr).cons e).trans (.swap _ _ _)

/-- The map of entries whose keys differ has just these entries. -/
theorem perm_ofList {es : List (String × α)} (h : (es.map Prod.fst).Nodup) :
    (ofList es).entries.Perm es := by
  have fold : ∀ (es : List (String × α)) (m : SortedMap α),
      ((m.entries ++ es).map Prod.fst).Nodup →
        (es.foldl (fun m e => m.insert e.1 e.2) m).entries.Perm (m.entries ++ es) := by
    intro es
    induction es with
    | nil => intro m _; simp
    | cons e rest ih =>
      intro m hn
      have hmid : (m.entries ++ e :: rest).Perm (e :: (m.entries ++ rest)) := List.perm_middle
      have hn' : ((e :: (m.entries ++ rest)).map Prod.fst).Nodup :=
        (hmid.map Prod.fst).nodup_iff.mp hn
      have hfresh : e.1 ∉ m.entries.map Prod.fst := by
        intro hm
        refine (List.nodup_cons.mp hn').1 ?_
        rw [List.map_append]
        exact List.mem_append_left _ hm
      have hins : ((m.insert e.1 e.2).entries ++ rest).Perm (m.entries ++ e :: rest) :=
        ((perm_insertEntry hfresh).append_right rest).trans hmid.symm
      exact (ih (m.insert e.1 e.2) ((hins.map Prod.fst).nodup_iff.mpr hn)).trans hins
  exact fold es empty h

theorem get?_ofList {es : List (String × α)} (h : (es.map Prod.fst).Nodup) {key : String}
    {value : α} (hm : (key, value) ∈ es) : (ofList es).get? key = some value :=
  (get?_eq_some_iff _ _ _).mpr ((perm_ofList h).mem_iff.mpr hm)

theorem mem_ofList {es : List (String × α)} {e : String × α} (h : e ∈ (ofList es).entries) :
    e ∈ es := by
  have fold : ∀ (es : List (String × α)) (m : SortedMap α),
      e ∈ (es.foldl (fun m e => m.insert e.1 e.2) m).entries → e ∈ m.entries ∨ e ∈ es := by
    intro es
    induction es with
    | nil => exact fun m h => .inl h
    | cons d rest ih =>
      intro m h
      rcases ih (m.insert d.1 d.2) h with h | h
      · rcases mem_insertEntry h with rfl | h
        · exact .inr List.mem_cons_self
        · exact .inl h
      · exact .inr (List.mem_cons_of_mem _ h)
  exact (fold es empty h).resolve_left List.not_mem_nil

/-- Maps that have the same entries in any order are the same. -/
theorem eq_of_perm {m n : SortedMap α} (h : m.entries.Perm n.entries) : m = n := by
  have heq : m.entries = n.entries :=
    h.eq_of_pairwise (fun a b _ _ hab hba => absurd hba (String.lt_asymm hab)) m.sorted n.sorted
  cases m
  cases n
  cases heq
  rfl

/-- Maps that give the same value for each key are the same. -/
theorem ext_get? {m n : SortedMap α} (h : ∀ key, m.get? key = n.get? key) : m = n := by
  have hm : m.entries.Nodup := m.nodup_keys.of_map
  have hn : n.entries.Nodup := n.nodup_keys.of_map
  refine eq_of_perm ((List.perm_ext_iff_of_nodup hm hn).mpr fun e => ?_)
  obtain ⟨key, value⟩ := e
  rw [← get?_eq_some_iff, ← get?_eq_some_iff, h]

/-- The entries of a map make the map again. -/
theorem ofList_entries (m : SortedMap α) : ofList m.entries = m :=
  eq_of_perm (perm_ofList m.nodup_keys)

@[simp] theorem entries_map (f : α → β) (m : SortedMap α) :
    (m.map f).entries = m.entries.map fun e => (e.1, f e.2) := rfl

theorem get?_map (f : α → β) (m : SortedMap α) (key : String) :
    (m.map f).get? key = (m.get? key).map f := by
  rw [get?, get?, entries_map]
  induction m.entries with
  | nil => rfl
  | cons e rest ih =>
    rw [List.map_cons, List.lookup_cons, List.lookup_cons]
    split
    · rfl
    · exact ih

theorem map_insertEntry (f : α → β) (key : String) (value : α) (es : List (String × α)) :
    (insertEntry key value es).map (fun e => (e.1, f e.2)) =
      insertEntry key (f value) (es.map fun e => (e.1, f e.2)) := by
  induction es with
  | nil => rfl
  | cons e rest ih =>
    rw [insertEntry, List.map_cons, insertEntry]
    split
    · rfl
    · split
      · rfl
      · rw [List.map_cons, ih]

/-- Values may be changed before they are put into a map, or there. -/
theorem map_ofList (f : α → β) (es : List (String × α)) :
    (ofList es).map f = ofList (es.map fun e => (e.1, f e.2)) := by
  have hinsert : ∀ (m : SortedMap α) (e : String × α),
      (m.insert e.1 e.2).map f = (m.map f).insert e.1 (f e.2) := by
    intro m e
    simp only [map, insert, map_insertEntry]
  have fold : ∀ (es : List (String × α)) (m : SortedMap α),
      (es.foldl (fun m e => m.insert e.1 e.2) m).map f =
        (es.map fun e => (e.1, f e.2)).foldl (fun m e => m.insert e.1 e.2) (m.map f) := by
    intro es
    induction es with
    | nil => exact fun _ => rfl
    | cons e rest ih =>
      intro m
      rw [List.foldl_cons, List.map_cons, List.foldl_cons, ih, hinsert]
  exact fold es empty

private theorem forall₂_insertEntry {R : α → β → Prop} (key : String) {value : α} {value' : β}
    (hvalue : R value value') {es : List (String × α)} {es' : List (String × β)}
    (h : List.Forall₂ (fun e e' => e.1 = e'.1 ∧ R e.2 e'.2) es es') :
    List.Forall₂ (fun e e' => e.1 = e'.1 ∧ R e.2 e'.2) (insertEntry key value es)
      (insertEntry key value' es') := by
  induction h with
  | nil => exact .cons ⟨rfl, hvalue⟩ .nil
  | cons hfirst hrest ih =>
    rw [insertEntry, insertEntry, ← hfirst.1]
    split
    · exact .cons ⟨rfl, hvalue⟩ (.cons hfirst hrest)
    · split
      · exact .cons ⟨rfl, hvalue⟩ hrest
      · exact .cons hfirst ih

/-- Values that are related one by one under the same keys stay so when they are put into maps. -/
theorem forall₂_ofList {R : α → β → Prop} {es : List (String × α)} {es' : List (String × β)}
    (h : List.Forall₂ (fun e e' => e.1 = e'.1 ∧ R e.2 e'.2) es es') :
    List.Forall₂ (fun e e' => e.1 = e'.1 ∧ R e.2 e'.2) (ofList es).entries (ofList es').entries := by
  have fold : ∀ (m : SortedMap α) (m' : SortedMap β),
      List.Forall₂ (fun e e' => e.1 = e'.1 ∧ R e.2 e'.2) m.entries m'.entries →
        List.Forall₂ (fun e e' => e.1 = e'.1 ∧ R e.2 e'.2)
          (es.foldl (fun m e => m.insert e.1 e.2) m).entries
          (es'.foldl (fun m e => m.insert e.1 e.2) m').entries := by
    induction h with
    | nil => exact fun _ _ hm => hm
    | @cons e e' _ _ hfirst _ ih =>
      intro m m' hm
      refine ih (m.insert e.1 e.2) (m'.insert e'.1 e'.2) ?_
      rw [← hfirst.1]
      exact forall₂_insertEntry e.1 hfirst.2 hm
  exact fold empty empty .nil

/-- Keep the entries whose keys pass. -/
def restrict (p : String → Bool) (m : SortedMap α) : SortedMap α :=
  ⟨m.entries.filter (p ·.1), m.sorted.filter _⟩

theorem get?_restrict (p : String → Bool) (m : SortedMap α) (key : String) :
    (m.restrict p).get? key = if p key then m.get? key else none := by
  apply Option.ext
  intro value
  rw [get?_eq_some_iff, restrict, List.mem_filter]
  split
  · next h => simp [get?_eq_some_iff, h]
  · next h => simp [h]

end Patchbay.SortedMap
