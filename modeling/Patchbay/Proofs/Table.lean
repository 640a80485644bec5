import Patchbay.Table

/-! Tables: what is found in them, and tables whose values are changed one by one. -/
namespace Patchbay.Table
variable {α β : Type}

/-- Where no key comes twice, what is found under a key is what stands with it. -/
theorem lookup_eq_some_iff_mem {es : List (String × α)} (hn : (es.map Prod.fst).Nodup)
    {key : String} {value : α} : es.lookup key = some value ↔ (key, value) ∈ es := by
  induction es with
  | nil => simp
  | cons e rest ih =>
    obtain ⟨k, v⟩ := e
    obtain ⟨hk, hr⟩ := List.nodup_cons.mp hn
    rw [List.lookup_cons]
    by_cases h : key = k
    · subst h
      have hnot : (key, value) ∉ rest := fun hm => hk (List.mem_map.mpr ⟨_, hm, rfl⟩)
      simp [hnot, eq_comm]
    · rw [beq_false_of_ne h, List.mem_cons, Prod.mk.injEq]
      exact (ih hr).trans (by simp [h])

theorem get?_eq_some_iff (t : Table α) (name : String) (value : α) :
    t.get? name = some value ↔ (name, value) ∈ t.entries :=
  lookup_eq_some_iff_mem t.distinct

/-- Change every value. -/
def map (f : α → β) (t : Table α) : Table β :=
  ⟨t.entries.map fun e => (e.1, f e.2), by
    rw [List.map_map]
    exact t.distinct⟩

theorem get?_map (f : α → β) (t : Table α) (name : String) :
    (t.map f).get? name = (t.get? name).map f := by
  show (t.entries.map fun e => (e.1, f e.2)).lookup name = (t.entries.lookup name).map f
  induction t.entries with
  | nil => rfl
  | cons e rest ih =>
    rw [List.map_cons, List.lookup_cons, List.lookup_cons]
    split
    · rfl
    · exact ih

theorem contains_map (f : α → β) (t : Table α) (name : String) :
    (t.map f).contains name = t.contains name := by
  rw [contains, contains, get?_map, Option.isSome_map]

theorem map_put (f : α → β) (t : Table α) (name : String) (value : α) :
    (t.put name value).map f = (t.map f).put name (f value) := by
  simp only [map, put, mk.injEq]
  induction t.entries with
  | nil => rfl
  | cons e rest ih =>
    rw [putEntry, List.map_cons, putEntry]
    split
    · rfl
    · rw [List.map_cons, ih]

theorem map_ofList (f : α → β) (es : List (String × α)) :
    (ofList es).map f = ofList (es.map fun e => (e.1, f e.2)) := by
  have fold : ∀ (es : List (String × α)) (t : Table α),
      (t.putAll es).map f = (t.map f).putAll (es.map fun e => (e.1, f e.2)) := by
    intro es
    induction es with
    | nil => exact fun _ => rfl
    | cons e rest ih =>
      intro t
      rw [putAll, List.foldl_cons, ← putAll, ih, map_put]
      rfl
  exact fold es empty

/-- Of values put under distinct names each is found under its own. -/
theorem get?_putAll {t : Table α} {es : List (String × α)} {e : String × α}
    (hn : (es.map Prod.fst).Nodup) (he : e ∈ es) : (t.putAll es).get? e.1 = some e.2 := by
  have hother : ∀ {es : List (String × α)} {t : Table α} {name : String},
      name ∉ es.map Prod.fst → (t.putAll es).get? name = t.get? name := by
    intro es
    induction es with
    | nil => exact fun _ => rfl
    | cons d rest ih =>
      intro t name hname
      rw [List.map_cons, List.mem_cons, not_or] at hname
      rw [putAll, List.foldl_cons, ← putAll, ih hname.2, get?_put, if_neg hname.1]
  induction es generalizing t with
  | nil => exact absurd he List.not_mem_nil
  | cons d rest ih =>
    rw [List.map_cons, List.nodup_cons] at hn
    rw [putAll, List.foldl_cons, ← putAll]
    rcases List.mem_cons.mp he with rfl | he
    · rw [hother hn.1, get?_put, if_pos rfl]
    · exact ih hn.2 he

end Patchbay.Table
