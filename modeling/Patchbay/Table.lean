/-! Tables: values under names, in the order in which the names came in. -/
namespace Patchbay

structure Table (α : Type) where
  entries : List (String × α)
  distinct : (entries.map Prod.fst).Nodup

namespace Table

/-- Put a value under a name: in place of the old one, or behind all others. -/
def putEntry (name : String) (value : α) : List (String × α) → List (String × α)
  | [] => [(name, value)]
  | e :: rest => if e.1 = name then (name, value) :: rest else e :: putEntry name value rest

theorem map_fst_putEntry (name : String) (value : α) (es : List (String × α)) :
    (putEntry name value es).map Prod.fst =
      if name ∈ es.map Prod.fst then es.map Prod.fst else es.map Prod.fst ++ [name] := by
  induction es with
  | nil => simp [putEntry]
  | cons e rest ih =>
    by_cases h : e.1 = name
    · simp [putEntry, h]
    · simp only [putEntry, if_neg h, List.map_cons, ih, List.mem_cons]
      by_cases hm : name ∈ rest.map Prod.fst <;> simp [hm, Ne.symm h]

def empty : Table α := ⟨[], List.nodup_nil⟩

instance : Inhabited (Table α) := ⟨empty⟩

def names (t : Table α) : List String := t.entries.map Prod.fst

def values (t : Table α) : List α := t.entries.map Prod.snd

def size (t : Table α) : Nat := t.entries.length

def get? (t : Table α) (name : String) : Option α := t.entries.lookup name

def contains (t : Table α) (name : String) : Bool := (t.get? name).isSome

/-- Put a value under a name. A new name comes last, a known one keeps its place. -/
def put (t : Table α) (name : String) (value : α) : Table α :=
  ⟨putEntry name value t.entries, by
    rw [map_fst_putEntry]
    split
    · exact t.distinct
    · next h =>
      refine List.nodup_append.mpr ⟨t.distinct, by simp, fun a ha b hb => ?_⟩
      rintro rfl
      exact h (List.mem_singleton.mp hb ▸ ha)⟩

def putAll (t : Table α) (es : List (String × α)) : Table α :=
  es.foldl (fun t e => t.put e.1 e.2) t

def ofList (es : List (String × α)) : Table α := empty.putAll es

theorem lookup_cons (name : String) (e : String × α) (es : List (String × α)) :
    (e :: es).lookup name = if name = e.1 then some e.2 else es.lookup name := by
  rw [List.lookup_cons]
  by_cases h : name = e.1
  · rw [if_pos h, beq_iff_eq.mpr h]
  · rw [if_neg h, beq_false_of_ne h]

/-- What was put last under a name is found there, and other names are left alone. -/
theorem get?_put (t : Table α) (name other : String) (value : α) :
    (t.put name value).get? other = if other = name then some value else t.get? other := by
  simp only [get?, put]
  induction t.entries with
  | nil => rw [putEntry, lookup_cons]
  | cons e rest ih =>
    by_cases he : e.1 = name
    · by_cases h : other = name <;> simp [putEntry, lookup_cons, he, h]
    · by_cases h : other = e.1
      · simp [putEntry, lookup_cons, he, h]
      · simp only [putEntry, if_neg he, lookup_cons, if_neg h, ih]

end Patchbay.Table
