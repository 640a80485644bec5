import Patchbay.Proofs.Engine.Represents

/-! One instance at a time, an engine and a player compute the same: what is stored are the outputs
of one place, and from the instance to the sample and to a run of calls both stay in step. -/
namespace Patchbay
open Reference Reference.Patch Wiring
variable {α U : Type} [Arithmetic α] [Playable α U]

namespace Engine

section Store
variable {values : Array α} {slots : Extent} {signals : List α}

omit [Arithmetic α] in
private theorem getElem?_foldl_of_notMem {writes : List (Nat × α)} {k : Nat}
    (h : ∀ s ∈ writes, s.1 ≠ k) :
    (writes.foldl (fun values s => values.setIfInBounds s.1 s.2) values)[k]? = values[k]? := by
  induction writes generalizing values with
  | nil => rfl
  | cons first rest ih =>
    rw [List.foldl_cons, ih fun s hs => h s (List.mem_cons_of_mem _ hs)]
    exact Array.getElem?_setIfInBounds_ne (h first List.mem_cons_self)

omit [Arithmetic α] in
theorem getElem?_store_of_notMem {k : Nat} (h : k ∉ slots.toList) :
    (store values slots signals)[k]? = values[k]? := by
  apply getElem?_foldl_of_notMem
  rintro s hs rfl
  exact h (List.of_mem_zip hs).1

omit [Arithmetic α] in
/-- An extent takes signals in order, and keeps what there is no signal for. -/
theorem getElem?_store {i : Nat} (h : i < slots.size) :
    (store values slots signals)[slots.start + i]? =
      values[slots.start + i]?.map (signals.getD i) := by
  rw [store, Extent.toList]
  generalize slots.start = start
  generalize slots.size = size at h
  induction size generalizing i start values signals with
  | zero => exact absurd h (Nat.not_lt_zero i)
  | succ size ih =>
    cases signals with
    | nil =>
      rw [List.zip_nil_right, List.foldl_nil]
      cases values[start + i]? with
      | none => rfl
      | some value => rfl
    | cons first rest =>
      rw [List.range'_succ, List.zip_cons_cons, List.foldl_cons]
      cases i with
      | zero =>
        rw [getElem?_foldl_of_notMem, Nat.add_zero, Array.getElem?_setIfInBounds_self]
        · by_cases hlt : start < values.size
          · simp [hlt]
          · simp [hlt]
        · rintro ⟨k, signal⟩ hs
          have hk := List.left_le_of_mem_range' (List.of_mem_zip hs).1
          dsimp only
          omega
      | succ i =>
        have hne : start ≠ start + 1 + i := by omega
        have hadd : start + (i + 1) = start + 1 + i := by omega
        rw [hadd, ih (start + 1) (Nat.lt_of_succ_lt_succ h),
          Array.getElem?_setIfInBounds_ne hne]
        rfl

omit [Arithmetic α] in
theorem size_store : (store values slots signals).size = values.size := by
  rw [store]
  generalize slots.toList.zip signals = writes
  induction writes generalizing values with
  | nil => rfl
  | cons first rest ih => rw [List.foldl_cons, ih, Array.size_setIfInBounds]

end Store

variable {e : Engine α U} {id : Nat} {unit : U}

/-- What computing an instance does: its unit and the slots of its outputs are what the unit makes
of the signals at its sockets. -/
theorem computeInstance_eq (h : e.units[id]? = some unit) (frame : α × α) :
    e.computeInstance frame id =
      ({ e with
          units := e.units.setIfInBounds id (Playable.process unit (inputsOf e.wiring e.values id)).1
          values := store e.values (e.wiring.outputs.getD id ⟨0, 0⟩)
            (Playable.process unit (inputsOf e.wiring e.values id)).2 },
        if id = e.wiring.output then
          ((inputsOf e.wiring e.values id).getD e.wiring.left (Arithmetic.natural 0),
            (inputsOf e.wiring e.values id).getD e.wiring.right (Arithmetic.natural 0))
        else frame) := by
  obtain ⟨hlt, hunit⟩ := Array.getElem?_eq_some_iff.mp h
  have hset : e.units.set id default hlt = e.units.setIfInBounds id default := by
    rw [Array.setIfInBounds_def, dif_pos hlt]
  rw [computeInstance]
  simp only [dif_pos hlt, takeUnit, Array.swapAt_def, hunit, hset,
    Array.setIfInBounds_setIfInBounds]

end Engine

namespace Wiring
variable {p : Patch α} {w : Wiring α} {latest : Place → Nat → α}

/-- The slots of an instance are those of the outputs of its place. -/
theorem holds_outputs (hw : Wired p w) {id : Nat} {place : Place} (hid : p.At id place) :
    (w.outputs.getD id ⟨0, 0⟩).Holds p.slots (p.slotsOf place) := by
  obtain ⟨extent, hextent, hholds⟩ := getElem?_outputTable hid
  rwa [hw.outputs, Array.getD_eq_getD_getElem?, List.getElem?_toArray, hextent, Option.getD_some]

/-- Storing signals changes no slot but those of one place. -/
theorem getElem?_store_of_other (hw : Wired p w) {values : Array α} {id : Nat} {place : Place}
    (hid : p.At id place) {k : Nat} (hk : ∀ i, p.slots[k]? ≠ some (place, i)) (signals : List α) :
    (Engine.store values (w.outputs.getD id ⟨0, 0⟩) signals)[k]? = values[k]? := by
  apply Engine.getElem?_store_of_notMem
  intro hm
  obtain ⟨⟨place', i⟩, hslot, hi⟩ := (holds_outputs hw hid).exists_of_mem hm
  obtain rfl : place' = place := p.fst_of_mem_slotsOf hslot
  exact hk i hi

/-- The values of all but one place stay, and that place takes signals. -/
theorem Stores.store (hw : Wired p w) {values : Array α} (h : Stores p w values latest)
    {id : Nat} {place : Place} (hid : p.At id place) (signals : List α) :
    Stores p w (Engine.store values (w.outputs.getD id ⟨0, 0⟩) signals)
      (Function.update latest place fun i => signals.getD i (latest place i)) := by
  have hholds := holds_outputs hw hid
  constructor
  · intro k place' i hk
    by_cases heq : place' = place
    · subst heq
      have hi := p.lt_of_mem_slots (List.mem_of_getElem? hk)
      have hstart := hholds.getElem? (p.getElem?_slotsOf hi)
      have hlt := (List.getElem?_eq_some_iff.mp hk).1
      obtain rfl := (List.getElem?_inj hlt p.nodup_slots).mp (hk.trans hstart.symm)
      have hsize : i < (w.outputs.getD id ⟨0, 0⟩).size := by
        rw [hholds.size_eq, p.length_slotsOf]
        exact hi
      rw [Engine.getElem?_store hsize, h.outputs _ _ _ hk, Option.map_some,
        Function.update_self]
    · have hother : ∀ i', p.slots[k]? ≠ some (place, i') := by
        intro i' hi'
        rw [hk] at hi'
        cases hi'
        exact heq rfl
      rw [getElem?_store_of_other hw hid hother, h.outputs _ _ _ hk,
        Function.update_of_ne heq]
  · intro k hk
    have hother : ∀ i, p.slots[k]? ≠ some (place, i) := by
      intro i hi
      exact absurd (List.getElem?_eq_some_iff.mp hi).1 (Nat.not_lt_of_le hk)
    rw [getElem?_store_of_other hw hid hother, h.others k hk]

end Wiring

/-- Of two engines the second differs in the unit of one instance and the outputs of its place. -/
structure ChangesOnly (p : Patch α) (id : Nat) (place : Place) (e e' : Engine α U) : Prop where
  wiring : e'.wiring = e.wiring
  units : ∀ other, id ≠ other → e'.units[other]? = e.units[other]?
  size : e'.values.size = e.values.size
  values : ∀ k : Nat, (∀ i, p.slots[k]? ≠ some (place, i)) → e'.values[k]? = e.values[k]?
  latched : e'.latched = e.latched
  voices : e'.voices = e.voices

theorem changesOnly_computeInstance {p : Patch α} {e : Engine α U} (hw : Wired p e.wiring) {id : Nat}
    {place : Place} (hid : p.At id place) (frame : α × α) :
    ChangesOnly p id place e (e.computeInstance frame id).1 := by
  cases hunit : e.units[id]? with
  | none =>
    have hlt : ¬ id < e.units.size := Nat.not_lt_of_le (Array.getElem?_eq_none_iff.mp hunit)
    rw [Engine.computeInstance]
    dsimp only
    rw [dif_neg hlt]
    exact ⟨rfl, fun _ _ => rfl, rfl, fun _ _ => rfl, rfl, rfl⟩
  | some unit =>
    rw [Engine.computeInstance_eq hunit]
    exact ⟨rfl, fun other hne => Array.getElem?_setIfInBounds_ne hne, Engine.size_store,
      fun k hk => Wiring.getElem?_store_of_other hw hid hk _, rfl, rfl⟩

namespace Represents
variable {p : Patch α} {w : Wiring α} {e : Engine α U} {s : Player α U} (h : Represents p w e s)
  (hw : Wired p w)

/-- The instance that takes the final signal is the only place of its object. -/
theorem output_iff (hw : Wired p w) {id : Nat} {place : Place} (hid : p.At id place) :
    id = w.output ↔ place.object = Builtin.outputObject := by
  constructor
  · rintro rfl
    rw [hid.unique hw.output]
  · intro hobject
    have hvoice := hid.voice_lt
    rw [hobject, hw.shared] at hvoice
    have hplace : place = ⟨Builtin.outputObject, 0⟩ := by
      obtain ⟨object, voice⟩ := place
      obtain rfl : object = Builtin.outputObject := hobject
      obtain rfl : voice = 0 := Nat.lt_one_iff.mp hvoice
      rfl
    exact hid.injective (hplace ▸ hw.output)

theorem side_eq (c : UnitClass) {name : String} {i : Nat} (h : c.socketIndex? name = some i)
    (inputs : List α) : Reference.side c inputs name = inputs.getD i (Arithmetic.natural 0) := by
  rw [Reference.side, h, Option.bind_some, List.getD_eq_getElem?_getD]

include h hw

/-- Both compute a place alike, and leave the rest alone. -/
theorem compute {id : Nat} {place : Place} (hid : p.At id place) (frame : α × α) :
    Represents p w (e.computeInstance frame id).1 (Reference.compute p s frame place).1 ∧
      (e.computeInstance frame id).2 = (Reference.compute p s frame place).2 := by
  obtain ⟨n, c, hobject⟩ := hid.object
  obtain rfl := h.wiring
  have hinputs := hw.inputs e.values s.values h.values id place n c hid hobject
  rw [Engine.computeInstance_eq (h.units id place hid), Reference.compute, hobject, hinputs]
  constructor
  · have hlt := (Array.getElem?_eq_some_iff.mp (h.units id place hid)).1
    refine ⟨rfl, h.units_update hid ?_ ?_, h.values.store hw hid _, h.latched, h.voices, h.count⟩
    · exact Array.getElem?_setIfInBounds_self_of_lt hlt
    · exact fun id' hne => Array.getElem?_setIfInBounds_ne hne
  · dsimp only
    by_cases houtput : place.object = Builtin.outputObject
    · rw [if_pos ((output_iff hw hid).mpr houtput), if_pos houtput]
      rw [houtput] at hobject
      obtain ⟨hleft, hright⟩ := hw.sides n c hobject
      rw [side_eq c hleft, side_eq c hright]
    · rw [if_neg (fun hid' => houtput ((output_iff hw hid).mp hid')), if_neg houtput]

theorem computeAll {ids : List Nat} {places : List Place} (hids : List.Forall₂ p.At ids places)
    (frame : α × α) :
    Represents p w (e.computeAll frame ids).1 (Reference.computeAll p s frame places).1 ∧
      (e.computeAll frame ids).2 = (Reference.computeAll p s frame places).2 := by
  induction hids generalizing e s frame with
  | nil => exact ⟨h, rfl⟩
  | cons hid _ ih =>
    obtain ⟨hstep, hframe⟩ := h.compute hw hid frame
    rw [Engine.computeAll, Reference.computeAll]
    dsimp only
    rw [hframe]
    exact ih hstep _

/-- The next sample is the same. -/
theorem tick :
    Represents p w e.tick.1 (Reference.tick p s).1 ∧ e.tick.2 = (Reference.tick p s).2 := by
  have horder : List.Forall₂ p.At e.wiring.order (p.order.flatMap p.placesOf) :=
    h.wiring ▸ hw.order
  obtain ⟨hall, hframe⟩ := h.computeAll hw horder (Arithmetic.natural 0, Arithmetic.natural 0)
  have hdone := hall.setAll hall.latched (Arithmetic.natural 0)
  constructor
  · exact ⟨hdone.wiring, hdone.units, hdone.values, .nil,
      hdone.voices, hdone.count⟩
  · exact hframe

theorem generateOnto (frames : List (α × α)) (count : Nat) :
    Represents p w (e.generateOnto frames count).1 (Reference.generate p s count).1 ∧
      (e.generateOnto frames count).2 = (Reference.generate p s count).2.reverse ++ frames := by
  induction count generalizing e s frames with
  | zero => exact ⟨h, rfl⟩
  | succ count ih =>
    obtain ⟨hstep, hframe⟩ := h.tick hw
    obtain ⟨hrest, hframes⟩ := ih hstep (e.tick.2 :: frames)
    rw [Engine.generateOnto, Reference.generate]
    refine ⟨hrest, ?_⟩
    dsimp only
    rw [hframes, hframe, List.reverse_cons, List.append_assoc]
    rfl

theorem call (hv : 0 < p.voices) (c : Call α) :
    Represents p w (e.call c).1 (Reference.call p s c).1 ∧
      (e.call c).2 = (Reference.call p s c).2 := by
  cases c with
  | noteOn note velocity => exact ⟨h.noteOn hw hv note velocity, rfl⟩
  | noteOff note => exact ⟨h.noteOff hw note, rfl⟩
  | releaseAll => exact ⟨h.releaseAll hw, rfl⟩
  | setParameter name value => exact ⟨h.setParameter hw name value, rfl⟩
  | generate count =>
    obtain ⟨hrest, hframes⟩ := h.generateOnto hw [] count
    refine ⟨hrest, ?_⟩
    rw [Engine.call, Engine.generate, Reference.call]
    dsimp only
    rw [hframes, List.append_nil, List.reverse_reverse]

/-- Whatever the calls are, the frames are the same. -/
theorem run (hv : 0 < p.voices) (calls : List (Call α)) :
    Represents p w (e.run calls).1 (Reference.run p s calls).1 ∧
      (e.run calls).2 = (Reference.run p s calls).2 := by
  induction calls generalizing e s with
  | nil => exact ⟨h, rfl⟩
  | cons c rest ih =>
    obtain ⟨hcall, hframes⟩ := h.call hw hv c
    obtain ⟨hrest, hmore⟩ := ih hcall
    rw [Engine.run, Reference.run]
    refine ⟨hrest, ?_⟩
    dsimp only
    rw [hframes, hmore]

end Represents
end Patchbay
