import Mathlib.Logic.Function.Iterate
import Patchbay.Proofs.Engine.Simulation
import Patchbay.Proofs.Library.Complete

/-! What an engine reads and writes in a sample, instance by instance, and what its units stay like
whatever is asked of it. -/
namespace Patchbay.Engine
open Reference
variable {α U : Type}

/-- One instance is computed: the slots that it reads with what it finds there, and the slots that
it writes with what it leaves there. -/
structure Turn (α : Type) where
  id : Nat
  reads : List (Nat × Option α)
  writes : List (Nat × α)

/-- The slots that the sockets of an instance read. -/
def readSlots (w : Wiring α) (id : Nat) : List Nat :=
  (w.sockets.getD id ⟨0, 0⟩).toList.flatMap fun socket =>
    (w.socketArgs.getD socket ⟨0, 0⟩).toList.map fun i => w.args.getD i 0

/-- Write values into slots, one after the other. -/
def overwrite (values : Array α) (writes : List (Nat × α)) : Array α :=
  writes.foldl (fun values s => values.setIfInBounds s.1 s.2) values

theorem overwrite_append (values : Array α) (first second : List (Nat × α)) :
    overwrite values (first ++ second) = overwrite (overwrite values first) second :=
  List.foldl_append

section Sampling
variable [Arithmetic α] [Playable α U]

/-- The turn of an instance with a unit. -/
def turn (e : Engine α U) (id : Nat) (unit : U) : Turn α where
  id
  reads := (readSlots e.wiring id).map fun slot => (slot, e.values[slot]?)
  writes := (e.wiring.outputs.getD id ⟨0, 0⟩).toList.zip
    (Playable.process unit (inputsOf e.wiring e.values id)).2

/-- The turn of an instance, if it has a unit. -/
def turn? (e : Engine α U) (id : Nat) : Option (Turn α) := e.units[id]?.map (e.turn id)

/-- The turns while instances are computed from the left. -/
def turnsOf (e : Engine α U) (frame : α × α) : List Nat → List (Turn α)
  | [] => []
  | id :: rest =>
    let (next, frame) := e.computeInstance frame id
    (e.turn? id).toList ++ next.turnsOf frame rest

/-- The turns of the next sample. -/
def sampleTurns (e : Engine α U) : List (Turn α) :=
  e.turnsOf (Arithmetic.natural 0, Arithmetic.natural 0) e.wiring.order

variable {e : Engine α U} {id : Nat} {t : Turn α}

/-- The signals at the sockets of an instance depend on the slots of its turn alone. -/
theorem inputsOf_congr (w : Wiring α) {values values' : Array α}
    (h : ∀ slot ∈ readSlots w id, values[slot]? = values'[slot]?) :
    inputsOf w values id = inputsOf w values' id := by
  apply List.map_congr_left
  intro socket hsocket
  have hread : ∀ i ∈ (w.socketArgs.getD socket ⟨0, 0⟩).toList,
      values.getD (w.args.getD i 0) (Arithmetic.natural 0) =
        values'.getD (w.args.getD i 0) (Arithmetic.natural 0) := by
    intro i hi
    have hslot := h (w.args.getD i 0)
      (List.mem_flatMap.mpr ⟨socket, hsocket, List.mem_map.mpr ⟨i, hi, rfl⟩⟩)
    generalize w.args.getD i 0 = slot at hslot ⊢
    rw [Array.getD_eq_getD_getElem?, Array.getD_eq_getD_getElem?, hslot]
  exact List.foldl_ext _ _ _ fun sum i hi => by rw [hread i hi]

theorem values_computeInstance (h : e.turn? id = some t) (frame : α × α) :
    (e.computeInstance frame id).1.values = overwrite e.values t.writes := by
  obtain ⟨unit, hunit, rfl⟩ := Option.map_eq_some_iff.mp h
  rw [computeInstance_eq hunit]
  rfl

theorem computeInstance_of_turn?_eq_none (h : e.turn? id = none) (frame : α × α) :
    (e.computeInstance frame id).1 = e := by
  have hunit := Option.map_eq_none_iff.mp h
  have hlt : ¬ id < e.units.size := Nat.not_lt_of_le (Array.getElem?_eq_none_iff.mp hunit)
  rw [computeInstance]
  dsimp only
  rw [dif_neg hlt]

/-- Slots change by the writes of turns and by nothing else. -/
theorem values_computeAll (e : Engine α U) (frame : α × α) (ids : List Nat) :
    (e.computeAll frame ids).1.values =
      overwrite e.values ((e.turnsOf frame ids).flatMap Turn.writes) := by
  induction ids generalizing e frame with
  | nil => rfl
  | cons id rest ih =>
    rw [computeAll, turnsOf]
    dsimp only
    rw [ih, List.flatMap_append, overwrite_append]
    congr 1
    cases h : e.turn? id with
    | none =>
      rw [computeInstance_of_turn?_eq_none h]
      rfl
    | some t => rw [values_computeInstance h, Option.toList_some, List.flatMap_singleton]

theorem frame_computeInstance (e : Engine α U) (frame : α × α) (id : Nat) :
    (e.computeInstance frame id).2 =
      if id = e.wiring.output then
        ((inputsOf e.wiring e.values id).getD e.wiring.left (Arithmetic.natural 0),
          (inputsOf e.wiring e.values id).getD e.wiring.right (Arithmetic.natural 0))
      else frame := by
  rw [computeInstance]
  dsimp only
  split <;> rfl

/-- Computing an instance changes the slots, and of the units its own. -/
theorem computeInstance_rest (e : Engine α U) (frame : α × α) (id : Nat) :
    (e.computeInstance frame id).1.wiring = e.wiring ∧
      (e.computeInstance frame id).1.latched = e.latched ∧
        ∀ other, other ≠ id → (e.computeInstance frame id).1.units[other]? = e.units[other]? := by
  cases hunit : e.units[id]? with
  | none =>
    have hturn : e.turn? id = none := by rw [turn?, hunit, Option.map_none]
    rw [computeInstance_of_turn?_eq_none hturn]
    exact ⟨rfl, rfl, fun _ _ => rfl⟩
  | some unit =>
    rw [computeInstance_eq hunit]
    exact ⟨rfl, rfl, fun other hne => Array.getElem?_setIfInBounds_ne hne.symm⟩

/-- Instances that are not computed have the same units behind, and without the output the frame
stays as it is. -/
theorem computeAll_rest (e : Engine α U) (frame : α × α) (ids : List Nat) :
    (e.computeAll frame ids).1.wiring = e.wiring ∧
      (e.computeAll frame ids).1.latched = e.latched ∧
        (∀ other ∉ ids, (e.computeAll frame ids).1.units[other]? = e.units[other]?) ∧
          (e.wiring.output ∉ ids → (e.computeAll frame ids).2 = frame) := by
  induction ids generalizing e frame with
  | nil => exact ⟨rfl, rfl, fun _ _ => rfl, fun _ => rfl⟩
  | cons id rest ih =>
    obtain ⟨hwiring, hlatched, hunits⟩ := e.computeInstance_rest frame id
    obtain ⟨hwiring', hlatched', hunits', hframe'⟩ :=
      ih (e.computeInstance frame id).1 (e.computeInstance frame id).2
    refine ⟨hwiring'.trans hwiring, hlatched'.trans hlatched, fun other hother => ?_, fun hout => ?_⟩
    · have hrest := List.not_mem_of_not_mem_cons hother
      exact (hunits' other hrest).trans (hunits other (List.ne_of_not_mem_cons hother))
    · have hrest := List.not_mem_of_not_mem_cons hout
      refine (hframe' (hwiring.symm ▸ hrest)).trans ?_
      rw [frame_computeInstance, if_neg (List.ne_of_not_mem_cons hout).symm]

/-- The slots hold what a turn has read. -/
def Turn.Sees (t : Turn α) (values : Array α) : Prop :=
  ∀ slot found, (slot, found) ∈ t.reads → values[slot]? = found

/-- A turn that finds `values` in the slots and takes the unit of its instance from one state to the
next. What it reads decides the signals that the unit is processed on, whatever else is in the
slots, and what the unit gives is written. -/
structure Turn.Computes (w : Wiring α) (values : Array α) (now later : U) (t : Turn α) : Prop where
  reads : t.reads = (readSlots w t.id).map fun slot => (slot, values[slot]?)
  signals : ∀ values', t.Sees values' → inputsOf w values' t.id = inputsOf w values t.id
  unit : later = (Playable.process now (inputsOf w values t.id)).1
  writes : t.writes = (w.outputs.getD t.id ⟨0, 0⟩).toList.zip
    (Playable.process now (inputsOf w values t.id)).2

/-- A sample of an engine, turn by turn: together the turns leave in the slots what the tick leaves
there, each processes a unit once, on what the turns before it left, and the turn of the output reads
the frame. Behind all turns the triggers that were latched fall. -/
structure Sampled (e : Engine α U) (sample : List (Turn α)) : Prop where
  values : e.tick.1.values = overwrite e.values (sample.flatMap Turn.writes)
  turns : ∀ before t after, sample = before ++ t :: after → ∃ now later,
    e.units[t.id]? = some now ∧
      t.Computes e.wiring (overwrite e.values (before.flatMap Turn.writes)) now later ∧
        e.tick.1.units[t.id]? =
          some ((Playable.setValue (Arithmetic.natural 0))^[e.latched.count t.id] later)
  frame : ∀ before t after, sample = before ++ t :: after → t.id = e.wiring.output →
    let signals := inputsOf e.wiring (overwrite e.values (before.flatMap Turn.writes)) t.id
    e.tick.2 = (signals.getD e.wiring.left (Arithmetic.natural 0),
      signals.getD e.wiring.right (Arithmetic.natural 0))

theorem computes_turn (e : Engine α U) (id : Nat) (unit : U) :
    (e.turn id unit).Computes e.wiring e.values unit
      (Playable.process unit (inputsOf e.wiring e.values id)).1 where
  reads := rfl
  signals values hsees := by
    refine inputsOf_congr e.wiring fun slot hslot => hsees slot _ ?_
    exact List.mem_map.mpr ⟨slot, hslot, rfl⟩
  unit := rfl
  writes := rfl

theorem id_mem_of_mem_turnsOf {ids : List Nat} {frame : α × α} (h : t ∈ e.turnsOf frame ids) :
    t.id ∈ ids := by
  induction ids generalizing e frame with
  | nil => exact absurd h List.not_mem_nil
  | cons id rest ih =>
    rcases List.mem_append.mp h with h | h
    · obtain ⟨unit, _, rfl⟩ := Option.map_eq_some_iff.mp (Option.mem_toList.mp h)
      exact List.mem_cons_self
    · exact List.mem_cons_of_mem _ (ih h)

/-- Each turn of a pass over instances takes a unit from its state before the pass to that behind
it, since no other turn is of the same instance. -/
theorem computes_of_turnsOf {ids : List Nat} (hn : ids.Nodup) {e : Engine α U} {frame : α × α}
    {before after : List (Turn α)} (h : e.turnsOf frame ids = before ++ t :: after) :
    (∃ now later, e.units[t.id]? = some now ∧ (e.computeAll frame ids).1.units[t.id]? = some later ∧
      t.Computes e.wiring (overwrite e.values (before.flatMap Turn.writes)) now later) ∧
    (t.id = e.wiring.output →
      let signals := inputsOf e.wiring (overwrite e.values (before.flatMap Turn.writes)) t.id
      (e.computeAll frame ids).2 = (signals.getD e.wiring.left (Arithmetic.natural 0),
        signals.getD e.wiring.right (Arithmetic.natural 0))) := by
  induction ids generalizing e frame before with
  | nil => simp [turnsOf] at h
  | cons id rest ih =>
    obtain ⟨hid, hrest⟩ := List.nodup_cons.mp hn
    replace h : (e.turn? id).toList ++
      (e.computeInstance frame id).1.turnsOf (e.computeInstance frame id).2 rest =
        before ++ t :: after := h
    obtain ⟨hwiring, -, hunits⟩ := e.computeInstance_rest frame id
    rw [computeAll]
    dsimp only
    cases hturn : e.turn? id with
    | none =>
      rw [hturn, Option.toList_none, List.nil_append,
        computeInstance_of_turn?_eq_none hturn] at h
      rw [computeInstance_of_turn?_eq_none hturn]
      exact ih hrest h
    | some first =>
      rw [hturn, Option.toList_some, List.singleton_append] at h
      obtain ⟨unit, hunit, rfl⟩ := Option.map_eq_some_iff.mp hturn
      cases before with
      | nil =>
        obtain ⟨rfl, -⟩ := List.cons.inj h
        obtain ⟨-, -, hunits', hframe'⟩ := (e.computeInstance frame id).1.computeAll_rest
          (e.computeInstance frame id).2 rest
        refine ⟨⟨unit, _, hunit, ?_, e.computes_turn id unit⟩, fun hout => ?_⟩
        · refine (hunits' id hid).trans ?_
          rw [computeInstance_eq hunit]
          exact Array.getElem?_setIfInBounds_self_of_lt (Array.getElem?_eq_some_iff.mp hunit).1
        · replace hout : id = e.wiring.output := hout
          rw [hframe' (hwiring.symm ▸ hout ▸ hid), frame_computeInstance, if_pos hout]
          rfl
      | cons first before =>
        obtain ⟨rfl, hbehind⟩ := List.cons.inj h
        have hmem : t ∈ (e.computeInstance frame id).1.turnsOf (e.computeInstance frame id).2 rest :=
          hbehind ▸ List.mem_append_right _ List.mem_cons_self
        have hne : t.id ≠ id := fun heq => hid (heq ▸ id_mem_of_mem_turnsOf hmem)
        have hlater := ih hrest hbehind
        rwa [hwiring, hunits _ hne, values_computeInstance hturn, ← overwrite_append] at hlater

omit [Arithmetic α] in
/-- Setting units changes nothing else. -/
theorem setAll_rest (e : Engine α U) (ids : List Nat) (value : α) :
    (ids.foldl (fun e id => e.setUnit id value) e).values = e.values ∧
      (ids.foldl (fun e id => e.setUnit id value) e).latched = e.latched ∧
        (ids.foldl (fun e id => e.setUnit id value) e).voices = e.voices := by
  induction ids generalizing e with
  | nil => exact ⟨rfl, rfl, rfl⟩
  | cons id rest ih => exact ih (e.setUnit id value)

omit [Arithmetic α] in
theorem units_setAll (e : Engine α U) (ids : List Nat) (value : α) (id : Nat) :
    (ids.foldl (fun e id => e.setUnit id value) e).units[id]? =
      e.units[id]?.map (Playable.setValue value)^[ids.count id] := by
  induction ids generalizing e with
  | nil => rw [List.count_nil, Function.iterate_zero, Option.map_id]; rfl
  | cons first rest ih =>
    rw [List.foldl_cons, ih]
    show ((e.units.modify first (Playable.setValue value))[id]?).map _ = _
    rw [Array.getElem?_modify, List.count_cons]
    by_cases heq : first = id
    · rw [if_pos heq, if_pos (beq_iff_eq.mpr heq), Option.map_map, Function.iterate_add]
      rfl
    · rw [if_neg heq, if_neg (fun h => heq (beq_iff_eq.mp h)), Nat.add_zero]

/-- The turns of the next sample are what the tick does. -/
theorem sampled_sampleTurns (e : Engine α U) (hn : e.wiring.order.Nodup) :
    e.Sampled e.sampleTurns := by
  obtain ⟨-, hlatched, -⟩ :=
    e.computeAll_rest (Arithmetic.natural 0, Arithmetic.natural 0) e.wiring.order
  refine ⟨?_, fun before t after h => ?_, fun before t after h => (computes_of_turnsOf hn h).2⟩
  · rw [sampleTurns, ← values_computeAll]
    exact (setAll_rest _ _ _).1
  · obtain ⟨now, later, hnow, hlater, hcomputes⟩ := (computes_of_turnsOf hn h).1
    refine ⟨now, later, hnow, hcomputes, (units_setAll _ _ _ _).trans ?_⟩
    rw [hlater, hlatched, Option.map_some]

end Sampling

section Units
variable [Playable α U]

/-- All units are as a predicate on units of instances says. -/
def Each (P : Nat → U → Prop) (e : Engine α U) : Prop :=
  ∀ (id : Nat) (unit : U), e.units[id]? = some unit → P id unit

/-- A predicate on units that setting and computing them keep. -/
structure Kept (P : Nat → U → Prop) : Prop where
  setValue : ∀ id unit (value : α), P id unit → P id (Playable.setValue value unit)
  process : ∀ id unit (inputs : List α), P id unit → P id (Playable.process unit inputs).1

namespace Each
variable {P : Nat → U → Prop} (hP : Kept (α := α) P) {e : Engine α U}
include hP

theorem setUnit (h : Each P e) (id : Nat) (value : α) : Each P (e.setUnit id value) := by
  intro id' unit hunit
  have hmodify : (e.units.modify id (Playable.setValue value))[id']? = some unit := hunit
  rw [Array.getElem?_modify] at hmodify
  split at hmodify
  · obtain ⟨old, hold, rfl⟩ := Option.map_eq_some_iff.mp hmodify
    exact hP.setValue id' old value (h id' old hold)
  · exact h id' unit hmodify

theorem setAll (h : Each P e) (ids : List Nat) (value : α) :
    Each P (ids.foldl (fun e id => e.setUnit id value) e) := by
  induction ids generalizing e with
  | nil => exact h
  | cons id rest ih => exact ih (h.setUnit hP id value)

variable [Arithmetic α]

theorem startNote (h : Each P e) (pitch velocity : α) (inputs : Wiring.NoteInputs) :
    Each P (e.startNote pitch velocity inputs) := by
  have hset := (((h.setUnit hP inputs.gate (Arithmetic.natural 1)).setUnit hP inputs.pitch
    pitch).setUnit hP inputs.velocity velocity).setUnit hP inputs.trigger (Arithmetic.natural 1)
  rw [Engine.startNote]
  split
  · exact hset
  · exact hset

theorem noteOn (h : Each P e) (note : Nat) (velocity : α) : Each P (e.noteOn note velocity) := by
  have hall : ∀ (notes : List Wiring.NoteInputs) (pitch velocity : α) {e : Engine α U}, Each P e →
      Each P (notes.foldl (fun e => e.startNote pitch velocity) e) := by
    intro notes pitch velocity
    induction notes with
    | nil => exact fun h => h
    | cons inputs rest ih => exact fun h => ih (h.startNote hP pitch velocity inputs)
  rw [Engine.noteOn]
  split
  · exact h
  · exact hall _ _ _ h

theorem noteOff (h : Each P e) (note : Nat) : Each P (e.noteOff note) := by
  rw [Engine.noteOff]
  split
  · exact h
  · next voices voice _ =>
    have hvoices : Each P { e with voices } := h
    dsimp only
    cases e.wiring.voiceInputs[voice]? with
    | none =>
      split
      · exact hvoices
      · exact hvoices.setUnit hP _ _
    | some inputs =>
      have hgate := hvoices.setUnit hP inputs.gate (Arithmetic.natural 0)
      split
      · exact hgate
      · exact hgate.setUnit hP _ _

theorem releaseAll (h : Each P e) : Each P e.releaseAll :=
  setAll (e := { e with voices := e.voices.releaseAll }) hP h _ _

theorem setParameter (h : Each P e) (name : String) (value : α) :
    Each P ((e.setParameter name value).getD e) := by
  rw [Engine.setParameter]
  split
  · exact h
  · exact h.setAll hP _ _

theorem computeInstance (h : Each P e) (frame : α × α) (id : Nat) :
    Each P (e.computeInstance frame id).1 := by
  cases hunit : e.units[id]? with
  | none =>
    have hturn : e.turn? id = none := by
      rw [turn?, hunit]
      rfl
    rwa [computeInstance_of_turn?_eq_none hturn]
  | some unit =>
    rw [computeInstance_eq hunit]
    intro id' unit' hunit'
    dsimp only at hunit'
    by_cases hid : id = id'
    · subst hid
      have hlt := (Array.getElem?_eq_some_iff.mp hunit).1
      rw [Array.getElem?_setIfInBounds_self_of_lt hlt] at hunit'
      cases hunit'
      exact hP.process id unit _ (h id unit hunit)
    · rw [Array.getElem?_setIfInBounds_ne hid] at hunit'
      exact h id' unit' hunit'

theorem computeAll (h : Each P e) (frame : α × α) (ids : List Nat) :
    Each P (e.computeAll frame ids).1 := by
  induction ids generalizing e frame with
  | nil => exact h
  | cons id rest ih => exact ih (h.computeInstance hP frame id) _

theorem tick (h : Each P e) : Each P e.tick.1 :=
  setAll hP (h.computeAll hP _ _) _ _

theorem generateOnto (h : Each P e) (frames : List (α × α)) (count : Nat) :
    Each P (e.generateOnto frames count).1 := by
  induction count generalizing e frames with
  | zero => exact h
  | succ count ih => exact ih (h.tick hP) _

/-- What setting and computing units keep, every call keeps. -/
theorem call (h : Each P e) (c : Call α) : Each P (e.call c).1 := by
  cases c with
  | noteOn note velocity => exact h.noteOn hP note velocity
  | noteOff note => exact h.noteOff hP note
  | releaseAll => exact h.releaseAll hP
  | setParameter name value => exact h.setParameter hP name value
  | generate count => exact h.generateOnto hP [] count

theorem run (h : Each P e) (calls : List (Call α)) : Each P (e.run calls).1 := by
  induction calls generalizing e with
  | nil => exact h
  | cons c rest ih => exact ih (h.call hP c)

end Each
end Units
end Patchbay.Engine
