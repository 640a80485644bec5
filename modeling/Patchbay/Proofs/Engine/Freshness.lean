import Mathlib
import Patchbay.Compilation
import Patchbay.Proofs.Engine.Fronts
import Patchbay.Proofs.Engine.Sources

/-! Whatever compiles can be played, and no instance reads a slot that was not written before in the
same sample, unless it holds a constant of the graph. -/
namespace Patchbay
open Reference Reference.Patch Wiring
variable {α : Type}

namespace Engine
variable [Arithmetic α] {p : Patch α} {w : Wiring α} {g : Graph α} {e : Engine α}

/-- Every unit gives a signal for each output of its object. -/
def Fits (p : Patch α) (e : Engine α) : Prop :=
  e.Each fun id unit => ∀ place n c, p.At id place → p.objects[place.object]? = some (n, c) →
    unit.width c.sockets.length = c.outputs.length

private theorem kept_fits (p : Patch α) : Kept (α := α) (U := SoundUnit α) fun id unit =>
    ∀ place n c, p.At id place → p.objects[place.object]? = some (n, c) →
      unit.width c.sockets.length = c.outputs.length where
  setValue _ unit value h place n c hid hobject :=
    (SoundUnit.width_setValue value unit _).trans (h place n c hid hobject)
  process _ unit inputs h place n c hid hobject :=
    (SoundUnit.width_process unit inputs _).trans (h place n c hid hobject)

/-- An engine at any time: it is played like its objects, and all units fit. -/
structure Running (p : Patch α) (w : Wiring α) (e : Engine α) : Prop where
  wired : Wired p w
  voices : 0 < p.voices
  represents : ∃ s, Represents p w e s
  fits : Fits p e

namespace Running
variable (h : Running p w e)
include h

theorem call (c : Call α) : Running p w (e.call c).1 := by
  obtain ⟨s, hs⟩ := h.represents
  exact ⟨h.wired, h.voices, ⟨_, (hs.call h.wired h.voices c).1⟩, Each.call (kept_fits p) h.fits c⟩

theorem run (calls : List (Call α)) : Running p w (e.run calls).1 := by
  induction calls generalizing e with
  | nil => exact h
  | cons c rest ih => exact ih (h.call c)

theorem tick : Running p w e.tick.1 := by
  obtain ⟨s, hs⟩ := h.represents
  exact ⟨h.wired, h.voices, ⟨_, (hs.tick h.wired).1⟩, Each.tick (kept_fits p) h.fits⟩

theorem computeInstance {id : Nat} {place : Place} (hid : p.At id place) (frame : α × α) :
    Running p w (e.computeInstance frame id).1 := by
  obtain ⟨s, hs⟩ := h.represents
  exact ⟨h.wired, h.voices, ⟨_, (hs.compute h.wired hid frame).1⟩,
    Each.computeInstance (kept_fits p) h.fits frame id⟩

end Running

/-- The outputs of the places that are done hold what turns wrote. -/
def Written (p : Patch α) (e : Engine α) (done : List Place) (past : List (Turn α)) : Prop :=
  ∀ slot place i, place ∈ done → p.slots[slot]? = some (place, i) →
    ∃ value, e.values[slot]? = some value ∧ ∃ t ∈ past, (slot, value) ∈ t.writes

/-- A slot that no instance writes, with a constant that the graph has. -/
structure IsLiteral (g : Graph α) (w : Wiring α) (slot : Nat) (value : α) : Prop where
  apart : ∀ id, slot ∉ (w.outputs.getD id ⟨0, 0⟩).toList
  initial : w.initial[slot]? = some value
  constant : ∃ n ∈ g.nodes, ∃ mix ∈ n.mixes.values, ∃ span, .constant value span ∈ mix

/-- Each slot that a turn reads holds a constant of the graph, or what one of the turns before it
wrote there. -/
def Turn.Fresh (g : Graph α) (w : Wiring α) (past : List (Turn α)) (t : Turn α) : Prop :=
  ∀ slot found, (slot, found) ∈ t.reads → ∃ value, found = some value ∧
    (IsLiteral g w slot value ∨ ∃ earlier ∈ past, (slot, value) ∈ earlier.writes)

/-- No instance writes a slot behind those of outputs. -/
private theorem notMem_outputs (hw : Wired p w) {slot : Nat} (hslot : p.slots.length ≤ slot)
    (id : Nat) : slot ∉ (w.outputs.getD id ⟨0, 0⟩).toList := by
  intro hm
  cases hat : p.places[id]? with
  | some place =>
    obtain ⟨_, _, hfound⟩ := (holds_outputs hw hat).exists_of_mem hm
    exact absurd (List.getElem?_eq_some_iff.mp hfound).1 (Nat.not_lt_of_le hslot)
  | none =>
    have hsize : (outputTable p).length = p.places.length := by
      rw [outputTable, Extent.length_tile, List.length_map, forall₂_readers.length_eq]
    have hnone : (outputTable p)[id]? = none :=
      List.getElem?_eq_none (hsize ▸ List.getElem?_eq_none_iff.mp hat)
    rw [hw.outputs, Array.getD_eq_getD_getElem?, List.getElem?_toArray, hnone,
      Option.getD_none] at hm
    exact absurd hm List.not_mem_nil

namespace Running
variable (h : Running p w e) {id : Nat} {place : Place} (hid : p.At id place)
  {done : List Place} {past : List (Turn α)} (hpast : Written p e done past)
include h

theorem wiring_eq : e.wiring = w := by
  obtain ⟨s, hs⟩ := h.represents
  exact hs.wiring

include hid

theorem exists_unit : ∃ unit, e.units[id]? = some unit := by
  obtain ⟨s, hs⟩ := h.represents
  exact ⟨_, hs.units id place hid⟩

/-- A unit gives a signal for each output of its place. -/
theorem length_process {unit : SoundUnit α} (hunit : e.units[id]? = some unit) :
    (Playable.process unit (inputsOf w e.values id)).2.length = p.outputCount place.object := by
  obtain ⟨s, hs⟩ := h.represents
  obtain ⟨n, c, hobject⟩ := hid.object
  have hinputs := h.wired.inputs e.values s.values hs.values id place n c hid hobject
  have hlen : (inputsOf w e.values id).length = c.sockets.length := by
    rw [hinputs, inputs, List.length_map]
  rw [outputCount, hobject, Option.map_some, Option.getD_some,
    ← h.fits id unit hunit place n c hid hobject, ← hlen]
  exact SoundUnit.length_process unit _

include hpast

/-- The outputs of a place are written in its turn, and no others. -/
theorem written_computeInstance {unit : SoundUnit α} (hunit : e.units[id]? = some unit)
    (frame : α × α) :
    Written p (e.computeInstance frame id).1 (done ++ [place]) (past ++ [e.turn id unit]) := by
  obtain ⟨s, hs⟩ := h.represents
  have hlength := h.length_process hid hunit
  have hholds := holds_outputs h.wired hid
  intro slot other i hother hslot
  rw [computeInstance_eq hunit, h.wiring_eq]
  dsimp only
  by_cases heq : other = place
  · subst heq
    have hi := p.lt_of_mem_slots (List.mem_of_getElem? hslot)
    have hsize : i < (w.outputs.getD id ⟨0, 0⟩).size := by
      rw [hholds.size_eq, p.length_slotsOf]
      exact hi
    have hat := hholds.getElem? (p.getElem?_slotsOf hi)
    obtain rfl := (List.getElem?_inj (List.getElem?_eq_some_iff.mp hslot).1 p.nodup_slots).mp
      (hslot.trans hat.symm)
    rw [getElem?_store hsize, hs.values.outputs _ _ _ hslot, Option.map_some]
    refine ⟨_, rfl, _, List.mem_append_right _ (List.mem_singleton_self _), ?_⟩
    have hsignal : (Playable.process unit (inputsOf w e.values id)).2[i]? =
        some ((Playable.process unit (inputsOf w e.values id)).2.getD i (s.values other i)) := by
      rw [List.getD_eq_getElem?_getD, List.getElem?_eq_getElem (hlength ▸ hi), Option.getD_some]
    rw [turn, h.wiring_eq]
    apply List.mem_of_getElem? (i := i)
    exact List.getElem?_zip_eq_some.mpr ⟨Extent.getElem?_toList hsize, hsignal⟩
  · have hdone : other ∈ done := by
      rcases List.mem_append.mp hother with hm | hm
      · exact hm
      · exact absurd (List.mem_singleton.mp hm) heq
    have hothers : ∀ i', p.slots[slot]? ≠ some (place, i') := by
      intro i' hi'
      rw [hslot] at hi'
      cases hi'
      exact heq rfl
    obtain ⟨value, hvalue, t, ht, hwrite⟩ := hpast slot other i hdone hslot
    rw [getElem?_store_of_other h.wired hid hothers]
    exact ⟨value, hvalue, t, List.mem_append_left _ ht, hwrite⟩

variable {catalog : Catalog} (hw : Wiring.ofGraph p.voices g (placed p) = .ok w)
  (hp : p.Classed catalog g.nodes)
include hw hp

/-- A place whose sources are all done reads nothing stale. -/
theorem fresh_turn (hready : p.Ready done place) (unit : SoundUnit α) :
    (e.turn id unit).Fresh g w past := by
  obtain ⟨s, hs⟩ := h.represents
  obtain ⟨n, c, hobject⟩ := hid.object
  obtain ⟨hnode, _⟩ := hp.of_getElem? hobject
  intro slot found hread
  rw [turn, h.wiring_eq] at hread
  obtain ⟨slot', hslot', hpair⟩ := List.mem_map.mp hread
  cases hpair
  cases sourced_of_mem_readSlots hw hid hobject hslot' with
  | @output mix name span source i hm hc hslot =>
    obtain ⟨_, _, hsource⟩ := List.mem_flatMap.mp (p.fst_mem_places hslot)
    have hown := (p.mem_placesOf.mp hsource).1
    have hdone := hready n c hobject mix hm source.object name span hc source (hown ▸ hsource)
    obtain ⟨value, hvalue, hwritten⟩ := hpast slot source i hdone hslot
    exact ⟨value, hvalue, .inr hwritten⟩
  | @constant mix value span hm hc hslot hvalue =>
    refine ⟨value, ?_, .inl ⟨notMem_outputs h.wired hslot, hvalue, ?_⟩⟩
    · rw [hs.values.others slot hslot, hvalue]
    · exact ⟨n, List.mem_of_getElem? hnode, mix, hm, span, hc⟩

end Running

variable {catalog : Catalog}

/-- Instances whose places come in order read nothing stale, one after the other. -/
theorem fresh_turnsOf (hw : Wiring.ofGraph p.voices g (placed p) = .ok w)
    (hp : p.Classed catalog g.nodes) {ids : List Nat} {places : List Place}
    (hids : List.Forall₂ p.At ids places) :
    ∀ {e : Engine α} {done : List Place} {past : List (Turn α)} (frame : α × α), Running p w e →
      p.Orderly done places → Written p e done past →
      (e.turnsOf frame ids).map Turn.id = ids ∧
        ∀ before turn after, e.turnsOf frame ids = before ++ turn :: after →
          turn.Fresh g w (past ++ before) := by
  induction hids with
  | nil =>
    intro e done past frame _ _ _
    refine ⟨rfl, fun before turn after hturns => ?_⟩
    rw [turnsOf] at hturns
    simp at hturns
  | @cons id place ids places hid _ ih =>
    intro e done past frame h ho hpast
    obtain ⟨unit, hunit⟩ := h.exists_unit hid
    have hstep := h.written_computeInstance hid hpast hunit frame
    obtain ⟨hrest, hfresh⟩ := ih (e.computeInstance frame id).2 (h.computeInstance hid frame)
      ho.2.2 hstep
    have hturns : e.turnsOf frame (id :: ids) = e.turn id unit ::
        (e.computeInstance frame id).1.turnsOf (e.computeInstance frame id).2 ids := by
      rw [turnsOf, turn?, hunit]
      rfl
    rw [hturns]
    refine ⟨by rw [List.map_cons, hrest]; rfl, fun before turn after hsplit => ?_⟩
    cases before with
    | nil =>
      cases hsplit
      rw [List.append_nil]
      exact h.fresh_turn hid hpast hw hp ho.2.1 unit
    | cons first before =>
      obtain ⟨rfl, hbefore⟩ := List.cons.inj hsplit
      have hturn := hfresh before turn after hbefore
      rwa [List.append_assoc] at hturn

/-- A sample without stale reads: each instance of the order has one turn, and each turn reads
constants of the graph and what turns before it in the sample wrote. -/
structure FreshSample (g : Graph α) (w : Wiring α) (sample : List (Turn α)) : Prop where
  ids : sample.map Turn.id = w.order
  once : w.order.Nodup
  fresh : ∀ before turn after, sample = before ++ turn :: after → turn.Fresh g w before

section Runs
variable (hw : Wiring.ofGraph p.voices g (placed p) = .ok w) (hp : p.Classed catalog g.nodes)
  {o : Building.Options} (hg : Building.WellFormed catalog o g) (horder : p.order = g.order)
include hw hp hg horder

/-- At any time the next sample is fresh. -/
theorem freshSample_of_running (h : Running p w e) : FreshSample g w e.sampleTurns := by
  have hids : List.Forall₂ p.At w.order (g.order.flatMap p.placesOf) := horder ▸ h.wired.order
  have hstart : Written p e [] [] := fun _ _ _ hplace => absurd hplace List.not_mem_nil
  obtain ⟨hturns, hfresh⟩ := fresh_turnsOf hw hp hids
    (Arithmetic.natural 0, Arithmetic.natural 0) h (orderly_of_wellFormed hp hg) hstart
  rw [sampleTurns, h.wiring_eq]
  refine ⟨hturns, ?_, hfresh⟩
  have hunique : Relator.BiUnique p.At :=
    ⟨fun _ _ _ hid hid' => hid.injective hid', fun _ _ _ hid hid' => hid.unique hid'⟩
  exact (List.rel_nodup hunique hids).mpr (nodup_flatMap_placesOf hg.schedule.nodup)

end Runs

/-- The units of a complete library fit the objects they are made for. -/
theorem running_of_ofGraph {l : Library} (hl : l.Complete) {settings : EngineSettings}
    (h : Engine.ofGraph l settings g = .ok e)
    (hp : p = Patch.ofGraph l.catalog settings.voices g) : Running p e.wiring e := by
  obtain ⟨_, classes, _, hclasses, _⟩ := parts_of_ofRegistry h hp
  have hclassed : p.Classed l.catalog g.nodes := hp ▸ classed_ofGraph hclasses _
  obtain ⟨hwired, hstart, _, hvoices⟩ := represents_of_ofRegistry h hp
  refine ⟨hwired, hvoices, ⟨_, hstart⟩, fun id unit hunit place n c hid hobject => ?_⟩
  rw [hstart.units id place hid] at hunit
  obtain rfl := Option.some.inj hunit
  obtain ⟨_, hresolve⟩ := hclassed.of_getElem? hobject
  obtain ⟨unit, hcreate, hwidth⟩ := hl.exists_create? hresolve
    (Arithmetic.natural settings.sampleRate : α) (UInt64.ofNat (settings.seed + p.places.idxOf place))
  have hunit : unitAt p l.registry settings place = unit := by
    rw [unitAt, hobject]
    exact congrArg (Option.getD · default) hcreate
  rw [start]
  dsimp only
  rw [hunit]
  split
  · exact (SoundUnit.width_setValue _ _ _).trans hwidth
  · exact hwidth

/-- What a text compiles to is well formed. -/
private theorem wellFormed_of_ofText {o : Building.Options} {source : String}
    (h : (Compilation.ofText Library.standard.catalog o source).graph? = some g) :
    Building.WellFormed Library.standard.catalog o g :=
  Building.wellFormed_of_build (Compilation.stages_of_graph? h).2.2

/-- Whatever a text compiles to can be played by at least one voice. Whatever is asked of the engine,
each frame is that of a tick, which is told turn by turn: every instance of the order is computed once
and reads nothing stale. -/
theorem run_fresh (o : Building.Options) (source : String) {settings : EngineSettings}
    (hvoices : 0 < settings.voices)
    (h : (Compilation.ofText Library.standard.catalog o source).graph? = some g) :
    ∃ e : Engine α, Engine.ofGraph Library.standard settings g = .ok e ∧
      ∀ calls : List (Call α), (e.run calls).2 = (e.fronts calls).map (fun front => front.tick.2) ∧
        ∀ front ∈ e.fronts calls, front.wiring = e.wiring ∧
          front.Sampled front.sampleTurns ∧ FreshSample g e.wiring front.sampleTurns := by
  have hg := wellFormed_of_ofText h
  obtain ⟨e, he⟩ := exists_ofGraph Library.standard_complete hg hvoices
  obtain ⟨_, _, _, hclasses, _, _, hwiring, _⟩ := parts_of_ofRegistry he rfl
  have hrunning := running_of_ofGraph Library.standard_complete he rfl
  have hfronts := fun calls => forall_fronts (P := Running _ e.wiring) (fun _ h => h.tick)
    (fun _ c h => h.call c) hrunning calls
  refine ⟨e, he, fun calls => ⟨frames_fronts e calls, fun front hfront => ?_⟩⟩
  have hrunning' := hfronts calls front hfront
  have hfresh := freshSample_of_running hwiring (classed_ofGraph hclasses _) hg rfl hrunning'
  refine ⟨hrunning'.wiring_eq, sampled_sampleTurns front ?_, hfresh⟩
  exact hrunning'.wiring_eq.symm ▸ hfresh.once

/-- A sine for each voice, all of them heard on both sides. -/
def unison : String := "startvoice\nSine s(pitch)\ns => output\nendvoice"

abbrev unisonProgram : Program := (Program.ofTokens (Token.scan unison)).program

theorem lines_unison : unisonProgram.lines =
    [⟨.voice, .construction ⟨⟨"Sine", ⟨11, 15⟩⟩, some ⟨"s", ⟨16, 17⟩⟩,
        [⟨none, .name ⟨"pitch", ⟨18, 23⟩⟩⟩], ⟨11, 24⟩⟩⟩,
      ⟨.voice, .chain (.name ⟨"s", ⟨25, 26⟩⟩) [] (.name ⟨"output", ⟨30, 36⟩⟩) ⟨25, 36⟩⟩] := by
  cbv

theorem graph_unison :
    (Compilation.ofText Library.standard.catalog .standard unison).graph? =
      some ((Building.built unisonProgram : Building.State Float).graph .standard [7, 10, 4]) := by
  have hread : (Program.ofTokens (Token.scan unison)).faults = [] := by cbv
  have hcheck : (Checking.check Library.standard.catalog unisonProgram).faults = [] := by cbv
  have hdependencies : (Building.built unisonProgram : Building.State Float).objects.map
      Building.Draft.dependencies = [[], [], [], [], [10, 10], [], [], [], [], [], [7]] := by
    rw [Building.built_eq, lines_unison]
    rfl
  have hfaults : (Building.built unisonProgram : Building.State Float).faults = [] := by
    rw [Building.built_eq, lines_unison]
    rfl
  have hschedule : Graph.schedule [[], [], [], [], [10, 10], [], [], [], [], [], [7]]
      Builtin.outputObject = .ok [7, 10, 4] := by cbv
  exact Building.graph?_of_schedule hread hcheck hfaults hdependencies hschedule

/-- Both samples of a note on five voices are fresh: each tick does what its turns say. -/
theorem run_fresh_unison :
    ∃ (g : Graph Float) (e : Engine Float),
      (Compilation.ofText Library.standard.catalog .standard unison).graph? = some g ∧
      Engine.ofGraph Library.standard .standard g = .ok e ∧
      (e.fronts [.noteOn 60 1, .generate 2]).length = 2 ∧
      ∀ front ∈ e.fronts [.noteOn 60 1, .generate 2], front.wiring = e.wiring ∧
        front.Sampled front.sampleTurns ∧ FreshSample g e.wiring front.sampleTurns := by
  have hvoices : 0 < EngineSettings.standard.voices := by decide
  obtain ⟨e, he, hruns⟩ := run_fresh .standard unison hvoices graph_unison
  exact ⟨_, e, graph_unison, he, rfl, (hruns _).2⟩

end Engine
end Patchbay
