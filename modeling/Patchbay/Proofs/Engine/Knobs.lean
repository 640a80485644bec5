import Mathlib.Data.List.Permutation
import Patchbay.Compilation
import Patchbay.Proofs.Building.Bindings
import Patchbay.Proofs.Engine.Freshness
import Patchbay.Proofs.Engine.Reflection

/-! Knobs under their names. Whoever reads a knob finds the value that was set last through any of
its names, and setting a name changes nothing but its knob. -/
namespace Patchbay
open Arithmetic (natural ratio)
open Reference Reference.Patch Wiring
variable {α : Type}

/-- The value that a call sets on a knob, through one of its names. -/
def Reference.Call.valueFor? (parameters : List Parameter) (object : Nat) : Call α → Option α
  | .setParameter name value => if ⟨name, object⟩ ∈ parameters then some value else none
  | .noteOn .. | .noteOff _ | .releaseAll | .generate _ => none

section Levels
variable [Arithmetic α] (parameters : List Parameter) (object : Nat)

/-- Where a knob stands that stood somewhere before the calls: where it was set last, within the
range from zero to one. -/
def levelFrom (before : α) (calls : List (Call α)) : α :=
  (((calls.filterMap (Call.valueFor? parameters object)).getLast?).map
    (Arithmetic.clamp (natural 0) (natural 1))).getD before

/-- Where a knob stands. It starts in the middle. -/
def knobLevel (calls : List (Call α)) : α := levelFrom parameters object (ratio 1 2) calls

theorem levelFrom_cons (before : α) (c : Call α) (rest : List (Call α)) :
    levelFrom parameters object before (c :: rest) =
      levelFrom parameters object (levelFrom parameters object before [c]) rest := by
  rw [levelFrom, levelFrom, levelFrom, List.filterMap_cons, List.filterMap_cons, List.filterMap_nil]
  cases c.valueFor? parameters object with
  | none => rfl
  | some value =>
    dsimp only
    rw [List.getLast?_cons]
    cases (rest.filterMap (Call.valueFor? parameters object)).getLast? <;> rfl

/-- Calls that set no name of a knob leave it where it stands. -/
theorem levelFrom_of_none {before : α} {calls : List (Call α)}
    (h : ∀ c ∈ calls, c.valueFor? parameters object = none) :
    levelFrom parameters object before calls = before := by
  rw [levelFrom, List.filterMap_eq_nil_iff.mpr h]
  rfl

/-- From then on a knob stands where it was set, until it is set again. -/
theorem knobLevel_set {q : Parameter} (hq : q ∈ parameters) (earlier : List (Call α)) (value : α)
    {later : List (Call α)} (h : ∀ c ∈ later, c.valueFor? parameters q.object = none) :
    knobLevel parameters q.object (earlier ++ .setParameter q.name value :: later) =
      Arithmetic.clamp (natural 0) (natural 1) value := by
  have hset : Call.valueFor? parameters q.object (.setParameter q.name value) = some value :=
    if_pos hq
  rw [knobLevel, levelFrom, List.filterMap_append, List.filterMap_cons, hset,
    List.filterMap_eq_nil_iff.mpr h, List.getLast?_concat]
  rfl

end Levels

theorem find?_name {parameters : List Parameter} (hn : (parameters.map (·.name)).Nodup)
    {q : Parameter} (hq : q ∈ parameters) : parameters.find? (·.name == q.name) = some q := by
  induction parameters with
  | nil => exact absurd hq List.not_mem_nil
  | cons first rest ih =>
    rw [List.map_cons, List.nodup_cons] at hn
    rw [List.find?_cons]
    rcases List.mem_cons.mp hq with rfl | hm
    · rw [beq_self_eq_true]
    · have hne : (first.name == q.name) = false :=
        beq_false_of_ne fun heq => hn.1 (heq ▸ List.mem_map_of_mem hm)
      rw [hne]
      exact ih hn.2 hm

namespace Reference
variable [Arithmetic α] {p : Patch α} {s : Player α (SoundUnit α)} {object : Nat} {x : α}

section Calls
variable (hn : (p.parameters.map (·.name)).Nodup) (happart : ¬ IsNoteInput object)
  (hcount : p.count object = 1)
include happart

private theorem units_knob_generate (hl : LatchesTriggers s)
    (hx : s.units ⟨object, 0⟩ = .control x) (n : Nat) :
    (generate p s n).1.units ⟨object, 0⟩ = .control x := by
  induction n generalizing s with
  | zero => exact hx
  | succ n ih =>
    have htick : (tick p s).1.units ⟨object, 0⟩ = .control x := by
      rw [units_tick hl fun htrigger => happart htrigger.isNoteInput]
      exact units_computeAll hx _ _
    exact ih (fun place hm => absurd hm List.not_mem_nil) htick

include hn hcount

/-- A call puts a knob where it says, or leaves it where it is. -/
theorem units_knob_call (hl : LatchesTriggers s) (hx : s.units ⟨object, 0⟩ = .control x)
    (c : Call α) : (call p s c).1.units ⟨object, 0⟩ =
      .control (levelFrom p.parameters object x [c]) := by
  cases c with
  | noteOn note velocity => exact ((touches_noteOn note velocity).units _ happart).trans hx
  | noteOff note => exact ((touches_noteOff note).units _ happart).trans hx
  | releaseAll => exact (touches_releaseAll.units _ happart).trans hx
  | generate n => exact units_knob_generate happart hl hx n
  | setParameter name value =>
    -- The first parameter of a name is the only one, so it decides which knob is set.
    by_cases hq : ⟨name, object⟩ ∈ p.parameters
    · have hmem : (⟨object, 0⟩ : Place) ∈ p.placesOf object :=
        p.mem_placesOf.mpr ⟨rfl, hcount ▸ Nat.one_pos⟩
      show (setParameter p s name value).units _ = _
      rw [setParameter, find?_name hn hq]
      dsimp only
      rw [units_setAll, if_pos hmem, hx, setValue_control]
      simp [levelFrom, Call.valueFor?, hq]
    · have hother : ¬ ∃ q, p.parameters.find? (·.name == name) = some q ∧ q.object = object := by
        rintro ⟨⟨name', object'⟩, hfind, rfl⟩
        obtain rfl : name' = name := by simpa using List.find?_some hfind
        exact hq (List.mem_of_find?_eq_some hfind)
      rw [levelFrom_of_none _ _ fun c hm => by rw [List.mem_singleton.mp hm, Call.valueFor?, if_neg hq]]
      exact ((touches_setParameter name value).units ⟨object, 0⟩ hother).trans hx

theorem units_knob_run (hl : LatchesTriggers s) (hx : s.units ⟨object, 0⟩ = .control x)
    (calls : List (Call α)) : (run p s calls).1.units ⟨object, 0⟩ =
      .control (levelFrom p.parameters object x calls) := by
  induction calls generalizing s x with
  | nil => exact hx
  | cons c rest ih =>
    rw [levelFrom_cons]
    exact ih (hl.call c) (units_knob_call hn happart hcount hl hx c)

end Calls

/-- A knob starts in the middle. -/
theorem units_knob_start (settings : EngineSettings) {n : Node α} {c : UnitClass}
    (hobject : p.objects[object]? = some (n, c)) (hname : n.className = Builtin.knob)
    (hclass : Library.standard.catalog.resolve? n.className = some c)
    (hle : Builtin.objectCount ≤ object) :
    (start p Library.standard.registry settings).units ⟨object, 0⟩ = .control (ratio 1 2) := by
  have hother : object ≠ Builtin.firstVoiceInput + 4 := by
    rintro rfl
    exact absurd hle (by decide)
  have hkind : (Library.standard.catalog.resolve? Builtin.knob).bind
      (fun c => Library.standard.kind? c.name) = some .knob := by decide
  rw [← hname, hclass, Option.bind_some] at hkind
  rw [start]
  dsimp only
  rw [if_neg hother, unitAt, hobject]
  dsimp only
  rw [Library.registry]
  dsimp only
  rw [Library.create?, hkind]
  rfl

end Reference

namespace Engine
variable [Arithmetic α] {p : Patch α} {w : Wiring α} {g : Graph α} {e : Engine α}

/-- Whoever reads an instance in the next sample finds a value there. -/
def IsRead (e : Engine α) (id : Nat) (value : α) : Prop :=
  ∀ t ∈ e.sampleTurns, ∀ slot ∈ (e.wiring.outputs.getD id ⟨0, 0⟩).toList, ∀ found,
    (slot, found) ∈ t.reads → found = some value

/-- What is written to the slots of an instance is its value from outside. -/
private theorem writes_of_control {id : Nat} {place : Place} (hid : p.At id place) {x : α}
    {ids : List Nat} {places : List Place} (hids : List.Forall₂ p.At ids places) :
    ∀ {e : Engine α} (frame : α × α), Running p w e → e.units[id]? = some (.control x) →
      ∀ t ∈ e.turnsOf frame ids, ∀ slot ∈ (w.outputs.getD id ⟨0, 0⟩).toList, ∀ value,
        (slot, value) ∈ t.writes → value = x := by
  induction hids with
  | nil => exact fun _ _ _ t ht => absurd ht List.not_mem_nil
  | @cons id' place' ids places hid' _ ih =>
    intro e frame h hunit t ht slot hslot value hwrite
    obtain ⟨unit, hunit'⟩ := h.exists_unit hid'
    rw [turnsOf, turn?, hunit', Option.map_some, Option.toList_some, List.mem_append,
      List.mem_singleton] at ht
    rcases ht with rfl | ht
    · rw [turn, h.wiring_eq] at hwrite
      obtain ⟨hslot', hvalue⟩ := List.of_mem_zip hwrite
      -- A slot belongs to one place, so the turn that writes it is that of the instance.
      obtain ⟨⟨q, i⟩, hq, hi⟩ := (holds_outputs h.wired hid).exists_of_mem hslot
      obtain ⟨⟨q', i'⟩, hq', hi'⟩ := (holds_outputs h.wired hid').exists_of_mem hslot'
      have hsame : place = place' := by
        rw [← p.fst_of_mem_slotsOf hq, ← p.fst_of_mem_slotsOf hq']
        exact congrArg Prod.fst (Option.some.inj (hi.symm.trans hi'))
      obtain rfl := hid.injective (hsame ▸ hid')
      rw [hunit] at hunit'
      cases hunit'
      exact List.mem_singleton.mp hvalue
    · refine ih _ (h.computeInstance hid' frame) ?_ t ht slot hslot value hwrite
      rw [computeInstance_eq hunit']
      by_cases heq : id' = id
      · subst heq
        rw [hunit] at hunit'
        cases hunit'
        exact Array.getElem?_setIfInBounds_self_of_lt (Array.getElem?_eq_some_iff.mp hunit).1
      · exact (Array.getElem?_setIfInBounds_ne heq).trans hunit

/-- A unit with a value from outside is read as this value. -/
theorem isRead_of_control (h : Running p w e) (hfresh : FreshSample g w e.sampleTurns) {id : Nat}
    {place : Place} (hid : p.At id place) {x : α} (hunit : e.units[id]? = some (.control x)) :
    IsRead e id x := by
  intro t ht slot hslot found hread
  rw [h.wiring_eq] at hslot
  obtain ⟨before, after, hsplit⟩ := List.append_of_mem ht
  obtain ⟨value, rfl, hliteral | ⟨earlier, hearlier, hwrite⟩⟩ :=
    hfresh.fresh before t after hsplit slot found hread
  · exact absurd hslot (hliteral.apart id)
  · have hm : earlier ∈ e.sampleTurns := hsplit.symm ▸ List.mem_append_left _ hearlier
    rw [sampleTurns, h.wiring_eq] at hm
    rw [writes_of_control hid h.wired.order _ h hunit earlier hm slot hslot value hwrite]

/-- Of two engines the second differs in the units of one object. -/
structure SetsOnly (p : Patch α) (object : Nat) (e e' : Engine α) : Prop where
  wiring : e'.wiring = e.wiring
  values : e'.values = e.values
  latched : e'.latched = e.latched
  voices : e'.voices = e.voices
  units : ∀ id place, p.At id place → place.object ≠ object → e'.units[id]? = e.units[id]?

/-- The parameters of an engine are names of its knobs. Each knob is read as its level in the sample
that the next tick computes, and setting a name touches nothing but its knob. -/
structure Obeys (p : Patch α) (e : Engine α) (level : Nat → α) : Prop where
  accepts : ∀ name value,
    (e.setParameter name value).isSome = true ↔ name ∈ p.parameters.map (·.name)
  changes : ∀ q ∈ p.parameters, ∀ value e', e.setParameter q.name value = some e' →
    SetsOnly p q.object e e'
  sampled : e.Sampled e.sampleTurns
  reads : ∀ q ∈ p.parameters, ∃ id, p.At id ⟨q.object, 0⟩ ∧ IsRead e id (level q.object)

theorem isSome_setParameter (e : Engine α) (name : String) (value : α) :
    (e.setParameter name value).isSome = true ↔ name ∈ e.parameterNames := by
  rw [parameterNames, List.mem_map, setParameter]
  split
  · next hnone =>
    have hother := List.find?_eq_none.mp hnone
    simp only [Option.isSome_none, Bool.false_eq_true, false_iff]
    rintro ⟨slot, hslot, rfl⟩
    exact hother slot hslot (beq_self_eq_true _)
  · next slot hslot =>
    simp only [Option.isSome_some, true_iff]
    exact ⟨slot, List.mem_of_find?_eq_some hslot, by simpa using List.find?_some hslot⟩

theorem parameterNames_eq (hw : Wired p e.wiring) :
    e.parameterNames = p.parameters.map (·.name) := by
  rw [parameterNames]
  have hslots := hw.parameters
  generalize p.parameters = parameters at hslots
  generalize e.wiring.parameters = slots at hslots
  induction hslots with
  | nil => rfl
  | cons hslot _ ih => rw [List.map_cons, List.map_cons, ih, hslot.1]

theorem setsOnly_setParameter {s : Player α (SoundUnit α)} (h : Represents p w e s)
    (hw : Wired p w) (hn : (p.parameters.map (·.name)).Nodup) {q : Parameter}
    (hq : q ∈ p.parameters) {value : α} {e' : Engine α}
    (he' : e.setParameter q.name value = some e') : SetsOnly p q.object e e' := by
  have hrep := h.setParameter hw q.name value
  rw [he', Option.getD_some] at hrep
  obtain ⟨hvalues, hlatched, hvoices⟩ :
      e'.values = e.values ∧ e'.latched = e.latched ∧ e'.voices = e.voices := by
    rw [setParameter] at he'
    split at he'
    · cases he'
    · cases he'
      exact setAll_rest e _ _
  refine ⟨hrep.wiring.trans h.wiring.symm, hvalues, hlatched, hvoices, fun id place hid hne => ?_⟩
  rw [hrep.units id place hid, h.units id place hid]
  refine congrArg some ((touches_setParameter q.name value).units place ?_)
  rintro ⟨q', hfind, hobject⟩
  rw [find?_name hn hq] at hfind
  cases hfind
  exact hne hobject.symm

section Compiled
variable {program : Program} {o : Building.Options} {settings : EngineSettings} {g : Graph α}
  {e : Engine α}
  (hg : (Building.build Library.standard.catalog o program : Building.Outcome α).graph = some g)
  (he : Engine.ofGraph Library.standard settings g = .ok e) (calls : List (Call α))
include hg he

/-- At any time the next sample is fresh. -/
private theorem freshSample_run : FreshSample g e.wiring (e.run calls).1.sampleTurns := by
  obtain ⟨_, _, _, hclasses, _, _, hwiring, _⟩ := parts_of_ofRegistry he rfl
  exact freshSample_of_running hwiring (classed_ofGraph hclasses settings.voices)
    (Building.wellFormed_of_build hg) rfl
    ((running_of_ofGraph Library.standard_complete he rfl).run calls)

/-- At any time the turns of the next sample are what the tick does. -/
private theorem sampled_run : (e.run calls).1.Sampled (e.run calls).1.sampleTurns := by
  have hrunning := (running_of_ofGraph Library.standard_complete he rfl).run calls
  refine sampled_sampleTurns _ ?_
  rw [hrunning.wiring_eq]
  exact (freshSample_run hg he calls).once

/-- At any time the knob behind a parameter is read as its level. -/
private theorem exists_isRead (hnames : (g.parameters.map (·.name)).Nodup) {q : Parameter}
    (hq : q ∈ g.parameters) :
    ∃ id, (Patch.ofGraph Library.standard.catalog settings.voices g).At id ⟨q.object, 0⟩ ∧
      IsRead (e.run calls).1 id (knobLevel g.parameters q.object calls) := by
  obtain ⟨p, hp⟩ : ∃ p, p = Patch.ofGraph Library.standard.catalog settings.voices g := ⟨_, rfl⟩
  have hparameters : p.parameters = g.parameters := hp ▸ rfl
  obtain ⟨_, _, _, hclasses, _⟩ := parts_of_ofRegistry he hp
  obtain ⟨hw, hstart, _, hv⟩ := represents_of_ofRegistry he hp
  have hclassed : p.Classed Library.standard.catalog g.nodes :=
    hp ▸ classed_ofGraph hclasses settings.voices
  have hrunning := (running_of_ofGraph Library.standard_complete he hp).run calls
  obtain ⟨n, hn, hname, hown⟩ := Building.shared_of_build hg q hq
  obtain ⟨c, hc, hobject⟩ := hclassed.getElem? hn
  have hle := Building.objectCount_le_of_build hg q hq
  have hcount := p.count_eq hobject
  rw [hown, if_neg Bool.false_ne_true] at hcount
  have happart : ¬ IsNoteInput q.object := by
    have hten : Builtin.objectCount = 10 := rfl
    have hfive : Builtin.firstVoiceInput = 5 := rfl
    rw [IsNoteInput]
    omega
  have hplace : (⟨q.object, 0⟩ : Place) ∈ p.places :=
    List.mem_flatMap.mpr ⟨q.object, List.mem_range.mpr (List.getElem?_eq_some_iff.mp hobject).1,
      p.mem_placesOf.mpr ⟨rfl, hcount ▸ Nat.one_pos⟩⟩
  obtain ⟨id, hid⟩ := List.getElem?_of_mem hplace
  have hunit := units_knob_run (hparameters ▸ hnames) happart hcount
    (fun place hm => absurd hm List.not_mem_nil) (units_knob_start settings hobject hname hc hle)
    calls
  refine ⟨id, hp ▸ hid, isRead_of_control hrunning (freshSample_run hg he calls) hid ?_⟩
  rw [(hstart.run hw hv calls).1.units id _ hid, hunit, hparameters]
  rfl

end Compiled

/-- The parameters of a compiled text are the names of its shared knobs, in the order in which they
are bound. No name comes twice. Whatever is asked of the engine, each knob is read as the value that
was set last through one of its names. -/
theorem run_obeys (o : Building.Options) (source : String) {settings : EngineSettings}
    (hvoices : 0 < settings.voices) {g : Graph α}
    (hg : (Compilation.ofText Library.standard.catalog o source).graph? = some g) :
    let program := (Program.ofTokens (Token.scan source)).program
    (g.parameters = program.globalNames.filterMap fun name =>
      ((Building.built program : Building.State α).global.get? name).bind
        (Building.parameterFor? name)) ∧
    (g.parameters.map (·.name)).Nodup ∧
    (∀ q ∈ g.parameters, ∃ n, g.nodes[q.object]? = some n ∧ n.className = Builtin.knob ∧
      n.perVoice = false) ∧
    ∃ e : Engine α, Engine.ofGraph Library.standard settings g = .ok e ∧
      e.parameterNames = g.parameters.map (·.name) ∧
      ∀ calls, Obeys (Patch.ofGraph Library.standard.catalog settings.voices g) (e.run calls).1
        fun object => knobLevel g.parameters object calls := by
  intro program
  obtain ⟨_, hcheck, hbuild⟩ := Compilation.stages_of_graph? hg
  have hnames := Building.nodup_parameters_of_build hcheck hbuild
  obtain ⟨e, he⟩ :=
    exists_ofGraph Library.standard_complete (Building.wellFormed_of_build hbuild) hvoices
  obtain ⟨hw, hstart, _, hv⟩ := represents_of_ofRegistry he rfl
  refine ⟨Building.parameters_of_build hcheck hbuild, hnames, Building.shared_of_build hbuild, e,
    he, parameterNames_eq hw, fun calls => ⟨fun name value => ?_, fun q hq value e' he' => ?_,
      sampled_run hbuild he calls, fun q hq => exists_isRead hbuild he calls hnames hq⟩⟩
  · have hrun := (hstart.run hw hv calls).1
    rw [isSome_setParameter, parameterNames_eq (hrun.wiring ▸ hw)]
    rfl
  · exact setsOnly_setParameter (hstart.run hw hv calls).1 hw hnames hq he'

/-- A knob with two names. -/
def twins : String := "Knob level()\nloud = +level\nloud => output"

private abbrev twinsProgram : Program := (Program.ofTokens (Token.scan twins)).program

private theorem ofTokens_twins : Program.ofTokens (Token.scan twins) =
    ⟨⟨[⟨.global, .construction ⟨⟨"Knob", ⟨0, 4⟩⟩, some ⟨"level", ⟨5, 10⟩⟩, [], ⟨0, 12⟩⟩⟩,
      ⟨.global, .definition ⟨"loud", ⟨13, 17⟩⟩
        (.unary .plus (.name ⟨"level", ⟨21, 26⟩⟩) ⟨20, 26⟩) ⟨13, 26⟩⟩,
      ⟨.global, .chain (.name ⟨"loud", ⟨27, 31⟩⟩) [] (.name ⟨"output", ⟨35, 41⟩⟩)
        ⟨27, 41⟩⟩]⟩, []⟩ := by
  cbv

private theorem graph_twins :
    (Compilation.ofText Library.standard.catalog .standard twins).graph? =
      some ((Building.built twinsProgram : Building.State Float).graph .standard [10, 4]) := by
  have hread : (Program.ofTokens (Token.scan twins)).faults = [] := by rw [ofTokens_twins]
  have hcheck : (Checking.check Library.standard.catalog twinsProgram).faults = [] := by
    rw [twinsProgram, ofTokens_twins]
    rfl
  have hdependencies : (Building.built twinsProgram : Building.State Float).objects.map
      Building.Draft.dependencies = [[], [], [], [], [10, 10], [], [], [], [], [], []] := by
    rw [Building.built_eq, twinsProgram, ofTokens_twins]
    rfl
  have hfaults : (Building.built twinsProgram : Building.State Float).faults = [] := by
    rw [Building.built_eq, twinsProgram, ofTokens_twins]
    rfl
  have hschedule : Graph.schedule [[], [], [], [], [10, 10], [], [], [], [], [], []]
      Builtin.outputObject = .ok [10, 4] := by cbv
  exact Building.graph?_of_schedule hread hcheck hfaults hdependencies hschedule

/-- Both names set one knob, which is read as a quarter once it was set to it. -/
theorem run_obeys_twins :
    ∃ (g : Graph Float) (e : Engine Float),
      (Compilation.ofText Library.standard.catalog .standard twins).graph? = some g ∧
      Engine.ofGraph Library.standard .standard g = .ok e ∧
      e.parameterNames = ["level", "loud"] ∧
      Obeys (Patch.ofGraph Library.standard.catalog 5 g)
        (e.run [.setParameter "level" 1, .setParameter "loud" 0.25]).1 fun object =>
          knobLevel [⟨"level", 10⟩, ⟨"loud", 10⟩] object
            [.setParameter "level" 1, .setParameter "loud" 0.25] := by
  have hparameters : ((Building.built twinsProgram : Building.State Float).graph .standard
      [10, 4]).parameters = [⟨"level", 10⟩, ⟨"loud", 10⟩] := by
    rw [Building.parameters_graph, Building.built_eq, twinsProgram, ofTokens_twins]
    rfl
  have hvoices : 0 < EngineSettings.standard.voices := by decide
  obtain ⟨_, _, _, e, he, hnames, hobeys⟩ := run_obeys .standard twins hvoices graph_twins
  rw [hparameters] at hnames hobeys
  exact ⟨_, e, graph_twins, he, hnames, hobeys _⟩

end Engine
end Patchbay
