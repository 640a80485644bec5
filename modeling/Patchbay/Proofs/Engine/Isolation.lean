import Patchbay.Compilation
import Patchbay.Proofs.Building.Bindings
import Patchbay.Proofs.Engine.Freshness
import Patchbay.Proofs.Engine.Gaps

/-! Voices do not hear each other. What the objects of a voice give depends on the note inputs of
that voice, as long as they read nothing that all voices share. -/
namespace Patchbay
open Arithmetic (natural)
open Reference Reference.Patch Wiring
variable {α U : Type}

namespace Reference
variable [Arithmetic α] [Playable α U] {p : Patch α} {s t : Player α U} {P : Set Nat} {voice : Nat}

/-- Objects that each voice has for itself, that read none but themselves, and that calls reach by
the note inputs of the voices alone. -/
structure Patch.Secluded (p : Patch α) (P : Set Nat) : Prop where
  own : ∀ object ∈ P, ∀ n c, p.objects[object]? = some (n, c) → n.perVoice = true
  sources : ∀ object ∈ P, ∀ n c, p.objects[object]? = some (n, c) →
    ∀ source ∈ n.dependencies, source ∈ P
  settable : ∀ object ∈ P, p.Settable object → ∃ input : NoteInput, input.object = object

/-- The objects of `P` give the same for a voice, and have the same units. -/
structure Alike (P : Set Nat) (voice : Nat) (s t : Player α U) : Prop where
  values : ∀ object ∈ P, s.values ⟨object, voice⟩ = t.values ⟨object, voice⟩
  units : ∀ object ∈ P, s.units ⟨object, voice⟩ = t.units ⟨object, voice⟩

omit [Playable α U] in
/-- The sockets of an object receive the same from the same values. -/
theorem inputs_congr {values values' : Place → Nat → α} {n : Node α} (c : UnitClass)
    (hn : n.perVoice = true)
    (hsources : ∀ source ∈ n.dependencies, values ⟨source, voice⟩ = values' ⟨source, voice⟩ ∧
      ∀ n' c', p.objects[source]? = some (n', c') → n'.perVoice = true) :
    inputs p values n c voice = inputs p values' n c voice := by
  refine List.map_congr_left fun socket _ => ?_
  have hheard : ∀ x ∈ (n.mixes.get? socket.canonical).getD [],
      heard p values n voice x = heard p values' n voice x := by
    intro x hx
    cases x with
    | constant value span => rfl
    | output source name span =>
      have hdependency : source ∈ n.dependencies := by
        cases hmix : n.mixes.get? socket.canonical with
        | none =>
          rw [hmix] at hx
          exact absurd hx List.not_mem_nil
        | some mix =>
          rw [hmix] at hx
          exact List.mem_filterMap.mpr
            ⟨_, List.mem_flatten.mpr ⟨mix, SortedMap.mem_values hmix, hx⟩, rfl⟩
      obtain ⟨hvalues, hown⟩ := hsources source hdependency
      rw [heard, heard]
      cases hobject : p.objects[source]? with
      | none => rfl
      | some x =>
        obtain ⟨n', c'⟩ := x
        dsimp only
        cases c'.outputIndex? name with
        | none => rfl
        | some i =>
          dsimp only
          rw [hown n' c' hobject, hn, hvalues]
          rfl
  dsimp only
  rw [List.flatMap_congr hheard]

/-- Computing any place keeps the voice alike. -/
theorem Alike.compute (hp : p.Secluded P) (h : Alike P voice s t) (frame frame' : α × α)
    (place : Place) :
    Alike P voice (compute p s frame place).1 (compute p t frame' place).1 := by
  rw [Reference.compute, Reference.compute]
  cases hobject : p.objects[place.object]? with
  | none => exact h
  | some x =>
    obtain ⟨n, c⟩ := x
    dsimp only
    -- Other places do not matter; a place of the voice hears the same on both sides.
    by_cases hplace : place.object ∈ P ∧ place.voice = voice
    · obtain ⟨hmem, rfl⟩ := hplace
      have hinputs : inputs p s.values n c place.voice = inputs p t.values n c place.voice :=
        inputs_congr c (hp.own _ hmem n c hobject) fun source hsource =>
          have hm := hp.sources _ hmem n c hobject source hsource
          ⟨h.values source hm, hp.own source hm⟩
      have hunit : s.units place = t.units place := h.units place.object hmem
      have hvalues : s.values place = t.values place := h.values place.object hmem
      rw [hinputs, hunit, hvalues]
      refine ⟨fun object hm => ?_, fun object hm => ?_⟩
      · dsimp only
        rw [Function.update_apply, Function.update_apply, h.values object hm]
      · dsimp only
        rw [Function.update_apply, Function.update_apply, h.units object hm]
    · have hne : ∀ object ∈ P, (⟨object, voice⟩ : Place) ≠ place := by
        rintro object hm rfl
        exact hplace ⟨hm, rfl⟩
      refine ⟨fun object hm => ?_, fun object hm => ?_⟩
      · dsimp only
        rw [Function.update_of_ne (hne object hm), Function.update_of_ne (hne object hm)]
        exact h.values object hm
      · dsimp only
        rw [Function.update_of_ne (hne object hm), Function.update_of_ne (hne object hm)]
        exact h.units object hm

theorem Alike.computeAll (hp : p.Secluded P) (h : Alike P voice s t) (frame frame' : α × α)
    (places : List Place) :
    Alike P voice (computeAll p s frame places).1 (computeAll p t frame' places).1 := by
  induction places generalizing s t frame frame' with
  | nil => exact h
  | cons place rest ih => exact ih (h.compute hp frame frame' place) _ _

omit [Arithmetic α] in
/-- What is set on the note inputs of the voice keeps it alike if it is the same. -/
theorem Alike.gap (hp : p.Secluded P) (h : Alike P voice s t) {sets : NoteInput → List α}
    {s' t' : Player α U} (hs : Gap p voice sets s s') (ht : Gap p voice sets t t') :
    Alike P voice s' t' := by
  refine ⟨fun object hm => ?_, fun object hm => ?_⟩
  · rw [hs.touches.values, ht.touches.values, h.values object hm]
  · by_cases hsettable : p.Settable object
    · obtain ⟨input, rfl⟩ := hp.settable object hm hsettable
      rw [hs.own, ht.own, h.units _ hm]
    · rw [hs.touches.units _ hsettable, ht.touches.units _ hsettable, h.units object hm]

/-- A trigger falls if and only if it was set. -/
private theorem units_rest {sets : NoteInput → List α} (hp : p.Secluded P)
    (hempty : s.latched = []) (hs : Gap p voice sets s t) {object : Nat} (hm : object ∈ P) :
    (tick p t).1.units ⟨object, voice⟩ =
      if object = Builtin.firstVoiceInput ∧ sets .trigger ≠ [] then
        Playable.setValue (natural 0) ((Reference.computeAll p t (natural 0, natural 0)
          (p.order.flatMap p.placesOf)).1.units ⟨object, voice⟩)
      else (Reference.computeAll p t (natural 0, natural 0)
        (p.order.flatMap p.placesOf)).1.units ⟨object, voice⟩ := by
  have hkept := (rest_computeAll (p := p) (s := t) (natural 0, natural 0)
    (p.order.flatMap p.placesOf)).2
  have hnodup : t.latched.Nodup := hs.nodup (hempty ▸ List.nodup_nil)
  have hmem : (⟨object, voice⟩ : Place) ∈ t.latched ↔
      object = Builtin.firstVoiceInput ∧ sets .trigger ≠ [] := by
    have hlatched := hs.latched
    rw [hempty] at hlatched
    -- The trigger that all voices share may be latched as well, but is not in `P`.
    constructor
    · intro hin
      have htrigger : IsTrigger object := by
        rcases hs.touches.latched _ hin with hin | htrigger
        · rw [hempty] at hin
          exact absurd hin List.not_mem_nil
        · exact htrigger
      obtain ⟨input, rfl⟩ := hp.settable object hm (.inl htrigger.isNoteInput)
      have hfirst : input.object = Builtin.firstVoiceInput := by
        have hfive : 5 ≤ input.object := input.first_le
        rcases htrigger with hzero | hfirst
        · omega
        · exact hfirst
      rw [hfirst] at hin
      exact ⟨hfirst, (hlatched.mp hin).resolve_left List.not_mem_nil⟩
    · rintro ⟨rfl, hset⟩
      exact hlatched.mpr (.inr hset)
  rw [tick]
  dsimp only
  rw [units_setAll_of_nodup (hkept.symm ▸ hnodup), hkept]
  by_cases hin : (⟨object, voice⟩ : Place) ∈ t.latched
  · rw [if_pos hin, if_pos (hmem.mp hin)]
  · rw [if_neg hin, if_neg fun hset => hin (hmem.mpr hset)]

/-- After a sample the voice is as alike as it was after the one before. -/
theorem Alike.tick (hp : p.Secluded P) (h : Alike P voice s t) (hempty : s.latched = [])
    (hempty' : t.latched = []) {sets : NoteInput → List α} {s' t' : Player α U}
    (hs : Gap p voice sets s s') (ht : Gap p voice sets t t') :
    Alike P voice (Reference.tick p s').1 (Reference.tick p t').1 := by
  have hcomputed := (h.gap hp hs ht).computeAll hp (natural 0, natural 0) (natural 0, natural 0)
    (p.order.flatMap p.placesOf)
  refine ⟨fun object hm => ?_, fun object hm => ?_⟩
  · rw [values_tick, values_tick]
    exact hcomputed.values object hm
  · rw [units_rest hp hempty hs hm, units_rest hp hempty' ht hm, hcomputed.units object hm]

/-- A voice that hears the same in front of all samples so far is alike after them. -/
theorem Alike.samples (hp : p.Secluded P) {fronts fronts' : List (Player α U)}
    {sets sets' : List (NoteInput → List α)} (h : Alike P voice s t) (hempty : s.latched = [])
    (hempty' : t.latched = []) (hs : Samples p voice s fronts sets)
    (ht : Samples p voice t fronts' sets') {i : Nat} (hsets : ∀ j ≤ i, sets[j]? = sets'[j]?)
    {m n : Player α U} (hm : fronts[i]? = some m) (hn : fronts'[i]? = some n) :
    Alike P voice (Reference.tick p m).1 (Reference.tick p n).1 := by
  -- What is kept from sample to sample: the voice is alike, and nothing is latched.
  induction hs generalizing t fronts' sets' i with
  | nil => cases hm
  | cons hgap hrest ih =>
    cases ht with
    | nil => cases hn
    | cons hgap' hrest' =>
      obtain rfl := Option.some.inj (hsets 0 (Nat.zero_le _))
      have hnext := h.tick hp hempty hempty' hgap hgap'
      cases i with
      | zero =>
        cases hm
        cases hn
        exact hnext
      | succ i =>
        exact ih hnext latched_tick latched_tick hrest'
          (fun j hj => hsets (j + 1) (Nat.succ_le_succ hj)) hm hn

end Reference

/-- Objects that each voice has for itself, and that read none but themselves. -/
def Graph.Secluded (g : Graph α) (P : Set Nat) : Prop :=
  ∀ object ∈ P, ∀ n, g.nodes[object]? = some n →
    n.perVoice = true ∧ ∀ source ∈ n.dependencies, source ∈ P

section Graphs
variable {p : Patch α} {g : Graph α} {P : Set Nat} {catalog : Catalog}
  (hclassed : p.Classed catalog g.nodes) (hbuiltins : checkBuiltins p.objects = .ok ())
  (hshared : ∀ q ∈ p.parameters, ∃ n, g.nodes[q.object]? = some n ∧ n.perVoice = false)
include hclassed hbuiltins hshared

/-- No parameter stands for a note input of the voices. -/
private theorem not_isParameter (input : NoteInput) : ¬ p.IsParameter input.object := by
  rintro ⟨q, hq, hobject⟩
  obtain ⟨n, hn, hown⟩ := hshared q hq
  obtain ⟨i, hinput⟩ := Nat.exists_eq_add_of_le input.first_le
  have hi : i < Builtin.voiceInputs.length := by
    have hlast := input.lt_last
    have hfive : Builtin.voiceInputs.length = 5 := rfl
    omega
  obtain ⟨n', c, hfound, hown'⟩ := perVoice_of_check hbuiltins (own_mem_demands hi)
  have hsame : g.nodes[q.object]? = some n' := by
    rw [hobject, hinput]
    exact (hclassed.of_getElem? hfound).1
  rw [hn] at hsame
  cases hsame
  rw [hown] at hown'
  cases hown'

private theorem secluded_of_graph (hP : g.Secluded P) : p.Secluded P := by
  have hnode : ∀ object ∈ P, ∀ n c, p.objects[object]? = some (n, c) →
      n.perVoice = true ∧ ∀ source ∈ n.dependencies, source ∈ P :=
    fun object hm n c hobject => hP object hm n (hclassed.of_getElem? hobject).1
  refine ⟨fun object hm n c ho => (hnode object hm n c ho).1,
    fun object hm n c ho => (hnode object hm n c ho).2, fun object hm hsettable => ?_⟩
  rcases hsettable with (hlt | ⟨hfirst, hlast⟩) | ⟨q, hq, rfl⟩
  · obtain ⟨n, c, hfound, hown⟩ :=
      perVoice_of_check hbuiltins (shared_mem_demands (i := object) hlt)
    have hperVoice := (hnode object hm n c hfound).1
    rw [hown] at hperVoice
    cases hperVoice
  · exact NoteInput.exists_object hfirst hlast
  · obtain ⟨n, hn, hown⟩ := hshared q hq
    have hperVoice := (hP q.object hm n hn).1
    rw [hown] at hperVoice
    cases hperVoice

end Graphs

namespace Engine
variable [Arithmetic α] [Playable α U]

/-- The engine behind each sample. -/
def samples (e : Engine α U) (calls : List (Call α)) : List (Engine α U) :=
  (e.fronts calls).map fun e => e.tick.1

/-- Voices do not hear each other. Once the note inputs of a voice were set to the same in front of
each sample so far, all objects that the voice has for itself give the same, whatever else was asked
of the engine. -/
theorem samples_isolated {catalog : Catalog} {o : Building.Options} {source : String} {g : Graph α}
    (hg : (Compilation.ofText catalog o source).graph? = some g) {registry : Registry α U}
    {settings : EngineSettings} {e : Engine α U}
    (he : Engine.ofRegistry registry settings g = .ok e) {P : Set Nat} (hP : g.Secluded P)
    {voice : Nat} {calls calls' : List (Call α)} {i : Nat}
    (hsets : ∀ j ≤ i, (Call.noteSets settings.voices voice calls)[j]? =
      (Call.noteSets settings.voices voice calls')[j]?)
    {m n : Engine α U} (hm : (e.samples calls)[i]? = some m)
    (hn : (e.samples calls')[i]? = some n) :
    ∀ object ∈ P, ∀ id,
      (Patch.ofGraph registry.catalog settings.voices g).At id ⟨object, voice⟩ →
        ∀ slot ∈ (e.wiring.outputs.getD id ⟨0, 0⟩).toList,
          ∃ value, m.values[slot]? = some value ∧ n.values[slot]? = some value := by
  intro object hobject id hid slot hslot
  obtain ⟨_, classes, _, hclasses, hbuiltins, _⟩ := parts_of_ofRegistry he rfl
  obtain ⟨hw, hstart, _, hv⟩ := represents_of_ofRegistry he rfl
  have hclassed := classed_ofGraph hclasses settings.voices
  have hshared : ∀ q ∈ g.parameters, ∃ n, g.nodes[q.object]? = some n ∧ n.perVoice = false := by
    intro q hq
    obtain ⟨n, hn, _, hown⟩ :=
      Building.shared_of_build (Compilation.stages_of_graph? hg).2.2 q hq
    exact ⟨n, hn, hown⟩
  have hsecluded := secluded_of_graph hclassed hbuiltins hshared hP
  have hvoice : voice < settings.voices := by
    obtain ⟨n, c, hfound⟩ := hid.object
    have hlt := hid.voice_lt
    rwa [Patch.count_eq _ hfound, if_pos (hsecluded.own object hobject n c hfound)] at hlt
  have hvoices : (start (Patch.ofGraph registry.catalog settings.voices g) registry settings).voices =
      (NoteHistory.ofCount settings.voices : NoteHistory α).voices := rfl
  have hsamples := samples_fronts hvoice (not_isParameter hclassed hbuiltins hshared)
    (.refl _ voice _) hvoices
  obtain ⟨front, hfront, rfl⟩ := Option.map_eq_some_iff.mp ((List.getElem?_map).symm.trans hm)
  obtain ⟨front', hfront', rfl⟩ := Option.map_eq_some_iff.mp ((List.getElem?_map).symm.trans hn)
  obtain ⟨s, hs, hrep⟩ := forall₂_getElem? (hstart.fronts hw hv calls) hfront
  obtain ⟨t, ht, hrep'⟩ := forall₂_getElem? (hstart.fronts hw hv calls') hfront'
  have halike := (Alike.mk (fun _ _ => rfl) fun _ _ => rfl).samples hsecluded rfl rfl
    (hsamples calls) (hsamples calls') hsets hs ht
  obtain ⟨⟨place, k⟩, hplace, hk⟩ := (holds_outputs hw hid).exists_of_mem hslot
  obtain rfl : place = ⟨object, voice⟩ := Patch.fst_of_mem_slotsOf _ hplace
  refine ⟨_, (hrep.tick hw).1.values.outputs slot _ k hk, ?_⟩
  rw [halike.values object hobject]
  exact (hrep'.tick hw).1.values.outputs slot _ k hk

/-- The sines of `unison` hear the pitch of their voice and nothing else. -/
private theorem secluded_unison :
    ((Building.built unisonProgram : Building.State Float).graph .standard [7, 10, 4]).Secluded
      {7, 10} := by
  have hread : ((Building.built unisonProgram : Building.State Float).graph .standard
      [7, 10, 4]).nodes.map (fun n => (n.perVoice, n.dependencies)) =
        [(false, []), (false, []), (false, []), (false, []), (false, [10, 10]), (true, []),
          (true, []), (true, []), (true, []), (true, []), (true, [7])] := by
    rw [Building.built_eq, lines_unison]
    rfl
  rintro object (rfl | rfl) n hn
  · have hat := congrArg (·[7]?) hread
    rw [List.getElem?_map, hn] at hat
    obtain ⟨hown, hnone⟩ := Prod.mk.inj (Option.some.inj hat)
    exact ⟨hown, fun source hm => absurd (hnone ▸ hm) List.not_mem_nil⟩
  · have hat := congrArg (·[10]?) hread
    rw [List.getElem?_map, hn] at hat
    obtain ⟨hown, hsources⟩ := Prod.mk.inj (Option.some.inj hat)
    rw [hsources]
    exact ⟨hown, fun source hm => .inl (List.mem_singleton.mp hm)⟩

/-- A second note goes to another voice and does not reach the sine of the first. -/
theorem samples_isolated_unison :
    ∃ (g : Graph Float) (e : Engine Float),
      (Compilation.ofText Library.standard.catalog .standard unison).graph? = some g ∧
      Engine.ofGraph Library.standard .standard g = .ok e ∧ g.Secluded {7, 10} ∧
      (∀ j ≤ 0, (Call.noteSets 5 0 [.noteOn 60 (1 : Float), .generate 1])[j]? =
        (Call.noteSets 5 0 [.noteOn 60 1, .noteOn 64 1, .generate 1])[j]?) ∧
      ∃ m n, (e.samples [.noteOn 60 1, .generate 1])[0]? = some m ∧
        (e.samples [.noteOn 60 1, .noteOn 64 1, .generate 1])[0]? = some n ∧
        ∀ object ∈ ({7, 10} : Set Nat), ∀ id,
          (Patch.ofGraph Library.standard.catalog 5 g).At id ⟨object, 0⟩ →
            ∀ slot ∈ (e.wiring.outputs.getD id ⟨0, 0⟩).toList,
              ∃ value, m.values[slot]? = some value ∧ n.values[slot]? = some value := by
  have hvoices : 0 < EngineSettings.standard.voices := by decide
  have hg := Building.wellFormed_of_build (Compilation.stages_of_graph? graph_unison).2.2
  obtain ⟨e, he⟩ := exists_ofGraph Library.standard_complete hg hvoices
  have hsets : ∀ j ≤ 0, (Call.noteSets 5 0 [.noteOn 60 (1 : Float), .generate 1])[j]? =
      (Call.noteSets 5 0 [.noteOn 60 1, .noteOn 64 1, .generate 1])[j]? := by
    intro j hj
    obtain rfl := Nat.le_zero.mp hj
    have hother : (((Voices.ofCount 5).assign 60).1.assign 64).2 ≠ 0 := by decide +kernel
    have hrange : ¬ highestNote < 60 := by decide
    simp [Call.noteSets, Call.setsBetween, Call.sets, NoteHistory.after, NoteHistory.ofCount,
      NoteHistory.push, hother, hrange]
  exact ⟨_, e, graph_unison, he, secluded_unison, hsets, _, _, rfl, rfl,
    samples_isolated graph_unison he secluded_unison hsets rfl rfl⟩

end Engine
end Patchbay
