import Patchbay.Building.Export
import Patchbay.Proofs.Building.Valid
import Patchbay.Proofs.SortedMap

/-! Finished objects: they receive at each name of a socket what the object under construction
receives there, and read the same objects. -/
namespace Patchbay
variable {α : Type}

namespace UnitClass

theorem namesOf_sublist (o : Building.Options) {j : Jack} (h : j.names ≠ []) :
    (o.namesOf j).Sublist j.names := by
  rw [Building.Options.namesOf]
  split
  · exact List.singleton_sublist.mpr (Jack.canonical_mem h)
  · exact List.Sublist.refl _

theorem canonical_mem_namesOf (o : Building.Options) {j : Jack} (h : j.names ≠ []) :
    j.canonical ∈ o.namesOf j := by
  rw [Building.Options.namesOf]
  split
  · exact List.mem_singleton_self _
  · exact Jack.canonical_mem h

/-- The names under which the sockets of a regular class are exported are all distinct. -/
theorem Regular.nodup_namesOf {c : UnitClass} (h : c.Regular) (o : Building.Options) :
    (c.sockets.flatMap o.namesOf).Nodup := by
  have sub : ∀ jacks : List Jack, (∀ j ∈ jacks, j.names ≠ []) →
      (jacks.flatMap o.namesOf).Sublist (jacks.flatMap Jack.names) := by
    intro jacks hj
    induction jacks with
    | nil => exact List.Sublist.refl _
    | cons j rest ih =>
      rw [List.flatMap_cons, List.flatMap_cons]
      have hr := ih fun k hk => hj k (List.mem_cons_of_mem _ hk)
      exact (namesOf_sublist o (hj j List.mem_cons_self)).append hr
  exact h.socketNames.sublist (sub c.sockets h.socketsNamed)

end UnitClass

namespace Building

/-- What is exported: each mix under the names of its socket. -/
def exported (o : Options) (d : Draft α) : List (String × List (Contribution α)) :=
  (d.cls.sockets.zip d.mixes).flatMap fun (socket, mix) => (o.namesOf socket).map (·, mix)

section Exported
variable {o : Options} {d : Draft α}

theorem keys_exported (hl : d.mixes.length = d.cls.sockets.length) :
    (exported o d).map Prod.fst = d.cls.sockets.flatMap o.namesOf := by
  rw [exported]
  generalize d.cls.sockets = sockets at hl ⊢
  generalize d.mixes = mixes at hl ⊢
  induction sockets generalizing mixes with
  | nil => simp
  | cons j rest ih =>
    cases mixes with
    | nil => simp at hl
    | cons mix mixes =>
      have hr := ih mixes (Nat.succ.inj hl)
      simp_all [Function.comp_def]

variable (h : d.cls.Regular) (hl : d.mixes.length = d.cls.sockets.length)
include h hl

theorem perm_entries : (d.node o).mixes.entries.Perm (exported o d) := by
  refine SortedMap.perm_ofList ?_
  have hn := h.nodup_namesOf o
  rwa [← keys_exported hl] at hn

/-- Each socket is exported under its names, and nothing else is. -/
theorem perm_keys :
    ((d.node o).mixes.entries.map Prod.fst).Perm (d.cls.sockets.flatMap o.namesOf) :=
  keys_exported hl ▸ (perm_entries h hl).map Prod.fst

theorem mem_values {mix : List (Contribution α)} :
    mix ∈ (d.node o).mixes.values ↔ mix ∈ d.mixes := by
  rw [SortedMap.values, ((perm_entries h hl).map Prod.snd).mem_iff, exported]
  constructor
  · intro hm
    obtain ⟨⟨_, _⟩, he, rfl⟩ := List.mem_map.mp hm
    obtain ⟨⟨socket, mix⟩, hz, hn⟩ := List.mem_flatMap.mp he
    obtain ⟨_, _, he⟩ := List.mem_map.mp hn
    cases he
    exact (List.of_mem_zip hz).2
  · intro hm
    obtain ⟨i, hi⟩ := List.getElem?_of_mem hm
    have hlt : i < d.cls.sockets.length := hl ▸ (List.getElem?_eq_some_iff.mp hi).1
    have hj := List.getElem?_eq_getElem hlt
    have hz : (d.cls.sockets[i], mix) ∈ d.cls.sockets.zip d.mixes :=
      List.mem_of_getElem? (List.getElem?_zip_eq_some.mpr ⟨hj, hi⟩)
    have hne := h.socketsNamed _ (List.getElem_mem hlt)
    refine List.mem_map.mpr ⟨(d.cls.sockets[i].canonical, mix), ?_, rfl⟩
    exact List.mem_flatMap.mpr ⟨_, hz, List.mem_map_of_mem (UnitClass.canonical_mem_namesOf o hne)⟩

/-- At the proper name of a socket a finished object receives what was sent there. -/
theorem get?_canonical {i : Nat} {j : Jack} {mix : List (Contribution α)}
    (hj : d.cls.sockets[i]? = some j) (hm : d.mixes[i]? = some mix) :
    (d.node o).mixes.get? j.canonical = some mix := by
  have hn := h.nodup_namesOf o
  rw [← keys_exported hl] at hn
  refine SortedMap.get?_ofList hn ?_
  have hz : (j, mix) ∈ d.cls.sockets.zip d.mixes :=
    List.mem_of_getElem? (List.getElem?_zip_eq_some.mpr ⟨hj, hm⟩)
  have hne := h.socketsNamed j (List.mem_of_getElem? hj)
  exact List.mem_flatMap.mpr ⟨_, hz, List.mem_map_of_mem (UnitClass.canonical_mem_namesOf o hne)⟩

theorem mem_dependencies {id : Nat} : id ∈ (d.node o).dependencies ↔ id ∈ d.dependencies := by
  simp only [Node.dependencies, Draft.dependencies, List.mem_filterMap, List.mem_flatten,
    mem_values h hl]

end Exported

/-- A finished object as it stands in the graph. -/
def Draft.finished (o : Options) (d : Draft α) : Node α :=
  if o.removeSpans then (d.node o).stripSpans else d.node o

theorem State.nodes_graph (s : State α) (o : Options) (order : List Nat) :
    (s.graph o order).nodes = s.objects.map (Draft.finished o) := by
  rw [State.graph]
  split
  · next ho => simp [Graph.stripSpans, Draft.finished, ho]
  · next ho => simp [Draft.finished, ho]

theorem parameters_graph (s : State α) (o : Options) (order : List Nat) :
    (s.graph o order).parameters = s.parameters := by
  rw [State.graph]
  split <;> rfl

theorem object?_stripSpan (c : Contribution α) : c.stripSpan.object? = c.object? := by
  cases c <;> rfl

variable (o : Options) (d : Draft α)

@[simp] theorem className_finished : (d.finished o).className = d.cls.name := by
  rw [Draft.finished]
  split <;> rfl

@[simp] theorem perVoice_finished : (d.finished o).perVoice = d.perVoice := by
  rw [Draft.finished]
  split <;> rfl

theorem keys_finished :
    (d.finished o).mixes.entries.map Prod.fst = (d.node o).mixes.entries.map Prod.fst := by
  rw [Draft.finished]
  split
  · simp [Node.stripSpans, Function.comp_def]
  · rfl

/-- What a finished object receives at a socket, but for the places. -/
theorem get?_finished (key : String) :
    (d.finished o).mixes.get? key = (d.node o).mixes.get? key ∨
      (d.finished o).mixes.get? key =
        ((d.node o).mixes.get? key).map (·.map Contribution.stripSpan) := by
  rw [Draft.finished]
  split
  · exact .inr (SortedMap.get?_map _ _ _)
  · exact .inl rfl

/-- A summand in a finished object is one of the object, or one without its place. -/
theorem mem_finished {mix : List (Contribution α)} {c : Contribution α}
    (hm : mix ∈ (d.finished o).mixes.values) (hc : c ∈ mix) :
    ∃ mix ∈ (d.node o).mixes.values, ∃ c' ∈ mix, c = c' ∨ c = c'.stripSpan := by
  rw [Draft.finished] at hm
  split at hm
  · obtain ⟨e, he, rfl⟩ := List.mem_map.mp hm
    obtain ⟨old, hold, rfl⟩ := List.mem_map.mp he
    obtain ⟨c', hmem, rfl⟩ := List.mem_map.mp hc
    exact ⟨old.2, List.mem_map_of_mem hold, c', hmem, .inr rfl⟩
  · exact ⟨mix, hm, c, hc, .inl rfl⟩

theorem output_mem_finished {mix : List (Contribution α)} {id : Nat} {name : String}
    {span : Option Span} (hm : mix ∈ (d.finished o).mixes.values) (hc : .output id name span ∈ mix) :
    ∃ mix ∈ (d.node o).mixes.values, ∃ span, .output id name span ∈ mix := by
  obtain ⟨mix, hmix, c, hmem, rfl | hstrip⟩ := mem_finished o d hm hc
  · exact ⟨mix, hmix, span, hmem⟩
  · cases c with
    | output id' name' place =>
      cases hstrip
      exact ⟨mix, hmix, place, hmem⟩
    | constant value place => cases hstrip

theorem dependencies_finished : (d.finished o).dependencies = (d.node o).dependencies := by
  rw [Draft.finished]
  split
  · have hvalues : (d.node o).stripSpans.mixes.values =
        (d.node o).mixes.values.map (·.map Contribution.stripSpan) := by
      simp [Node.stripSpans, SortedMap.values, Function.comp_def]
    rw [Node.dependencies, hvalues, ← List.map_flatten, List.filterMap_map]
    have hread : (Contribution.object? ∘ Contribution.stripSpan : Contribution α → Option Nat) =
        Contribution.object? := funext object?_stripSpan
    rw [hread, Node.dependencies]
  · rfl

end Building
end Patchbay
