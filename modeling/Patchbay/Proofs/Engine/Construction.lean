import Patchbay.Proofs.Building.WellFormed
import Patchbay.Proofs.Engine.Start
import Patchbay.Proofs.Library.Complete

/-! Every well-formed graph can be played: nothing that stops the construction of an engine happens
to it. -/
namespace Patchbay
open Reference Reference.Patch Wiring
variable {α : Type}

section Except
variable {β ε : Type} {l : List α}

theorem exists_bind_ok {x : Except ε α} {f : α → Except ε β} {a : α} (hx : x = .ok a)
    (hf : ∃ b, f a = .ok b) : ∃ b, x >>= f = .ok b := by
  subst hx
  exact hf

theorem exists_mapM_ok {f : α → Except ε β} (h : ∀ a ∈ l, ∃ b, f a = .ok b) :
    ∃ r, l.mapM f = .ok r := by
  induction l with
  | nil => exact ⟨[], rfl⟩
  | cons a rest ih =>
    obtain ⟨b, hb⟩ := h a List.mem_cons_self
    obtain ⟨r, hr⟩ := ih fun a ha => h a (List.mem_cons_of_mem _ ha)
    refine ⟨b :: r, ?_⟩
    rw [List.mapM_cons, hb, hr]
    rfl

theorem exists_flatMapM_ok {f : α → Except ε (List β)} (h : ∀ a ∈ l, ∃ r, f a = .ok r) :
    ∃ r, l.flatMapM f = .ok r := by
  induction l with
  | nil => exact ⟨[], rfl⟩
  | cons a rest ih =>
    obtain ⟨part, hpart⟩ := h a List.mem_cons_self
    obtain ⟨r, hr⟩ := ih fun a ha => h a (List.mem_cons_of_mem _ ha)
    refine ⟨part ++ r, ?_⟩
    rw [List.flatMapM_cons, hpart, hr]
    rfl

theorem forM_eq_ok {f : α → Except ε Unit} (h : ∀ a ∈ l, f a = .ok ()) : l.forM f = .ok () := by
  induction l with
  | nil => rfl
  | cons a rest ih =>
    have hrest := ih fun a ha => h a (List.mem_cons_of_mem _ ha)
    show (f a >>= fun _ => rest.forM f) = .ok ()
    rw [h a List.mem_cons_self, hrest]
    rfl

end Except

theorem UnitClass.Regular.outputIndex?_canonical {c : UnitClass} (h : c.Regular) {name : String}
    (hn : name ∈ c.outputs.map Jack.canonical) : ∃ i, c.outputIndex? name = some i := by
  obtain ⟨j, hj, rfl⟩ := List.mem_map.mp hn
  rw [outputIndex?, ← Option.isSome_iff_exists, List.findIdx?_isSome, List.any_eq_true]
  exact ⟨j, hj, Jack.answersTo_iff.mpr (Jack.canonical_mem (h.outputsNamed j hj))⟩

namespace Reference.Patch

/-- The objects of a patch are nodes with their classes. -/
def Classed (catalog : Catalog) (nodes : List (Node α)) (p : Patch α) : Prop :=
  List.Forall₂ (fun n object => object.1 = n ∧ catalog.resolve? n.className = some object.2)
    nodes p.objects

variable {catalog : Catalog} {nodes : List (Node α)} {p : Patch α} {i : Nat} {n : Node α}

theorem classed_ofGraph {g : Graph α} {classes : List UnitClass}
    (h : classesOf catalog g.nodes = .ok classes) (voices : Nat) :
    (ofGraph catalog voices g).Classed catalog g.nodes := by
  have hresolve := resolve_of_classesOf h
  rw [Classed, objects_ofGraph h]
  clear h
  generalize g.nodes = nodes at hresolve
  induction hresolve with
  | nil => exact .nil
  | cons hc _ ih => exact .cons ⟨rfl, hc⟩ ih

theorem Classed.getElem? (h : p.Classed catalog nodes) (hn : nodes[i]? = some n) :
    ∃ c, catalog.resolve? n.className = some c ∧ p.objects[i]? = some (n, c) := by
  obtain ⟨⟨n', c⟩, hobject, rfl, hc⟩ := forall₂_getElem? h hn
  exact ⟨c, hc, hobject⟩

theorem Classed.of_getElem? (h : p.Classed catalog nodes) {c : UnitClass}
    (hobject : p.objects[i]? = some (n, c)) :
    nodes[i]? = some n ∧ catalog.resolve? n.className = some c := by
  obtain ⟨n', hn, rfl, hc⟩ := forall₂_getElem? h.flip hobject
  exact ⟨hn, hc⟩

end Reference.Patch

namespace Engine
variable {l : Library} {o : Building.Options} {g : Graph α} {p : Patch α}
  (hl : l.Complete) (hg : Building.WellFormed l.catalog o g) (hp : p.Classed l.catalog g.nodes)

section Objects
include hl hg

theorem exists_classesOf : ∃ classes, classesOf l.catalog g.nodes = .ok classes := by
  apply exists_mapM_ok
  intro n hn
  obtain ⟨c, hc, _⟩ := hg.sockets n hn
  have hfew : ¬ socketLimit < c.sockets.length := Nat.not_lt_of_le (hl.sockets _ c hc)
  refine ⟨c, ?_⟩
  rw [hc]
  dsimp only
  rw [if_neg hfew]

omit hl in
/-- What is demanded of an object is what the graph has there. -/
private theorem node_of_demand {d : Demand} (hd : d ∈ demands) :
    ∃ n, g.nodes[d.object]? = some n ∧ n.className = d.className ∧ n.perVoice = d.perVoice := by
  have hkinds : ∀ d ∈ demands, Building.builtinKinds[d.object]? = some (d.className, d.perVoice) ∧
      d.object < Builtin.objectCount := by decide
  obtain ⟨hkind, hlt⟩ := hkinds d hd
  rw [← hg.builtins, List.getElem?_map, List.getElem?_take_of_lt hlt] at hkind
  obtain ⟨n, hn, hboth⟩ := Option.map_eq_some_iff.mp hkind
  exact ⟨n, hn, Prod.mk.inj hboth⟩

omit hg in
private theorem isMet_of_demand {d : Demand} (hd : d ∈ demands) {c : UnitClass}
    (hc : l.catalog.resolve? d.className = some c) : d.isMet c d.perVoice = true := by
  have hkinds : ∀ d ∈ demands, d.className = Builtin.stereoOutput ∨
      d.className = Builtin.userInput ∧ d.object ≠ Builtin.outputObject := by decide
  rcases hkinds d hd with hname | ⟨hname, hobject⟩
  · obtain ⟨c', hc', hown, hleft, hright⟩ := hl.output
    rw [hname, hc'] at hc
    cases hc
    simp [Demand.isMet, hname, hown, hleft, hright]
  · obtain ⟨c', hc', hown⟩ := hl.input
    rw [hname, hc'] at hc
    cases hc
    simp [Demand.isMet, hname, hown, hobject]

include hp in
theorem checkBuiltins_eq_ok : checkBuiltins p.objects = .ok () := by
  have hcount : ¬ p.objects.length < Builtin.objectCount :=
    Nat.not_lt_of_le (hp.length_eq ▸ hg.objectCount_le)
  rw [checkBuiltins, if_neg hcount]
  apply forM_eq_ok
  intro d hd
  obtain ⟨n, hn, hname, hown⟩ := node_of_demand hg hd
  obtain ⟨c, hc, hobject⟩ := hp.getElem? hn
  rw [hname] at hc
  rw [hobject]
  dsimp only
  rw [hown, if_pos (isMet_of_demand hl hd hc)]

end Objects

section Wires
include hp

/-- The placed object of a node. -/
private theorem exists_placed {i : Nat} (hi : i < g.nodes.length) :
    ∃ q, (placed p)[i]? = some q := by
  obtain ⟨c, _, hobject⟩ := hp.getElem? (List.getElem?_eq_getElem hi)
  obtain ⟨e, hq, _⟩ := getElem?_placed hobject
  exact ⟨_, hq⟩

private theorem exists_instancesOf {i : Nat} (hi : i < g.nodes.length) :
    ∃ e, instancesOf (placed p).toArray i = .ok e := by
  obtain ⟨q, hq⟩ := exists_placed hp hi
  refine ⟨q.instances, ?_⟩
  rw [instancesOf, List.getElem?_toArray, hq]

private theorem of_mem_placed {q : Placed α} (hq : q ∈ placed p) :
    q.node ∈ g.nodes ∧ l.catalog.resolve? q.node.className = some q.cls := by
  obtain ⟨i, hi⟩ := List.getElem?_of_mem hq
  obtain ⟨hnode, hresolve⟩ := hp.of_getElem? (getElem?_placed_inv hi).1
  exact ⟨List.mem_of_getElem? hnode, hresolve⟩

include hl

theorem exists_unitsOf [Arithmetic α] (settings : EngineSettings) :
    ∃ units : List (SoundUnit α), unitsOf l.registry settings (placed p) = .ok units := by
  apply exists_flatMapM_ok
  intro q hq
  apply exists_mapM_ok
  intro id _
  obtain ⟨_, hresolve⟩ := of_mem_placed hp hq
  obtain ⟨unit, hunit, _⟩ := hl.exists_create? hresolve (Arithmetic.natural settings.sampleRate : α)
    (UInt64.ofNat (settings.seed + id))
  have hregistry : (l.registry (α := α)).create? q.cls.name
      (Arithmetic.natural settings.sampleRate) (UInt64.ofNat (settings.seed + id)) = some unit := hunit
  refine ⟨unit, ?_⟩
  rw [hregistry]

include hg

private theorem exists_feedsOf (outputs : Array Extent) {reader : Placed α} (voice : Nat)
    (hr : reader.node ∈ g.nodes) {mix : List (Contribution α)}
    (hm : mix ∈ reader.node.mixes.values) {c : Contribution α} (hc : c ∈ mix) :
    ∃ feeds, feedsOf (placed p).toArray outputs reader voice c = .ok feeds := by
  cases c with
  | constant value span => exact ⟨_, rfl⟩
  | output object name span =>
    obtain ⟨source, cls, hsource, hcls, hname⟩ := hg.contributions _ hr mix hm object name span hc
    obtain ⟨c, hc, hobject⟩ := hp.getElem? hsource
    rw [hcls] at hc
    cases hc
    obtain ⟨e, hq, _⟩ := getElem?_placed hobject
    obtain ⟨i, hi⟩ := (hl.regular _ _ hcls).1.outputIndex?_canonical hname
    rw [feedsOf, List.getElem?_toArray, hq]
    dsimp only
    rw [hi]
    dsimp only
    split
    · exact ⟨_, rfl⟩
    · exact ⟨_, rfl⟩

private theorem exists_instanceFeeds (outputs : Array Extent) {reader : Placed α} (voice : Nat)
    (hr : reader.node ∈ g.nodes) :
    ∃ feeds, instanceFeeds (placed p).toArray outputs reader voice = .ok feeds := by
  apply exists_mapM_ok
  intro socket _
  have hmix : ∀ c ∈ (reader.node.mixes.get? socket.canonical).getD [],
      ∃ feeds, feedsOf (placed p).toArray outputs reader voice c = .ok feeds := by
    intro c hc
    cases hget : reader.node.mixes.get? socket.canonical with
    | none =>
      rw [hget] at hc
      exact absurd hc List.not_mem_nil
    | some mix =>
      rw [hget] at hc
      exact exists_feedsOf hl hg hp outputs voice hr (SortedMap.mem_values hget) hc
  obtain ⟨parts, hparts⟩ := exists_mapM_ok hmix
  refine ⟨parts.flatten, ?_⟩
  dsimp only
  rw [hparts]
  rfl

theorem exists_wiring [Arithmetic α] :
    ∃ w, Wiring.ofGraph p.voices g (placed p) = .ok w := by
  have hfeeds : ∀ r ∈ readers p, ∃ f,
      instanceFeeds (placed p).toArray (outputTable p).toArray r.1 r.2 = .ok f := by
    rintro ⟨q, voice⟩ hr
    obtain ⟨q', hq', hmap⟩ := List.mem_flatMap.mp hr
    obtain ⟨_, _, hpair⟩ := List.mem_map.mp hmap
    cases hpair
    exact exists_instanceFeeds hl hg hp _ voice (of_mem_placed hp hq').1
  obtain ⟨feeds, hfeeds⟩ := exists_mapM_ok hfeeds
  obtain ⟨order, horder⟩ := exists_mapM_ok fun i hi =>
    exists_instancesOf hp (hg.lt_of_mem_order hi)
  have hslots : ∀ parameter ∈ g.parameters, ∃ slot, (do
      return (⟨parameter.name, ← instancesOf (placed p).toArray parameter.object⟩ : Slot)) =
        .ok slot := by
    intro parameter hparameter
    obtain ⟨e, he⟩ := exists_instancesOf hp (hg.parameters parameter hparameter)
    refine ⟨⟨parameter.name, e⟩, ?_⟩
    rw [he]
    rfl
  obtain ⟨slots, hslots⟩ := exists_mapM_ok hslots
  rw [Wiring.ofGraph]
  exact exists_bind_ok hfeeds (exists_bind_ok horder (exists_bind_ok hslots ⟨_, rfl⟩))

end Wires

/-- Every well-formed graph can be played with a complete library. -/
theorem exists_ofGraph [Arithmetic α] {settings : EngineSettings} (hl : l.Complete)
    (hg : Building.WellFormed l.catalog o g) (hv : 0 < settings.voices) :
    ∃ e : Engine α, Engine.ofGraph l settings g = .ok e := by
  obtain ⟨classes, hclasses⟩ := exists_classesOf hl hg
  have hp := classed_ofGraph hclasses settings.voices
  have hbuiltins := checkBuiltins_eq_ok hl hg hp
  obtain ⟨units, hunits⟩ := exists_unitsOf hl hp settings
  obtain ⟨w, hw⟩ := exists_wiring hl hg hp
  rw [objects_ofGraph hclasses] at hbuiltins
  rw [placed, objects_ofGraph hclasses] at hunits hw
  rw [Engine.ofGraph, Engine.ofRegistry, if_neg (Nat.ne_of_gt hv)]
  exact exists_bind_ok hclasses (exists_bind_ok hbuiltins (exists_bind_ok hunits
    (exists_bind_ok hw ⟨_, rfl⟩)))

end Engine
end Patchbay
