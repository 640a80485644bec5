import Patchbay.Engine.Basic
import Patchbay.Proofs.Engine.Numbering
import Patchbay.Proofs.Graph.Plain

/-! Engines hear a graph only through the proper names of its sockets: from the plain form of a
graph comes the same engine, or the same fault. -/
namespace Patchbay
variable {α : Type}

section Traversal
variable {β γ ε : Type}

private theorem mapM_congr {f g : β → Except ε γ} {l : List β} (h : ∀ b ∈ l, f b = g b) :
    l.mapM f = l.mapM g := by
  induction l with
  | nil => rfl
  | cons b rest ih =>
    have hrest := ih fun c hc => h c (List.mem_cons_of_mem _ hc)
    rw [List.mapM_cons, List.mapM_cons, h b List.mem_cons_self, hrest]

private theorem flatMapM_map {δ : Type} (f : γ → Except ε (List δ)) (g : β → γ) (l : List β) :
    (l.map g).flatMapM f = l.flatMapM (f ∘ g) := by
  induction l with
  | nil => rfl
  | cons b rest ih =>
    rw [List.map_cons, List.flatMapM_cons, List.flatMapM_cons, ih]
    rfl

private theorem bind_congr_ok {x : Except ε β} {f g : β → Except ε γ}
    (h : ∀ b, x = .ok b → f b = g b) : x >>= f = x >>= g := by
  cases x with
  | error fault => rfl
  | ok b => exact h b rfl

end Traversal

namespace Wiring
variable (catalog : Catalog)

/-- An object that is placed, in its plain form. -/
def Placed.plain (p : Placed α) : Placed α := { p with node := p.node.plain catalog }

variable {catalog}

theorem classesOf_plain (nodes : List (Node α)) :
    classesOf catalog (nodes.map (Node.plain catalog)) = classesOf catalog nodes := by
  rw [classesOf, List.mapM_map]
  rfl

theorem checkBuiltins_plain (objects : List (Node α × UnitClass)) :
    checkBuiltins (objects.map (Prod.map (Node.plain catalog) id)) = checkBuiltins objects := by
  rw [checkBuiltins, checkBuiltins, List.length_map]
  congr 2
  funext d
  rw [List.getElem?_map]
  cases objects[d.object]? with
  | none => rfl
  | some o => rfl

theorem place_plain (voices : Nat) (objects : List (Node α × UnitClass)) :
    place voices (objects.map (Prod.map (Node.plain catalog) id)) =
      (place voices objects).map (Placed.plain catalog) := by
  rw [place, place, List.map_map, List.map_zipWith, List.zipWith_map_left]
  rfl

/-- A summand is read from the same slots, wherever it stands in the text. -/
theorem feedsOf_plain (placed : Array (Placed α)) (outputs : Array Extent) (reader : Placed α)
    (voice : Nat) (c : Contribution α) :
    feedsOf (placed.map (Placed.plain catalog)) outputs (reader.plain catalog) voice c.stripSpan =
      feedsOf placed outputs reader voice c := by
  cases c with
  | constant value span => rfl
  | output object name span =>
    rw [Contribution.stripSpan, feedsOf, feedsOf, Array.getElem?_map]
    cases placed[object]? with
    | none => rfl
    | some producer => rfl

/-- The sockets of an instance read the same slots. -/
theorem instanceFeeds_plain (placed : Array (Placed α)) (outputs : Array Extent)
    {reader : Placed α} (hc : catalog.resolve? reader.node.className = some reader.cls)
    (voice : Nat) :
    instanceFeeds (placed.map (Placed.plain catalog)) outputs (reader.plain catalog) voice =
      instanceFeeds placed outputs reader voice := by
  refine mapM_congr fun socket hs => ?_
  have hmix : ((reader.plain catalog).node.mixes.get? socket.canonical).getD [] =
      ((reader.node.mixes.get? socket.canonical).getD []).map Contribution.stripSpan := by
    rw [Placed.plain, Node.get?_plain hc hs]
    cases reader.node.mixes.get? socket.canonical <;> rfl
  have hfeeds : feedsOf (placed.map (Placed.plain catalog)) outputs (reader.plain catalog) voice ∘
      Contribution.stripSpan = feedsOf placed outputs reader voice :=
    funext fun c => feedsOf_plain placed outputs reader voice c
  rw [hmix]
  dsimp only
  rw [List.mapM_map, hfeeds]

theorem instancesOf_plain (placed : Array (Placed α)) :
    instancesOf (placed.map (Placed.plain catalog)) = instancesOf placed := by
  funext object
  rw [instancesOf, instancesOf, Array.getElem?_map]
  cases placed[object]? <;> rfl

theorem noteInputs_plain (placed : Array (Placed α)) :
    noteInputs (placed.map (Placed.plain catalog)) = noteInputs placed := by
  funext first voice
  have hinput : ∀ i, (placed.map (Placed.plain catalog))[first + i]?.map (·.forVoice voice) =
      placed[first + i]?.map (·.forVoice voice) := by
    intro i
    rw [Array.getElem?_map, Option.map_map]
    rfl
  simp only [noteInputs, hinput]

/-- A graph and its plain form are wired alike. -/
theorem ofGraph_plain [Arithmetic α] (voices : Nat) (g : Graph α) {placed : List (Placed α)}
    (hp : ∀ p ∈ placed, catalog.resolve? p.node.className = some p.cls) :
    ofGraph voices (g.plain catalog) (placed.map (Placed.plain catalog)) =
      ofGraph voices g placed := by
  have htable : (placed.map (Placed.plain catalog)).toArray =
      placed.toArray.map (Placed.plain catalog) := List.map_toArray.symm
  have hreaders : ((placed.map (Placed.plain catalog)).flatMap fun p =>
        (List.range p.instances.size).map (p, ·)) =
      (placed.flatMap fun p => (List.range p.instances.size).map (p, ·)).map
        (Prod.map (Placed.plain catalog) id) := by
    rw [List.flatMap_map, List.map_flatMap]
    simp only [List.map_map]
    rfl
  have hfeeds : ∀ outputs : Array Extent,
      ((placed.flatMap fun p => (List.range p.instances.size).map (p, ·)).map
        (Prod.map (Placed.plain catalog) id)).mapM
          (fun r => instanceFeeds (placed.toArray.map (Placed.plain catalog)) outputs r.1 r.2) =
      (placed.flatMap fun p => (List.range p.instances.size).map (p, ·)).mapM
          fun r => instanceFeeds placed.toArray outputs r.1 r.2 := by
    intro outputs
    rw [List.mapM_map]
    refine mapM_congr fun r hr => ?_
    obtain ⟨p, hmem, hr⟩ := List.mem_flatMap.mp hr
    obtain ⟨voice, _, rfl⟩ := List.mem_map.mp hr
    exact instanceFeeds_plain placed.toArray outputs (hp p hmem) voice
  have hblocks : (placed.map (Placed.plain catalog)).map (·.instances) =
      placed.map (·.instances) := by
    rw [List.map_map]
    rfl
  have houtput : (placed.map (Placed.plain catalog))[Builtin.outputObject]? =
      placed[Builtin.outputObject]?.map (Placed.plain catalog) := List.getElem?_map
  have hstart : ((placed.map (Placed.plain catalog))[Builtin.outputObject]?.map
      (·.instances.start)) = placed[Builtin.outputObject]?.map (·.instances.start) := by
    rw [houtput, Option.map_map]
    rfl
  have hside : ∀ name, ((placed.map (Placed.plain catalog))[Builtin.outputObject]?.bind
      (·.cls.socketIndex? name)) = placed[Builtin.outputObject]?.bind (·.cls.socketIndex? name) := by
    intro name
    rw [houtput]
    cases placed[Builtin.outputObject]? <;> rfl
  simp only [ofGraph, htable, hreaders, List.map_map, List.foldl_map, hfeeds, instancesOf_plain,
    noteInputs_plain, hblocks, hstart, hside]
  rfl

end Wiring

namespace Engine
variable {U : Type} [Arithmetic α] [Playable α U] {registry : Registry α U}

omit [Arithmetic α] in
private theorem resolved_of_classesOf {catalog : Catalog} {nodes : List (Node α)}
    {classes : List UnitClass} (h : Wiring.classesOf catalog nodes = .ok classes) (voices : Nat) :
    ∀ p ∈ Wiring.place voices (nodes.zip classes),
      catalog.resolve? p.node.className = some p.cls := by
  intro p hp
  obtain ⟨i, hi⟩ := List.getElem?_of_mem hp
  obtain ⟨o, e, ho, he, rfl⟩ := List.getElem?_zipWith_eq_some.mp hi
  obtain ⟨hn, hc⟩ := List.getElem?_zip_eq_some.mp ho
  obtain ⟨c, hc', hok⟩ := forall₂_getElem? (forall₂_of_mapM h) hn
  rw [hc] at hc'
  cases hc'
  dsimp only at hok ⊢
  split at hok
  · cases hok
  · next hresolve =>
    split at hok
    · cases hok
    · cases hok
      exact hresolve

omit [Playable α U] in
theorem unitsOf_plain (settings : EngineSettings) (catalog : Catalog)
    (placed : List (Wiring.Placed α)) :
    unitsOf registry settings (placed.map (Wiring.Placed.plain catalog)) =
      unitsOf registry settings placed := by
  rw [unitsOf, flatMapM_map]
  rfl

/-- A graph and its plain form are played by one and the same engine. -/
theorem ofRegistry_plain (settings : EngineSettings) (g : Graph α) :
    ofRegistry registry settings (g.plain registry.catalog) = ofRegistry registry settings g := by
  have hnodes : (g.plain registry.catalog).nodes = g.nodes.map (Node.plain registry.catalog) := rfl
  rw [ofRegistry, ofRegistry, hnodes, Wiring.classesOf_plain]
  split
  · rfl
  refine bind_congr_ok fun classes hclasses => ?_
  have hplaced := resolved_of_classesOf hclasses settings.voices
  have hfifth : ∀ placed : List (Wiring.Placed α),
      (placed.map (Wiring.Placed.plain registry.catalog))[Builtin.firstVoiceInput + 4]?.map
        (·.instances) = placed[Builtin.firstVoiceInput + 4]?.map (·.instances) := by
    intro placed
    rw [List.getElem?_map, Option.map_map]
    rfl
  simp only [List.zip_map_left, Wiring.checkBuiltins_plain, Wiring.place_plain, unitsOf_plain,
    Wiring.ofGraph_plain settings.voices g hplaced, hfifth]

end Patchbay.Engine
