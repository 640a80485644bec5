import Patchbay.Proofs.Engine.Bounds

/-! No graph makes an engine look up a place that is not there, neither while it is built nor in any
calls to it. -/
namespace Patchbay
open Arithmetic (natural)
open Reference Reference.Patch Wiring
variable {α : Type}

namespace Library

/-- Every class has all sockets that its units read. -/
def Supplies (l : Library) : Prop :=
  ∀ name c kind, l.catalog.resolve? name = some c → l.kind? c.name = some kind →
    kind.reads ≤ c.sockets.length

private theorem standard_reads : ∀ c ∈ standard.catalog.classes.toList,
    (standard.kind? c.name).all (·.reads ≤ c.sockets.length) = true := by decide

theorem standard_supplies : standard.Supplies := by
  intro name c kind hc hkind
  have hreads := standard_reads c (Catalog.mem_of_resolve? hc)
  rw [hkind, Option.all_some, decide_eq_true_eq] at hreads
  exact hreads

end Library

namespace Wiring
open Engine (Fault)

namespace Guarded
variable {β γ : Type}

theorem lookUp_bind (b : β) (f : β → Guarded γ) : (lookUp (some b) >>= f) = f b := rfl

/-- One step after another finds all it looks up, if each does. -/
theorem bind_eq {x? : Guarded β} {x : Except Fault β} {f? : β → Guarded γ} {f : β → Except Fault γ}
    (hx : x? = ofExcept x) (hf : ∀ b, x = .ok b → f? b = ofExcept (f b)) :
    x? >>= f? = ofExcept (x >>= f) := by
  subst hx
  cases x with
  | error fault => rfl
  | ok b => exact hf b rfl

theorem mapM_eq {f? : β → Guarded γ} {f : β → Except Fault γ} {l : List β}
    (h : ∀ b ∈ l, f? b = ofExcept (f b)) : l.mapM f? = ofExcept (l.mapM f) := by
  induction l with
  | nil => rfl
  | cons b rest ih =>
    rw [List.mapM_cons, List.mapM_cons]
    refine bind_eq (h b List.mem_cons_self) fun _ _ => ?_
    exact bind_eq (ih fun c hc => h c (List.mem_cons_of_mem _ hc)) fun _ _ => rfl

theorem forM_eq {f? : β → Guarded Unit} {f : β → Except Fault Unit} {l : List β}
    (h : ∀ b ∈ l, f? b = ofExcept (f b)) : l.forM f? = ofExcept (l.forM f) := by
  induction l with
  | nil => rfl
  | cons b rest ih =>
    exact bind_eq (h b List.mem_cons_self) fun _ _ =>
      ih fun c hc => h c (List.mem_cons_of_mem _ hc)

end Guarded

private theorem object_lt_of_demand : ∀ d ∈ demands, d.object < Builtin.objectCount := by decide

theorem checkBuiltins?_eq (objects : List (Node α × UnitClass)) :
    checkBuiltins? objects = .ofExcept (checkBuiltins objects) := by
  rw [checkBuiltins?, checkBuiltins]
  split
  · rfl
  · next hmany =>
    refine Guarded.forM_eq fun d hd => ?_
    have hlt := Nat.lt_of_lt_of_le (object_lt_of_demand d hd) (Nat.le_of_not_lt hmany)
    rw [List.getElem?_eq_getElem hlt, Guarded.lookUp_bind]
    dsimp only
    split <;> rfl

variable {p : Patch α} {g : Graph α}

theorem objectCount_le (h : checkBuiltins p.objects = .ok ()) :
    Builtin.objectCount ≤ (placed p).length := by
  rw [checkBuiltins] at h
  split at h
  · cases h
  · next hmany => exact length_placed (p := p) ▸ Nat.le_of_not_lt hmany

theorem feedsOf?_eq {reader : Placed α} {voice : Nat}
    (hvoice : reader.node.perVoice = true → voice < p.voices) (c : Contribution α) :
    feedsOf? (placed p).toArray (outputTable p).toArray reader voice c =
      .ofExcept (feedsOf (placed p).toArray (outputTable p).toArray reader voice c) := by
  cases c with
  | constant value span => rfl
  | output object name span =>
    rw [feedsOf?, feedsOf]
    cases hq : (placed p).toArray[object]? with
    | none => rfl
    | some q =>
      dsimp only
      cases q.cls.outputIndex? name with
      | none => rfl
      | some place =>
        rw [List.getElem?_toArray] at hq
        have hslot : ∀ id ∈ (if q.node.perVoice && !reader.node.perVoice then q.instances.toList
              else [q.forVoice voice]),
            (do return .slot ((← .lookUp (outputTable p).toArray[id]?).start + place) :
              Guarded (Feed α)) = .ofExcept (pure
                (.slot (((outputTable p).toArray.getD id ⟨0, 0⟩).start + place))) := by
          intro id hid
          obtain ⟨source, hat, _⟩ := at_of_read hq hvoice hid
          obtain ⟨slots, hslots, _⟩ := getElem?_outputTable hat
          rw [Array.getD_eq_getD_getElem?, List.getElem?_toArray, hslots]
          rfl
        dsimp only
        rw [Guarded.mapM_eq hslot, List.mapM_pure]
        cases q.node.perVoice && !reader.node.perVoice <;> rfl

theorem instanceFeeds?_eq {reader : Placed α} {voice : Nat}
    (hvoice : reader.node.perVoice = true → voice < p.voices) :
    instanceFeeds? (placed p).toArray (outputTable p).toArray reader voice =
      .ofExcept (instanceFeeds (placed p).toArray (outputTable p).toArray reader voice) := by
  refine Guarded.mapM_eq fun socket _ => ?_
  exact Guarded.bind_eq (Guarded.mapM_eq fun c _ => feedsOf?_eq hvoice c) fun _ _ => rfl

theorem noteInputs?_eq {first : Nat} (h : first + 3 < (placed p).length) (voice : Nat) :
    noteInputs? (placed p).toArray first voice =
      some (noteInputs (placed p).toArray first voice) := by
  have found : ∀ i, i ≤ 3 → (placed p).toArray[first + i]?.map (·.forVoice voice) =
      some (((placed p).toArray[first + i]?.map (·.forVoice voice)).getD 0) := by
    intro i hi
    have hlt : first + i < (placed p).length := by omega
    rw [List.getElem?_toArray, List.getElem?_eq_getElem hlt]
    rfl
  rw [noteInputs?]
  dsimp only
  rw [found 0 (by decide), found 1 (by decide), found 2 (by decide), found 3 (by decide)]
  rfl

variable [Arithmetic α]

theorem ofGraph?_eq (h : checkBuiltins p.objects = .ok ()) :
    Wiring.ofGraph? p.voices g (placed p) = .ofExcept (Wiring.ofGraph p.voices g (placed p)) := by
  have hmany := objectCount_le h
  have hshared : 0 + 3 < (placed p).length := Nat.lt_of_lt_of_le (by decide) hmany
  have hown : Builtin.firstVoiceInput + 3 < (placed p).length :=
    Nat.lt_of_lt_of_le (by decide) hmany
  have houtput : Builtin.outputObject < (placed p).length := Nat.lt_of_lt_of_le (by decide) hmany
  rw [ofGraph?, ofGraph]
  refine Guarded.bind_eq (Guarded.mapM_eq fun r hr => ?_) fun feeds _ => ?_
  · exact instanceFeeds?_eq (voice_lt_of_mem_readers hr)
  refine Guarded.bind_eq rfl fun order _ => Guarded.bind_eq rfl fun parameters _ => ?_
  rw [List.getElem?_toArray, List.getElem?_eq_getElem houtput, Guarded.lookUp_bind,
    noteInputs?_eq hshared, Guarded.lookUp_bind,
    mapM_eq_some fun voice _ => noteInputs?_eq hown voice, Guarded.lookUp_bind]
  rfl

end Wiring

namespace Engine
variable [Arithmetic α]

theorem spreadVoices?_eq {e : Engine α} {inputs : Extent}
    (h : ∀ voice < inputs.size, inputs.start + voice < e.units.size) :
    e.spreadVoices? inputs = some (e.spreadVoices inputs) := by
  have hvoices : ∀ voice ∈ List.range inputs.size, inputs.start + voice < e.units.size :=
    fun voice hm => h voice (List.mem_range.mp hm)
  rw [spreadVoices?, spreadVoices]
  generalize (natural (max e.voices.voices.length 2 - 1) : α) = last
  generalize List.range inputs.size = voices at hvoices
  induction voices generalizing e with
  | nil => rfl
  | cons voice rest ih =>
    have hset : e.setUnit? (inputs.start + voice) (natural voice / last) =
        some (e.setUnit (inputs.start + voice) (natural voice / last)) :=
      if_pos (hvoices voice List.mem_cons_self)
    have hsize : (e.setUnit (inputs.start + voice) (natural voice / last)).units.size =
        e.units.size := Array.size_modify
    rw [List.foldlM_cons, hset]
    exact ih (fun voice hlt => hsize ▸ h voice hlt) fun voice hm =>
      hsize ▸ hvoices voice (List.mem_cons_of_mem _ hm)

variable {settings : EngineSettings} {g : Graph α}

/-- All instances of an object have units. -/
theorem lt_size_units {library : Library} {p : Patch α} {units : List (SoundUnit α)}
    (h : unitsOf library.registry settings (placed p) = .ok units) {object : Nat} {q : Placed α}
    (hq : (placed p)[object]? = some q) {voice : Nat} (hlt : voice < q.instances.size) :
    q.instances.start + voice < units.length := by
  obtain ⟨_, hholds⟩ := getElem?_placed_inv hq
  rw [hholds.size_eq, p.length_placesOf] at hlt
  have hat := hholds.getElem? (p.getElem?_placesOf hlt)
  exact (List.getElem?_eq_some_iff.mp (unitsOf_places h hat)).1

/-- Whatever the graph is, all that is looked up while its engine is built is there. -/
theorem ofGraph?_eq (library : Library) (settings : EngineSettings) (g : Graph α) :
    ofGraph? library settings g = .ofExcept (Engine.ofGraph library settings g) := by
  rw [ofGraph?, Engine.ofGraph, ofRegistry]
  split
  · rfl
  · refine Guarded.bind_eq rfl fun classes hclasses => ?_
    have hobjects := objects_ofGraph hclasses settings.voices
    generalize hp : Patch.ofGraph (library.registry (α := α)).catalog settings.voices g = p
      at hobjects
    have hcount : settings.voices = p.voices := hp ▸ rfl
    dsimp only
    rw [← hobjects, hcount]
    refine Guarded.bind_eq (checkBuiltins?_eq _) fun _ hbuiltins => ?_
    refine Guarded.bind_eq rfl fun units hunits => ?_
    refine Guarded.bind_eq (Wiring.ofGraph?_eq hbuiltins) fun wiring _ => ?_
    have hlast : Builtin.firstVoiceInput + 4 < (placed p).length :=
      Nat.lt_of_lt_of_le (by decide) (objectCount_le hbuiltins)
    have hq := List.getElem?_eq_getElem hlast
    have hspread := spreadVoices?_eq
      (e := (⟨wiring, units.toArray, wiring.initial, [], .ofCount p.voices⟩ : Engine α))
      fun voice hlt => lt_size_units hunits hq hlt
    rw [hq, Guarded.lookUp_bind, hspread]
    rfl

/-- Whatever a graph is, the engine that comes of it has all it looks up. -/
theorem secured_of_ofGraph {l : Library} (hl : l.Complete) (hreads : l.Supplies) {e : Engine α}
    (h : Engine.ofGraph l settings g = .ok e) :
    Secured (Patch.ofGraph l.catalog settings.voices g) e.wiring e := by
  obtain ⟨_, _, _, hclasses, _, _, hwiring, _⟩ := parts_of_ofRegistry h rfl
  have hclassed := classed_ofGraph hclasses settings.voices
  obtain ⟨_, hstart, _, _⟩ := represents_of_ofRegistry h rfl
  refine ⟨running_of_ofGraph hl h rfl, bounded_of_ofGraph hwiring, fun i n c hobject => ?_,
    fun id unit hunit place n c hid hobject => ?_, ?_⟩
  · exact hl.sockets _ c (hclassed.of_getElem? hobject).2
  · obtain ⟨_, hresolve⟩ := hclassed.of_getElem? hobject
    obtain ⟨kind, hkind, _⟩ := hl.kinds _ c hresolve
    have hcreate : ∀ (rate : α) (seed : UInt64),
        l.registry.create? c.name rate seed = some (SoundUnit.ofKind rate seed kind) := by
      intro rate seed
      show (l.kind? c.name).map _ = _
      rw [hkind, Option.map_some]
    rw [hstart.units id place hid] at hunit
    obtain rfl := Option.some.inj hunit
    have hnew : (unitAt (Patch.ofGraph l.catalog settings.voices g) l.registry settings
        place).InStep ∧ (unitAt (Patch.ofGraph l.catalog settings.voices g) l.registry settings
          place).reads ≤ c.sockets.length := by
      rw [unitAt, hobject]
      dsimp only
      rw [hcreate, Option.getD_some, SoundUnit.reads_ofKind]
      exact ⟨SoundUnit.inStep_ofKind _ _ _, hreads _ c kind hresolve hkind⟩
    obtain ⟨hstep, hle⟩ := hnew
    rw [start]
    dsimp only
    split
    · exact ⟨hstep.setValue _, (SoundUnit.reads_setValue _ _).trans_le hle⟩
    · exact ⟨hstep, hle⟩
  · rw [hstart.voices]
    exact Voices.consistent_ofCount _

/-- With the standard library and any settings, whatever is read as a graph is refused with a fault
or becomes an engine, and all calls to this engine go on as they are. No place that is looked up on
the way is missing. -/
theorem play?_finds_all (settings : EngineSettings) (g : Graph α) (calls : List (Call α)) :
    play? Library.standard settings g calls =
      .ofExcept ((Engine.ofGraph Library.standard settings g).map fun e => e.run calls) := by
  have hplay : play? Library.standard settings g calls =
      .ofExcept (Engine.ofGraph Library.standard settings g >>= fun e => .ok (e.run calls)) := by
    refine Guarded.bind_eq (ofGraph?_eq _ _ _) fun e he => ?_
    rw [(secured_of_ofGraph Library.standard_complete Library.standard_supplies he).run?_eq calls]
    rfl
  rw [hplay]
  cases Engine.ofGraph Library.standard settings g <;> rfl

end Engine
end Patchbay
