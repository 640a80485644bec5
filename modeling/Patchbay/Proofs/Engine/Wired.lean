import Patchbay.Proofs.Catalog.Regular
import Patchbay.Proofs.Engine.Places

/-! The wiring of a graph: what an instance finds in the slots that its sockets read is what its
place hears. -/
namespace Patchbay
open Reference Reference.Patch
variable {α : Type}

namespace Wiring
variable {p : Patch α}

theorem outputCount_eq {object : Nat} {q : Placed α} (h : (placed p)[object]? = some q) :
    p.outputCount object = q.cls.outputs.length := by
  rw [outputCount, (getElem?_placed_inv h).1, Option.map_some, Option.getD_some]

/-- For each instance the slots of its outputs. -/
abbrev outputTable (p : Patch α) : List Extent :=
  Extent.tile 0 ((readers p).map (·.1.cls.outputs.length))

private theorem sizes_eq : (readers p).map (·.1.cls.outputs.length) =
    (p.places.map p.slotsOf).map List.length := by
  have h := forall₂_readers (p := p)
  generalize p.places = places at h
  generalize readers p = readers at h
  induction h with
  | nil => rfl
  | cons hr _ ih =>
    rw [List.map_cons, List.map_cons, List.map_cons, ih, p.length_slotsOf, outputCount_eq hr.1]

theorem getElem?_outputTable {id : Nat} {place : Place} (h : p.At id place) :
    ∃ e, (outputTable p)[id]? = some e ∧ e.Holds p.slots (p.slotsOf place) := by
  have hpart : (p.places.map p.slotsOf)[id]? = some (p.slotsOf place) := by
    rw [List.getElem?_map, h, Option.map_some]
  rw [outputTable, sizes_eq]
  exact Extent.tile_holds hpart

theorem length_slots :
    (readers p).foldl (fun n r => n + r.1.cls.outputs.length) 0 = p.slots.length := by
  have hfold : ∀ (l : List (Placed α × Nat)) (n : Nat),
      l.foldl (fun n r => n + r.1.cls.outputs.length) n =
        n + (l.map (·.1.cls.outputs.length)).sum := by
    intro l
    induction l with
    | nil => intro n; rfl
    | cons r rest ih =>
      intro n
      rw [List.foldl_cons, ih, List.map_cons, List.sum_cons, Nat.add_assoc]
  rw [hfold, Nat.zero_add, sizes_eq, slots, List.length_flatMap, List.map_map]
  rfl

/-- The slot of an output. -/
theorem getElem?_slots {id : Nat} {place : Place} (h : p.At id place) {i : Nat}
    (hi : i < p.outputCount place.object) :
    p.slots[((outputTable p).toArray.getD id ⟨0, 0⟩).start + i]? = some (place, i) := by
  obtain ⟨e, he, hholds⟩ := getElem?_outputTable h
  have hget : (outputTable p).toArray.getD id ⟨0, 0⟩ = e := by
    rw [Array.getD_eq_getD_getElem?, List.getElem?_toArray, he, Option.getD_some]
  rw [hget]
  exact hholds.getElem? (p.getElem?_slotsOf hi)

section Feeds
variable [Arithmetic α] {latest : Place → Nat → α} {values : Array α}

/-- The signal that is read. -/
def Feed.worth (values : Array α) : Feed α → α
  | .slot i => values.getD i (Arithmetic.natural 0)
  | .constant value => value

/-- The slots of outputs hold the values of a player. -/
def Carried (p : Patch α) (values : Array α) (latest : Place → Nat → α) : Prop :=
  ∀ (k : Nat) (place : Place) (i : Nat), p.slots[k]? = some (place, i) →
    values[k]? = some (latest place i)

theorem Carried.worth_slot (h : Carried p values latest) {id : Nat} {place : Place}
    (hid : p.At id place) {i : Nat} (hi : i < p.outputCount place.object) :
    Feed.worth values (.slot (((outputTable p).toArray.getD id ⟨0, 0⟩).start + i)) =
      latest place i := by
  rw [Feed.worth, Array.getD_eq_getD_getElem?, h _ place i (getElem?_slots hid hi), Option.getD_some]

/-- All instances of an object together carry the values at its places. -/
theorem Carried.worth_instances (h : Carried p values latest) {object : Nat} {q : Placed α}
    (hq : (placed p)[object]? = some q) {i : Nat} (hi : i < p.outputCount object) :
    q.instances.toList.map (fun id => Feed.worth values
        (.slot (((outputTable p).toArray.getD id ⟨0, 0⟩).start + i))) =
      (p.placesOf object).map fun place => latest place i := by
  apply (getElem?_placed_inv hq).2.map_eq
  intro id place hm hid
  apply h.worth_slot hid
  rwa [(p.mem_placesOf.mp hm).1]

omit [Arithmetic α] in
/-- An output that is read is one of an object of the patch. -/
theorem of_feedsOf_output {reader : Placed α} {object voice : Nat} {name : String}
    {span : Option Span} {feeds : List (Feed α)}
    (hf : feedsOf (placed p).toArray (outputTable p).toArray reader voice (.output object name span) =
      .ok feeds) :
    ∃ q i, (placed p)[object]? = some q ∧ q.cls.outputIndex? name = some i ∧
      i < p.outputCount object ∧
      feeds = (if q.node.perVoice && !reader.node.perVoice then q.instances.toList
        else [q.forVoice voice]).map fun id =>
          .slot (((outputTable p).toArray.getD id ⟨0, 0⟩).start + i) := by
  rw [feedsOf, List.getElem?_toArray] at hf
  split at hf
  · cases hf
  · next q hq =>
    split at hf
    · cases hf
    · next i hi =>
      have hlt : i < p.outputCount object := by
        rw [outputCount_eq hq]
        exact (List.findIdx?_eq_some_iff_getElem.mp hi).1
      refine ⟨q, i, hq, hi, hlt, ?_⟩
      split at hf
      · next hall =>
        rw [if_pos hall]
        exact (Except.ok.inj hf).symm
      · next hown =>
        rw [if_neg hown]
        exact (Except.ok.inj hf).symm

/-- What a summand is read from is worth what the place of the reader hears. -/
theorem worth_feedsOf (h : Carried p values latest) {reader : Placed α} {voice : Nat}
    (hvoice : reader.node.perVoice = true → voice < p.voices) {c : Contribution α}
    {feeds : List (Feed α)}
    (hf : feedsOf (placed p).toArray (outputTable p).toArray reader voice c = .ok feeds) :
    feeds.map (Feed.worth values) = heard p latest reader.node voice c := by
  cases c with
  | constant value span =>
    cases hf
    rfl
  | output object name span =>
    obtain ⟨q, i, hq, hi, hlt, rfl⟩ := of_feedsOf_output hf
    have hobject := (getElem?_placed_inv hq).1
    have hcount := p.count_eq hobject
    have hslot := at_forVoice hq voice
    rw [heard, hobject]
    dsimp only
    rw [hi, List.map_map]
    cases hown : q.node.perVoice with
    | false =>
      rw [hown, if_neg Bool.false_ne_true] at hcount hslot
      have hid := hslot (hcount ▸ Nat.one_pos)
      exact congrArg ([·]) (h.worth_slot hid hlt)
    | true =>
      rw [hown, if_pos rfl] at hcount hslot
      cases hreader : reader.node.perVoice with
      | true =>
        have hid := hslot (hcount ▸ hvoice hreader)
        exact congrArg ([·]) (h.worth_slot hid hlt)
      | false =>
        refine (h.worth_instances hq hlt).trans ?_
        rw [placesOf, List.map_map, hcount]
        rfl

theorem worth_mix (h : Carried p values latest) {reader : Placed α} {voice : Nat}
    (hvoice : reader.node.perVoice = true → voice < p.voices) {mix : List (Contribution α)}
    {parts : List (List (Feed α))}
    (hf : List.Forall₂ (fun c part =>
      feedsOf (placed p).toArray (outputTable p).toArray reader voice c = .ok part) mix parts) :
    parts.flatten.map (Feed.worth values) = mix.flatMap (heard p latest reader.node voice) := by
  induction hf with
  | nil => rfl
  | cons hc _ ih =>
    rw [List.flatten_cons, List.map_append, List.flatMap_cons, ih, worth_feedsOf h hvoice hc]

/-- The sum of what is read at a socket. -/
def Feed.sum (values : Array α) (feeds : List (Feed α)) : α :=
  (feeds.map (Feed.worth values)).foldl (· + ·) (Arithmetic.natural 0)

/-- The feeds of an instance, socket by socket, are worth what is summed at its place. -/
theorem sum_instanceFeeds (h : Carried p values latest) {reader : Placed α} {voice : Nat}
    (hvoice : reader.node.perVoice = true → voice < p.voices) {feeds : List (List (Feed α))}
    (hf : instanceFeeds (placed p).toArray (outputTable p).toArray reader voice = .ok feeds) :
    feeds.map (Feed.sum values) = inputs p latest reader.node reader.cls voice := by
  have hsockets := forall₂_of_mapM hf
  clear hf
  rw [inputs]
  generalize reader.cls.sockets = sockets at hsockets
  induction hsockets with
  | nil => rfl
  | @cons socket found _ _ hfound _ ih =>
    dsimp only at hfound
    rw [List.map_cons, List.map_cons, ih]
    congr 1
    cases hmix : ((reader.node.mixes.get? socket.canonical).getD []).mapM
        (feedsOf (placed p).toArray (outputTable p).toArray reader voice) with
    | error fault =>
      rw [hmix] at hfound
      cases hfound
    | ok parts =>
      rw [hmix] at hfound
      cases hfound
      rw [Feed.sum, worth_mix h hvoice (forall₂_of_mapM hmix)]

/-- The slot that a feed becomes: its own, or one behind all others for a constant. -/
def Feed.Becomes (next : Nat) (constants : List α) (k : Nat) : Feed α → Prop
  | .slot i => k = i
  | .constant value => next ≤ k ∧ constants[k - next]? = some value

omit [Arithmetic α] in
theorem getElem?_number (next : Nat) {feeds : List (Feed α)} {i : Nat} {feed : Feed α}
    (h : feeds[i]? = some feed) :
    ∃ k, (number next feeds)[i]? = some k ∧ feed.Becomes next (constantsOf feeds) k := by
  induction feeds generalizing next i with
  | nil => cases h
  | cons first rest ih =>
    cases first with
    | slot slot =>
      cases i with
      | zero =>
        cases h
        exact ⟨slot, rfl, rfl⟩
      | succ i => exact ih next h
    | constant value =>
      cases i with
      | zero =>
        cases h
        refine ⟨next, rfl, Nat.le_refl _, ?_⟩
        rw [Nat.sub_self]
        rfl
      | succ i =>
        obtain ⟨k, hk, hfeed⟩ := ih (next + 1) h
        refine ⟨k, hk, ?_⟩
        cases feed with
        | slot slot => exact hfeed
        | constant other =>
          obtain ⟨hle, hvalue⟩ := hfeed
          refine ⟨Nat.le_of_succ_le hle, ?_⟩
          have hpred : k - next = k - (next + 1) + 1 := by omega
          rw [hpred]
          exact hvalue

/-- The slots behind those of outputs hold the constants. -/
def Constant (p : Patch α) (values : Array α) (constants : List α) : Prop :=
  ∀ k : Nat, p.slots.length ≤ k → values[k]? = constants[k - p.slots.length]?

theorem worth_number {feeds : List (Feed α)} (h : Constant p values (constantsOf feeds)) {i : Nat}
    {feed : Feed α} (hi : feeds[i]? = some feed) :
    values.getD ((number p.slots.length feeds).toArray.getD i 0) (Arithmetic.natural 0) =
      feed.worth values := by
  obtain ⟨k, hk, hfeed⟩ := getElem?_number p.slots.length hi
  have harg : (number p.slots.length feeds).toArray.getD i 0 = k := by
    rw [Array.getD_eq_getD_getElem?, List.getElem?_toArray, hk, Option.getD_some]
  rw [harg]
  cases feed with
  | slot slot => rw [show k = slot from hfeed, Feed.worth]
  | constant value =>
    rw [Array.getD_eq_getD_getElem?, h k hfeed.1, hfeed.2, Option.getD_some, Feed.worth]

theorem sum_args {w : Wiring α} {feeds : List (List (Feed α))}
    (hargs : w.args = (number p.slots.length feeds.flatten).toArray)
    (hsockets : w.socketArgs = (Extent.tile 0 (feeds.map List.length)).toArray)
    (h : Constant p values (constantsOf feeds.flatten)) {socket : Nat} {found : List (Feed α)}
    (hfound : feeds[socket]? = some found) :
    Engine.socketSum w values (w.socketArgs.getD socket ⟨0, 0⟩) = Feed.sum values found := by
  obtain ⟨e, he, hholds⟩ := Extent.tile_holds hfound
  have hget : w.socketArgs.getD socket ⟨0, 0⟩ = e := by
    rw [hsockets, Array.getD_eq_getD_getElem?, List.getElem?_toArray, he, Option.getD_some]
  have hworth : e.toList.map (fun i => values.getD (w.args.getD i 0) (Arithmetic.natural 0)) =
      found.map (Feed.worth values) := by
    refine hholds.map_eq fun i feed _ hi => ?_
    rw [hargs]
    exact worth_number h hi
  rw [hget, Feed.sum, ← hworth, List.foldl_map, Engine.socketSum]

/-- The slots of outputs hold the values of a player, and all others what they held at the start. -/
structure Stores (p : Patch α) (w : Wiring α) (values : Array α) (latest : Place → Nat → α) : Prop where
  outputs : Carried p values latest
  others : ∀ k : Nat, p.slots.length ≤ k → values[k]? = w.initial[k]?

end Feeds

/-- The note inputs of a voice from an object on. -/
structure NotesAt (p : Patch α) (first voice : Nat) (notes : NoteInputs) : Prop where
  trigger : p.At notes.trigger ⟨first, voice⟩
  gate : p.At notes.gate ⟨first + 1, voice⟩
  pitch : p.At notes.pitch ⟨first + 2, voice⟩
  velocity : p.At notes.velocity ⟨first + 3, voice⟩

/-- A wiring of a patch: what it numbers is where the patch has it. -/
structure Wired [Arithmetic α] (p : Patch α) (w : Wiring α) : Prop where
  outputs : w.outputs = (outputTable p).toArray
  inputs : ∀ (values : Array α) (latest : Place → Nat → α), Stores p w values latest → ∀ id place n c,
    p.At id place → p.objects[place.object]? = some (n, c) →
      Engine.inputsOf w values id = Reference.inputs p latest n c place.voice
  initial : ∀ k, k < p.slots.length → w.initial[k]? = some (Arithmetic.natural 0)
  order : List.Forall₂ p.At w.order (p.order.flatMap p.placesOf)
  parameters : List.Forall₂ (fun parameter slot => slot.name = parameter.name ∧
    slot.instances.Holds p.places (p.placesOf parameter.object)) p.parameters w.parameters
  output : p.At w.output ⟨Builtin.outputObject, 0⟩
  shared : p.count Builtin.outputObject = 1
  sides : ∀ n c, p.objects[Builtin.outputObject]? = some (n, c) →
    c.socketIndex? "left" = some w.left ∧ c.socketIndex? "right" = some w.right
  globalInputs : NotesAt p 0 0 w.globalInputs
  voiceInputs : List.Forall₂ (NotesAt p Builtin.firstVoiceInput) (List.range p.voices) w.voiceInputs

section Wired
variable [Arithmetic α] {w : Wiring α} {graph : Graph α}

theorem inputsOf_eq {feeds : List (List (List (Feed α)))}
    (hfeeds : List.Forall₂ (fun r f =>
      instanceFeeds (placed p).toArray (outputTable p).toArray r.1 r.2 = .ok f) (readers p) feeds)
    (hsockets : w.sockets = (Extent.tile 0 (feeds.map List.length)).toArray)
    (hsocketArgs : w.socketArgs = (Extent.tile 0 (feeds.flatten.map List.length)).toArray)
    (hargs : w.args = (number p.slots.length feeds.flatten.flatten).toArray)
    {values : Array α} (h : Constant p values (constantsOf feeds.flatten.flatten))
    {latest : Place → Nat → α} (hs : Carried p values latest) {id : Nat} {place : Place}
    {n : Node α} {c : UnitClass}
    (hid : p.At id place) (hobject : p.objects[place.object]? = some (n, c)) :
    Engine.inputsOf w values id = Reference.inputs p latest n c place.voice := by
  obtain ⟨⟨q, voice⟩, hr, hq, rfl⟩ := forall₂_getElem? forall₂_readers hid
  obtain ⟨found, hfound, hok⟩ := forall₂_getElem? hfeeds hr
  obtain ⟨e, he, hholds⟩ := Extent.tile_holds hfound
  have hget : w.sockets.getD id ⟨0, 0⟩ = e := by
    rw [hsockets, Array.getD_eq_getD_getElem?, List.getElem?_toArray, he, Option.getD_some]
  have hvoice := voice_lt_of_mem_readers (List.mem_of_getElem? hr)
  obtain ⟨hq, _⟩ := getElem?_placed_inv hq
  rw [hobject] at hq
  cases hq
  rw [Engine.inputsOf, hget, ← sum_instanceFeeds hs hvoice hok]
  refine hholds.map_eq fun socket feeds' _ hfeeds' => ?_
  exact sum_args hargs hsocketArgs h hfeeds'

theorem shared_mem_demands {i : Nat} (hi : i < Builtin.globalInputs.length) :
    ⟨i, Builtin.userInput, false⟩ ∈ demands :=
  List.mem_append_left _ (List.mem_append_left _
    (List.mem_map.mpr ⟨i, List.mem_range.mpr hi, rfl⟩))

private theorem output_mem_demands :
    ⟨Builtin.outputObject, Builtin.stereoOutput, false⟩ ∈ demands :=
  List.mem_append_left _ (List.mem_append_right _ (List.mem_singleton_self _))

theorem own_mem_demands {i : Nat} (hi : i < Builtin.voiceInputs.length) :
    ⟨Builtin.firstVoiceInput + i, Builtin.userInput, true⟩ ∈ demands :=
  List.mem_append_right _ (List.mem_map.mpr ⟨i, List.mem_range.mpr hi, rfl⟩)

omit [Arithmetic α] in
theorem isMet_of_check {objects : List (Node α × UnitClass)} (h : checkBuiltins objects = .ok ())
    {d : Demand} (hd : d ∈ demands) :
    ∃ n c, objects[d.object]? = some (n, c) ∧ d.isMet c n.perVoice = true := by
  rw [checkBuiltins] at h
  split at h
  · cases h
  · have hmet := of_forM_eq_ok h d hd
    split at hmet
    · next n c hobject =>
      split at hmet
      · next hd => exact ⟨n, c, hobject, hd⟩
      · cases hmet
    · cases hmet

omit [Arithmetic α] in
theorem perVoice_of_check (h : checkBuiltins p.objects = .ok ()) {d : Demand}
    (hd : d ∈ demands) : ∃ n c, p.objects[d.object]? = some (n, c) ∧ n.perVoice = d.perVoice := by
  obtain ⟨n, c, hobject, hmet⟩ := isMet_of_check h hd
  refine ⟨n, c, hobject, ?_⟩
  simp only [Demand.isMet, Bool.and_eq_true, beq_iff_eq] at hmet
  exact hmet.1.2

omit [Arithmetic α] in
/-- A note input of a voice, or of all of them. -/
private theorem at_input (h : checkBuiltins p.objects = .ok ()) {d : Demand} (hd : d ∈ demands)
    {voice : Nat} (hvoice : if d.perVoice then voice < p.voices else voice = 0) :
    p.At (((placed p).toArray[d.object]?.map (·.forVoice voice)).getD 0) ⟨d.object, voice⟩ := by
  obtain ⟨n, c, hobject, hown⟩ := perVoice_of_check h hd
  obtain ⟨e, hq, _⟩ := getElem?_placed hobject
  have hcount := p.count_eq hobject
  have hat := at_forVoice hq voice
  dsimp only at hat
  rw [List.getElem?_toArray, hq, Option.map_some, Option.getD_some]
  rw [hown] at hat hcount
  cases hshared : d.perVoice with
  | true =>
    rw [hshared, if_pos rfl] at hat hcount hvoice
    exact hat (hcount ▸ hvoice)
  | false =>
    rw [hshared, if_neg Bool.false_ne_true] at hat hcount hvoice
    subst hvoice
    exact hat (hcount ▸ Nat.one_pos)

omit [Arithmetic α] in
theorem notesAt_globalInputs (h : checkBuiltins p.objects = .ok ()) :
    NotesAt p 0 0 (noteInputs (placed p).toArray 0 0) where
  trigger := at_input h (shared_mem_demands (i := 0) (by decide)) rfl
  gate := at_input h (shared_mem_demands (i := 1) (by decide)) rfl
  pitch := at_input h (shared_mem_demands (i := 2) (by decide)) rfl
  velocity := at_input h (shared_mem_demands (i := 3) (by decide)) rfl

omit [Arithmetic α] in
theorem notesAt_voiceInputs (h : checkBuiltins p.objects = .ok ()) {voice : Nat}
    (hv : voice < p.voices) :
    NotesAt p Builtin.firstVoiceInput voice
      (noteInputs (placed p).toArray Builtin.firstVoiceInput voice) where
  trigger := at_input h (own_mem_demands (i := 0) (by decide)) hv
  gate := at_input h (own_mem_demands (i := 1) (by decide)) hv
  pitch := at_input h (own_mem_demands (i := 2) (by decide)) hv
  velocity := at_input h (own_mem_demands (i := 3) (by decide)) hv

omit [Arithmetic α] in
private theorem instancesOf_holds {object : Nat} {e : Extent}
    (h : instancesOf (placed p).toArray object = .ok e) :
    e.Holds p.places (p.placesOf object) := by
  rw [instancesOf, List.getElem?_toArray] at h
  cases hq : (placed p)[object]? with
  | none =>
    rw [hq] at h
    cases h
  | some q =>
    rw [hq] at h
    cases h
    exact (getElem?_placed_inv hq).2

omit [Arithmetic α] in
/-- A socket of the final signal is where the wiring looks it up. -/
private theorem side_of_output {n : Node α} {c : UnitClass}
    (h : p.objects[Builtin.outputObject]? = some (n, c)) {name : String}
    (hs : c.hasSocket name = true) :
    c.socketIndex? name =
      some ((((placed p)[Builtin.outputObject]?).bind (·.cls.socketIndex? name)).getD 0) := by
  obtain ⟨e, hq, _⟩ := getElem?_placed h
  obtain ⟨i, hi⟩ := UnitClass.hasSocket_iff.mp hs
  rw [hq, Option.bind_some, hi, Option.getD_some]

/-- The wiring of a graph is one of its patch. -/
theorem wired_of_ofGraph (hbuiltins : checkBuiltins p.objects = .ok ())
    (horder : p.order = graph.order) (hparameters : p.parameters = graph.parameters)
    (hw : ofGraph p.voices graph (placed p) = .ok w) : Wired p w := by
  rw [ofGraph] at hw
  obtain ⟨feeds, hfeeds, hw⟩ := exists_of_bind_eq_ok hw
  obtain ⟨order, horder', hw⟩ := exists_of_bind_eq_ok hw
  obtain ⟨parameters, hparameters', hw⟩ := exists_of_bind_eq_ok hw
  cases hw
  have hinitial : ∀ k : Nat, p.slots.length ≤ k →
      (List.replicate p.slots.length (Arithmetic.natural 0) ++
        constantsOf feeds.flatten.flatten).toArray[k]? =
          (constantsOf feeds.flatten.flatten)[k - p.slots.length]? := by
    intro k hk
    rw [List.getElem?_toArray, List.getElem?_append_right (by rwa [List.length_replicate]),
      List.length_replicate]
  have hfirst := length_slots (p := p)
  obtain ⟨n, c, houtput, hmet⟩ := isMet_of_check hbuiltins output_mem_demands
  obtain ⟨hshared, hsockets⟩ : n.perVoice = false ∧
      c.hasSocket "left" = true ∧ c.hasSocket "right" = true := by
    simp only [Demand.isMet, Bool.and_eq_true, beq_iff_eq] at hmet
    exact ⟨hmet.1.2, by simpa using hmet.2⟩
  have hone := p.count_eq houtput
  rw [hshared, if_neg Bool.false_ne_true] at hone
  refine ⟨rfl, ?_, ?_, ?_, ?_, ?_, hone, ?_, notesAt_globalInputs hbuiltins, ?_⟩
  · intro values s hs id place n c hid hobject
    refine inputsOf_eq (forall₂_of_mapM hfeeds) rfl rfl (by rw [hfirst]) (fun k hk => ?_) hs.outputs
      hid hobject
    rw [hs.others k hk, ← hinitial k hk, hfirst]
  · intro k hk
    rw [hfirst, List.getElem?_toArray,
      List.getElem?_append_left (by rwa [List.length_replicate]), List.getElem?_replicate, if_pos hk]
  · rw [horder]
    refine List.rel_flatten (List.rel_map (fun e object hobject => ?_)
      (List.Forall₂.flip (forall₂_of_mapM horder')))
    exact instancesOf_holds hobject
  · rw [hparameters]
    refine (forall₂_of_mapM hparameters').imp fun parameter slot hslot => ?_
    obtain ⟨e, he, hslot⟩ := exists_of_bind_eq_ok hslot
    cases hslot
    exact ⟨rfl, instancesOf_holds he⟩
  · obtain ⟨e, hq, hholds⟩ := getElem?_placed houtput
    rw [hq, Option.map_some, Option.getD_some]
    exact hholds.getElem? (p.getElem?_placesOf (hone ▸ Nat.one_pos))
  · intro n' c' houtput'
    rw [houtput] at houtput'
    cases houtput'
    exact ⟨side_of_output houtput hsockets.1, side_of_output houtput hsockets.2⟩
  · rw [List.forall₂_map_right_iff]
    refine List.forall₂_same.mpr fun voice hv => ?_
    exact notesAt_voiceInputs hbuiltins (List.mem_range.mp hv)

end Wired
end Wiring
end Patchbay
