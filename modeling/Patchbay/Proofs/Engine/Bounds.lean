import Patchbay.Proofs.Engine.Events
import Patchbay.Proofs.Engine.Freshness
import Patchbay.Proofs.Engine.Guarded
import Patchbay.Proofs.Unit.Tape

/-! What an engine looks up while it is played. Its wiring has all places that it numbers, its units
have all sockets that they read, and its voices all notes in the table; no call changes that. -/
namespace Patchbay
open Arithmetic (natural)
open Reference Reference.Patch Wiring

section Traversal
variable {β γ : Type}

/-- A traversal that finds all it looks up. -/
theorem mapM_eq_some {f : β → Option γ} {g : β → γ} {l : List β} (h : ∀ b ∈ l, f b = some (g b)) :
    l.mapM f = some (l.map g) := by
  induction l with
  | nil => rfl
  | cons b rest ih =>
    rw [List.mapM_cons, h b List.mem_cons_self, ih fun c hc => h c (List.mem_cons_of_mem _ hc)]
    rfl

private theorem some_bind (b : β) (f : β → Option γ) : (some b >>= f) = f b := rfl

end Traversal

namespace Extent
variable {β : Type} {e : Extent} {size k : Nat}

theorem lt_of_mem_toList (h : e.Within size) (hk : k ∈ e.toList) : k < size := by
  have hlt := (List.mem_range'_1.mp hk).2
  obtain ⟨hle, hstop⟩ := h
  rw [Extent.size] at hlt
  omega

private theorem getElem?_eq_getD {items : Array β} (h : k < items.size) (default : β) :
    items[k]? = some (items.getD k default) := by
  rw [Array.getD_eq_getD_getElem?, Array.getElem?_eq_getElem h, Option.getD_some]

theorem slice?_eq {items : Array β} (h : e.Within items.size) (default : β) :
    e.slice? items = some (e.toList.map fun i => items.getD i default) := by
  rw [slice?, if_pos h]
  apply mapM_eq_some
  exact fun i hi => getElem?_eq_getD (lt_of_mem_toList h hi) default

/-- What an extent has is among what there is. -/
theorem mem_of_mem_slice {items : Array β} (h : e.Within items.size) {default b : β}
    (hb : b ∈ e.toList.map fun i => items.getD i default) : b ∈ items := by
  obtain ⟨i, hi, rfl⟩ := List.mem_map.mp hb
  exact Array.mem_of_getElem? (getElem?_eq_getD (lt_of_mem_toList h hi) default)

/-- Extents laid end to end lie within the sum of their sizes. -/
theorem within_tile {sizes : List Nat} {i : Nat} (h : (tile 0 sizes)[i]? = some e) :
    e.Within sizes.sum := by
  have from' : ∀ (sizes : List Nat) (start i : Nat), (tile start sizes)[i]? = some e →
      e.Within (start + sizes.sum) := by
    intro sizes
    induction sizes with
    | nil => intro start i h; cases h
    | cons size rest ih =>
      intro start i h
      rw [List.sum_cons, ← Nat.add_assoc]
      cases i with
      | zero =>
        cases h
        exact ⟨Nat.le_add_right _ _, Nat.le_add_right _ _⟩
      | succ i => exact ih (start + size) i h
  have hwithin := from' sizes 0 i h
  rwa [Nat.zero_add] at hwithin

end Extent

/-- How many sockets units of a kind read at most. -/
def UnitKind.reads : UnitKind → Nat
  | control | knob | sink | passThrough | noise => 0
  | inverter | oscillator _ => 1
  | attenuator | drive => 2
  | mapping _ | lowPass12 | lowPass24 | delay | pingPong => 3
  | envelope _ => 6

namespace SoundUnit
variable {α : Type}

/-- How many sockets a unit reads, apart from those that it passes on. -/
def reads : SoundUnit α → Nat
  | control _ | sink | passThrough | noise _ => 0
  | inverter | oscillator _ => 1
  | attenuator | drive => 2
  | mapping _ | lowPass12 _ | lowPass24 _ | delay _ _ | pingPong _ _ _ => 3
  | envelope _ _ => 6

theorem reads_setValue (value : α) (u : SoundUnit α) : (u.setValue value).reads = u.reads := by
  cases u <;> rfl

variable [Arithmetic α]

theorem reads_ofKind (sampleRate : α) (seed : UInt64) (kind : UnitKind) :
    (ofKind sampleRate seed kind).reads = kind.reads := by
  cases kind <;> rfl

theorem reads_process (u : SoundUnit α) (signals : List α) :
    (u.process signals).1.reads = u.reads := by
  cases u <;> rfl

/-- A unit with all sockets that it reads finds each of them, and so it does with what it has on
tapes in step. -/
theorem sample?_eq {u : SoundUnit α} {inputs : List α} {room : Nat} (hstep : u.InStep)
    (hreads : u.reads ≤ inputs.length) (hroom : u.width inputs.length = room) :
    u.sample? inputs room = some (u.process inputs) := by
  have found : ∀ i, i < u.reads → inputs[i]? = some (inputs.getD i (natural 0)) := by
    intro i hi
    rw [List.getD_eq_getElem?_getD, List.getElem?_eq_getElem (Nat.lt_of_lt_of_le hi hreads),
      Option.getD_some]
  cases u with
  | control | sink | noise => rfl
  | passThrough =>
    obtain rfl : inputs.length = room := hroom
    rw [sample?, if_pos (Nat.le_refl _), List.take_length, process]
  | inverter | oscillator =>
    have h0 := found 0 Nat.one_pos
    rw [sample?, h0]
    rfl
  | attenuator | drive =>
    have h0 := found 0 Nat.two_pos
    have h1 := found 1 Nat.one_lt_two
    rw [sample?, h0, h1]
    rfl
  | mapping | lowPass12 | lowPass24 | delay =>
    have h0 := found 0 (Nat.zero_lt_succ 2)
    have h1 := found 1 (Nat.succ_lt_succ (Nat.zero_lt_succ 1))
    have h2 := found 2 (Nat.lt_succ_self 2)
    rw [sample?, h0, h1, h2]
    rfl
  | pingPong sampleRate left right =>
    have h0 := found 0 (Nat.zero_lt_succ 2)
    have h1 := found 1 (Nat.succ_lt_succ (Nat.zero_lt_succ 1))
    have h2 := found 2 (Nat.lt_succ_self 2)
    have hright := Tape.InStep.getElem? hstep (delaySamples sampleRate (inputs.getD 1 (natural 0)))
    have hget : ∀ default, right.samples.getD (left.place (delaySamples sampleRate
        (inputs.getD 1 (natural 0)))) default = right.read (delaySamples sampleRate
          (inputs.getD 1 (natural 0))) := by
      intro default
      rw [Array.getD_eq_getD_getElem?, hright, Option.getD_some]
    rw [sample?, h0, h1, h2, process]
    simp only [some_bind, hright, hget]
    rfl
  | envelope sampleRate e =>
    have hall : ∀ i : Nat, i < 6 → inputs[i]? = some (inputs.getD i (natural 0)) := found
    rw [sample?, hall 0 (by decide), hall 1 (by decide), hall 2 (by decide), hall 3 (by decide),
      hall 4 (by decide), hall 5 (by decide)]
    rfl

theorem process?_eq {u : SoundUnit α} {inputs : List α} {room : Nat} (hstep : u.InStep)
    (hreads : u.reads ≤ inputs.length) (hroom : u.width inputs.length = room) :
    u.process? inputs room = some (u.process inputs) := by
  rw [process?, sample?_eq hstep hreads hroom]
  exact if_pos (Nat.le_of_eq ((u.length_process inputs).trans hroom))

end SoundUnit

namespace Voices
variable {v : Voices}

private theorem getElem?_holders (v : Voices) (note : Nat) :
    v.holders[min note highestNote]? = some (v.holder? (min note highestNote)) := by
  have hlt : min note highestNote < highestNote + 1 := Nat.lt_succ_of_le (Nat.min_le_right _ _)
  rw [holder?, Vector.getElem?_eq_getElem hlt]
  rfl

/-- A note that a voice is on has a place in the table. -/
private theorem Consistent.note_le (h : v.Consistent) {place note : Nat} {voice : Voice}
    (hvoice : v.voices[place]? = some voice) (hnote : voice.note = some note) :
    note ≤ highestNote := by
  have hof : v.noteOf? place = some note := by
    rw [noteOf?, hvoice, Option.bind_some, hnote]
  have hheld := holders_of_holder? ((h.holder note place).mpr hof)
  obtain ⟨hlt, _⟩ := Vector.getElem?_eq_some_iff.mp hheld
  exact Nat.le_of_lt_succ hlt

theorem assign?_eq (h : v.Consistent) (hpos : 0 < v.voices.length) (note : Nat) :
    v.assign? note = some (v.assign note) := by
  have hholders := getElem?_holders v note
  rw [assign?, assign, hholders, some_bind]
  cases hheld : v.holder? (min note highestNote) with
  | some place => exact if_pos (holder?_lt hheld)
  | none =>
    obtain ⟨place, hplace⟩ := longestIdle_isSome hpos
    obtain ⟨voice, hvoice⟩ : ∃ voice, v.voices[place.val]? = some voice :=
      ⟨_, List.getElem?_eq_getElem place.isLt⟩
    have hnote : voice.note.all (· ≤ highestNote) = true := by
      rw [Option.all_eq_true]
      intro old hold
      exact decide_eq_true (h.note_le hvoice hold)
    dsimp only
    rw [hplace, some_bind, hvoice, some_bind, if_pos hnote]

theorem release?_eq (v : Voices) (note : Nat) : v.release? note = some (v.release note) := by
  rw [release?, release, getElem?_holders, some_bind]
  cases hheld : v.holder? (min note highestNote) with
  | none => rfl
  | some place =>
    obtain ⟨voice, hvoice⟩ : ∃ voice, v.voices[place]? = some voice :=
      ⟨_, List.getElem?_eq_getElem (holder?_lt hheld)⟩
    dsimp only
    rw [hvoice, Option.any_some]
    rfl

end Voices

namespace Wiring
variable {α : Type} {p : Patch α} {w : Wiring α} {g : Graph α}

/-- A wiring with all places that it numbers: sockets among the arguments, arguments among the slots
of values, and outputs there as well. Each instance has the sockets and outputs of its class. -/
structure Bounded (p : Patch α) (w : Wiring α) : Prop where
  sockets : ∀ id place n c, p.At id place → p.objects[place.object]? = some (n, c) →
    ∃ e, w.sockets[id]? = some e ∧ e.Within w.socketArgs.size ∧ e.size = c.sockets.length
  socketArgs : ∀ e ∈ w.socketArgs, e.Within w.args.size
  args : ∀ slot ∈ w.args, slot < w.initial.size
  outputs : ∀ id place, p.At id place →
    ∃ e, w.outputs[id]? = some e ∧ e.Within w.initial.size ∧ e.size = p.outputCount place.object

theorem length_number (next : Nat) (feeds : List (Feed α)) :
    (number next feeds).length = feeds.length := by
  induction feeds generalizing next with
  | nil => rfl
  | cons feed rest ih =>
    cases feed with
    | slot i => exact congrArg (· + 1) (ih next)
    | constant value => exact congrArg (· + 1) (ih (next + 1))

theorem mem_number {next slot : Nat} {feeds : List (Feed α)} (h : slot ∈ number next feeds) :
    ∃ feed ∈ feeds, feed.Becomes next (constantsOf feeds) slot := by
  obtain ⟨i, hi⟩ := List.getElem?_of_mem h
  have hlt := (List.getElem?_eq_some_iff.mp hi).1
  rw [length_number] at hlt
  have hfeed := List.getElem?_eq_getElem hlt
  obtain ⟨slot', hslot, hbecomes⟩ := getElem?_number next hfeed
  rw [hi] at hslot
  cases hslot
  exact ⟨_, List.mem_of_getElem? hfeed, hbecomes⟩

/-- All that is read of the outputs of objects is there. -/
theorem Feed.Becomes.lt {c : Contribution α} {feed : Feed α} (hof : Feed.Of p c feed)
    {constants : List α} {slot : Nat} (h : feed.Becomes p.slots.length constants slot) :
    slot < p.slots.length + constants.length := by
  cases hof with
  | slot hslot =>
    obtain rfl : slot = _ := h
    exact Nat.lt_add_right _ (List.getElem?_eq_some_iff.mp hslot).1
  | constant value span =>
    obtain ⟨hle, hvalue⟩ := h
    have hlt := (List.getElem?_eq_some_iff.mp hvalue).1
    omega

/-- All that instances read is of contributions. -/
theorem Feed.exists_of_mem_feeds {feeds : List (List (List (Feed α)))}
    (hfeeds : List.Forall₂ (fun r found => instanceFeeds (placed p).toArray (outputTable p).toArray
      r.1 r.2 = .ok found) (readers p) feeds) {feed : Feed α} (h : feed ∈ feeds.flatten.flatten) :
    ∃ c, Feed.Of p c feed := by
  obtain ⟨found, hfound, hfeed⟩ := List.mem_flatten.mp h
  obtain ⟨own, hown, hfound⟩ := List.mem_flatten.mp hfound
  obtain ⟨r, hr, hok⟩ := exists_of_mem_right hfeeds hown
  obtain ⟨_, _, c, _, hof⟩ :=
    Feed.of_mem_instanceFeeds (voice_lt_of_mem_readers hr) hok hfound hfeed
  exact ⟨c, hof⟩

variable [Arithmetic α]

/-- Whatever the graph is, its wiring has all places that it numbers. -/
theorem bounded_of_ofGraph (hw : Wiring.ofGraph p.voices g (placed p) = .ok w) : Bounded p w := by
  rw [ofGraph] at hw
  obtain ⟨feeds, hfeeds, hw⟩ := exists_of_bind_eq_ok hw
  obtain ⟨order, _, hw⟩ := exists_of_bind_eq_ok hw
  obtain ⟨parameters, _, hw⟩ := exists_of_bind_eq_ok hw
  cases hw
  have hfeeds := forall₂_of_mapM hfeeds
  have hinitial : (List.replicate ((readers p).foldl (fun n r => n + r.1.cls.outputs.length) 0)
      (natural 0 : α) ++ constantsOf feeds.flatten.flatten).toArray.size =
        p.slots.length + (constantsOf feeds.flatten.flatten).length := by
    rw [List.size_toArray, List.length_append, List.length_replicate, length_slots]
  refine ⟨fun id place n c hid hobject => ?_, fun e he => ?_, fun slot hslot => ?_,
    fun id place hid => ?_⟩
  · obtain ⟨⟨q, voice⟩, hr, hq, _⟩ := forall₂_getElem? forall₂_readers hid
    obtain ⟨found, hfound, hok⟩ := forall₂_getElem? hfeeds hr
    obtain ⟨hq, _⟩ := getElem?_placed_inv hq
    rw [hobject] at hq
    cases hq
    obtain ⟨e, he, hholds⟩ := Extent.tile_holds hfound
    refine ⟨e, (List.getElem?_toArray ..).trans he, ?_, ?_⟩
    · have hwithin := Extent.within_tile he
      rwa [List.size_toArray, Extent.length_tile, List.length_map, List.length_flatten]
    · exact hholds.size_eq.trans (forall₂_of_mapM hok).length_eq.symm
  · obtain ⟨i, hi⟩ := List.getElem?_of_mem (List.mem_toArray.mp he)
    have hwithin := Extent.within_tile hi
    rwa [List.size_toArray, length_number, List.length_flatten]
  · obtain ⟨feed, hfeed, hbecomes⟩ := mem_number (List.mem_toArray.mp hslot)
    obtain ⟨_, hof⟩ := Feed.exists_of_mem_feeds hfeeds hfeed
    rw [length_slots] at hbecomes
    exact hinitial ▸ hbecomes.lt hof
  · obtain ⟨e, he, hholds⟩ := getElem?_outputTable hid
    refine ⟨e, (List.getElem?_toArray ..).trans he, ?_, ?_⟩
    · obtain ⟨hle, hstop⟩ := Extent.within_tile he
      rw [List.sum_eq_foldl, List.foldl_map, length_slots] at hstop
      exact ⟨hle, hinitial ▸ Nat.le_add_right_of_le hstop⟩
    · exact hholds.size_eq.trans (p.length_slotsOf place)

/-- Values are stored in as many slots as there are at the start. -/
theorem Stores.size_eq {values : Array α} {latest : Place → Nat → α} (h : Stores p w values latest)
    (hw : Wired p w) : values.size = w.initial.size := by
  have hiff : ∀ k, values.size ≤ k ↔ w.initial.size ≤ k := by
    intro k
    by_cases hk : k < p.slots.length
    · have hstored := h.outputs k _ _ (List.getElem?_eq_getElem hk)
      have hlt := (Array.getElem?_eq_some_iff.mp hstored).1
      have hlt' := (Array.getElem?_eq_some_iff.mp (hw.initial k hk)).1
      exact iff_of_false (Nat.not_le_of_lt hlt) (Nat.not_le_of_lt hlt')
    · rw [← Array.getElem?_eq_none_iff, h.others k (Nat.le_of_not_lt hk),
        Array.getElem?_eq_none_iff]
  exact Nat.le_antisymm ((hiff _).mpr (Nat.le_refl _)) ((hiff _).mp (Nat.le_refl _))

end Wiring

namespace Represents
variable {α : Type} [Arithmetic α] {p : Patch α} {w : Wiring α} {e : Engine α}
  {s : Player α (SoundUnit α)} (h : Represents p w e s)
include h

theorem setUnit?_eq {id : Nat} {place : Place} (hid : p.At id place) (value : α) :
    e.setUnit? id value = some (e.setUnit id value) :=
  if_pos (Array.getElem?_eq_some_iff.mp (h.units id place hid)).1

theorem setAll?_eq {ids : List Nat} {places : List Place} (hids : List.Forall₂ p.At ids places)
    (value : α) :
    e.setAll? ids value = some (ids.foldl (fun e id => e.setUnit id value) e) := by
  induction hids generalizing e s with
  | nil => rfl
  | cons hid _ ih =>
    rw [Engine.setAll?, List.foldlM_cons, h.setUnit?_eq hid]
    exact ih (h.set hid value)

theorem startNote?_eq {first voice : Nat} {notes : NoteInputs} (hn : NotesAt p first voice notes)
    (pitch velocity : α) :
    e.startNote? pitch velocity notes = some (e.startNote pitch velocity notes) := by
  have hgate := h.set hn.gate (natural 1)
  have hpitch := hgate.set hn.pitch pitch
  have hvelocity := hpitch.set hn.velocity velocity
  rw [Engine.startNote?, h.setUnit?_eq hn.gate, some_bind, hgate.setUnit?_eq hn.pitch, some_bind,
    hpitch.setUnit?_eq hn.velocity, some_bind, hvelocity.setUnit?_eq hn.trigger]
  rfl

variable (hw : Wired p w)
include hw

theorem noteOn?_eq (hv : 0 < p.voices) (hc : e.voices.Consistent) (note : Nat) (velocity : α) :
    e.noteOn? note velocity = some (e.noteOn note velocity) := by
  rw [Engine.noteOn?, Engine.noteOn]
  split
  · rfl
  · have hcount : e.voices.voices.length = p.voices := h.voices ▸ h.count
    have hlt : (e.voices.assign note).2 < p.voices :=
      hcount ▸ Voices.assign_lt (hcount ▸ hv) note
    have hlen := (e.voices.length_assign note).trans hcount
    rw [Voices.assign?_eq hc (hcount ▸ hv), some_bind]
    generalize e.voices.assign note = assigned at hlt hlen
    obtain ⟨voices, voice⟩ := assigned
    obtain ⟨notes, hnotes, hat⟩ := h.voiceInputs hw hlt
    have hglobal : NotesAt p 0 0 e.wiring.globalInputs := h.wiring ▸ hw.globalInputs
    have hvoices := h.withVoices hlen
    dsimp only at hnotes hvoices ⊢
    rw [hnotes, some_bind, hvoices.startNote?_eq hglobal, some_bind]
    exact (hvoices.startNote hglobal _ _).startNote?_eq hat _ _

theorem noteOff?_eq (note : Nat) : e.noteOff? note = some (e.noteOff note) := by
  have hcount : e.voices.voices.length = p.voices := h.voices ▸ h.count
  have hlen := (e.voices.length_release note).trans hcount
  have hlt : ∀ voice, (e.voices.release note).2 = some voice → voice < p.voices :=
    fun voice hvoice => hcount ▸ Voices.release_lt hvoice
  rw [Engine.noteOff?, Engine.noteOff, Voices.release?_eq, some_bind]
  generalize e.voices.release note = released at hlt hlen
  obtain ⟨voices, _ | voice⟩ := released
  · rfl
  · obtain ⟨notes, hnotes, hat⟩ := h.voiceInputs hw (hlt voice rfl)
    have hvoices := h.withVoices hlen
    have hglobal : p.At e.wiring.globalInputs.gate ⟨1, 0⟩ := h.wiring ▸ hw.globalInputs.gate
    dsimp only at hvoices ⊢
    rw [hnotes, some_bind, hvoices.setUnit?_eq hat.gate, some_bind]
    split
    · rfl
    · exact (hvoices.set hat.gate _).setUnit?_eq hglobal _

theorem releaseAll?_eq : e.releaseAll? = some e.releaseAll := by
  have hlen := e.voices.length_releaseAll.trans (h.voices ▸ h.count : e.voices.voices.length = _)
  exact (h.withVoices hlen).setAll?_eq (h.gates hw) _

theorem setParameter?_eq (name : String) (value : α) :
    e.setParameter? name value = some ((e.setParameter name value).getD e) := by
  rw [Engine.setParameter?, Engine.setParameter]
  cases hfind : e.wiring.parameters.find? (·.name == name) with
  | none => rfl
  | some slot =>
    have hm : slot ∈ w.parameters := h.wiring ▸ List.mem_of_find?_eq_some hfind
    obtain ⟨parameter, _, _, hholds⟩ := exists_of_mem_right hw.parameters hm
    exact h.setAll?_eq hholds _

end Represents

namespace Engine
variable {α : Type} [Arithmetic α] {p : Patch α} {w : Wiring α} {e : Engine α}

section Sums
variable (hb : Bounded p w) {values : Array α} (hsize : values.size = w.initial.size)
include hb hsize

theorem socketSum?_eq {args : Extent} (hargs : args ∈ w.socketArgs) :
    socketSum? w values args = some (socketSum w values args) := by
  have hwithin := hb.socketArgs args hargs
  have hslots : ∀ slot ∈ args.toList.map fun i => w.args.getD i 0,
      values[slot]? = some (values.getD slot (natural 0)) := by
    intro slot hslot
    have hlt := hb.args slot (Extent.mem_of_mem_slice hwithin hslot)
    rw [Array.getD_eq_getD_getElem?, Array.getElem?_eq_getElem (hsize ▸ hlt), Option.getD_some]
  rw [socketSum?, Extent.slice?_eq hwithin 0, some_bind, mapM_eq_some hslots, some_bind,
    List.map_map, List.foldl_map]
  rfl

/-- An instance has the sockets of its class, and all that is plugged into them is there. -/
theorem inputsOf?_eq {id : Nat} {place : Place} {n : Node α} {c : UnitClass}
    (hid : p.At id place) (hobject : p.objects[place.object]? = some (n, c))
    (hfew : c.sockets.length ≤ socketLimit) :
    inputsOf? w values id = some (inputsOf w values id) ∧
      (inputsOf w values id).length = c.sockets.length := by
  obtain ⟨sockets, hget, hwithin, hcount⟩ := hb.sockets id place n c hid hobject
  have hinputs : inputsOf w values id =
      (sockets.toList.map fun i => w.socketArgs.getD i ⟨0, 0⟩).map (socketSum w values) := by
    rw [inputsOf, Array.getD_eq_getD_getElem?, hget, Option.getD_some, List.map_map]
    rfl
  have hlength : (inputsOf w values id).length = c.sockets.length := by
    rw [hinputs, List.length_map, List.length_map, Extent.toList, List.length_range', hcount]
  have hsums : ∀ args ∈ sockets.toList.map fun i => w.socketArgs.getD i ⟨0, 0⟩,
      socketSum? w values args = some (socketSum w values args) := by
    intro args hargs
    exact socketSum?_eq hb hsize (Extent.mem_of_mem_slice hwithin hargs)
  refine ⟨?_, hlength⟩
  rw [inputsOf?, hget, some_bind, Extent.slice?_eq hwithin ⟨0, 0⟩, some_bind,
    mapM_eq_some hsums, some_bind, ← hinputs, if_pos (hlength ▸ hfew)]

end Sums

/-- Every unit has all sockets that it reads, and tapes in step. -/
def Supplied (p : Patch α) (e : Engine α) : Prop :=
  e.Each fun id unit => ∀ place n c, p.At id place → p.objects[place.object]? = some (n, c) →
    unit.InStep ∧ unit.reads ≤ c.sockets.length

private theorem kept_supplied (p : Patch α) : Kept (α := α) (U := SoundUnit α) fun id unit =>
    ∀ place n c, p.At id place → p.objects[place.object]? = some (n, c) →
      unit.InStep ∧ unit.reads ≤ c.sockets.length where
  setValue _ unit value h place n c hid hobject :=
    have ⟨hstep, hreads⟩ := h place n c hid hobject
    ⟨hstep.setValue value, (SoundUnit.reads_setValue value unit).trans_le hreads⟩
  process _ unit inputs h place n c hid hobject :=
    have ⟨hstep, hreads⟩ := h place n c hid hobject
    ⟨hstep.process inputs, (SoundUnit.reads_process unit inputs).trans_le hreads⟩

/-- An engine at any time that has all it looks up: the places that its wiring numbers, the sockets
that its units read, and for every note that a voice is on a place in the table. -/
structure Secured (p : Patch α) (w : Wiring α) (e : Engine α) : Prop where
  running : Running p w e
  bounded : Bounded p w
  few : ∀ (i : Nat) (n : Node α) (c : UnitClass), p.objects[i]? = some (n, c) →
    c.sockets.length ≤ socketLimit
  supplied : Supplied p e
  consistent : e.voices.Consistent

namespace Secured
variable (h : Secured p w e)
include h

theorem frameOf?_eq {id : Nat} {place : Place} (hid : p.At id place) {n : Node α} {c : UnitClass}
    (hobject : p.objects[place.object]? = some (n, c)) {inputs : List α}
    (hlength : inputs.length = c.sockets.length) (frame : α × α) :
    frameOf? w inputs frame id = some (if id = w.output then
      (inputs.getD w.left (natural 0), inputs.getD w.right (natural 0)) else frame) := by
  rw [frameOf?]
  split
  · next houtput =>
    subst houtput
    obtain rfl := hid.unique h.running.wired.output
    obtain ⟨hleft, hright⟩ := h.running.wired.sides n c hobject
    have hlt := hlength ▸ UnitClass.socketIndex?_lt hleft
    have hlt' := hlength ▸ UnitClass.socketIndex?_lt hright
    rw [List.getElem?_eq_getElem hlt, List.getElem?_eq_getElem hlt', List.getD_eq_getElem?_getD,
      List.getD_eq_getElem?_getD, List.getElem?_eq_getElem hlt, List.getElem?_eq_getElem hlt']
    rfl
  · rfl

theorem computeInstance?_eq {id : Nat} {place : Place} (hid : p.At id place) (frame : α × α) :
    e.computeInstance? frame id = some (e.computeInstance frame id) := by
  obtain ⟨unit, hunit⟩ := h.running.exists_unit hid
  obtain ⟨n, c, hobject⟩ := hid.object
  obtain ⟨slots, hslots, hwithin, hroom⟩ := h.bounded.outputs id place hid
  obtain ⟨s, hs⟩ := h.running.represents
  obtain rfl := hs.wiring
  have hsize := hs.values.size_eq h.running.wired
  obtain ⟨hinputs, hlength⟩ := inputsOf?_eq h.bounded hsize hid hobject (h.few _ n c hobject)
  obtain ⟨hstep, hle⟩ := h.supplied id unit hunit place n c hid hobject
  have hreads : unit.reads ≤ (inputsOf e.wiring e.values id).length := hlength ▸ hle
  have hwidth : unit.width (inputsOf e.wiring e.values id).length = slots.size := by
    rw [hlength, h.running.fits id unit hunit place n c hid hobject, hroom, outputCount, hobject,
      Option.map_some, Option.getD_some]
  have hown : e.wiring.outputs.getD id ⟨0, 0⟩ = slots := by
    rw [Array.getD_eq_getD_getElem?, hslots, Option.getD_some]
  rw [computeInstance?, hunit, some_bind, hinputs, some_bind,
    h.frameOf?_eq hid hobject hlength frame, some_bind, hslots, some_bind,
    SoundUnit.process?_eq hstep hreads hwidth, some_bind, computeInstance_eq hunit, hown]
  exact if_pos (hsize ▸ hwithin)

theorem computeInstance {id : Nat} {place : Place} (hid : p.At id place) (frame : α × α) :
    Secured p w (e.computeInstance frame id).1 where
  running := h.running.computeInstance hid frame
  bounded := h.bounded
  few := h.few
  supplied := Each.computeInstance (kept_supplied p) h.supplied frame id
  consistent := by
    have hwired : Wired p e.wiring := h.running.wiring_eq ▸ h.running.wired
    exact (changesOnly_computeInstance hwired hid frame).voices ▸ h.consistent

theorem computeAll?_eq {ids : List Nat} {places : List Place} (hids : List.Forall₂ p.At ids places)
    (frame : α × α) : e.computeAll? frame ids = some (e.computeAll frame ids) := by
  induction hids generalizing e frame with
  | nil => rfl
  | @cons id _ _ _ hid _ ih =>
    rw [computeAll?, h.computeInstance?_eq hid, some_bind]
    exact ih (h.computeInstance hid frame) _

theorem tick?_eq : e.tick? = some e.tick := by
  obtain ⟨s, hs⟩ := h.running.represents
  have horder : List.Forall₂ p.At e.wiring.order (p.order.flatMap p.placesOf) :=
    h.running.wiring_eq ▸ h.running.wired.order
  obtain ⟨hall, _⟩ := hs.computeAll h.running.wired horder (natural 0, natural 0)
  rw [tick?, h.computeAll?_eq horder, some_bind]
  dsimp only
  rw [hall.setAll?_eq hall.latched]
  rfl

theorem tick : Secured p w e.tick.1 where
  running := h.running.tick
  bounded := h.bounded
  few := h.few
  supplied := Each.tick (kept_supplied p) h.supplied
  consistent := by
    obtain ⟨s, hs⟩ := h.running.represents
    rw [(hs.tick h.running.wired).1.voices, voices_tick, ← hs.voices]
    exact h.consistent

theorem generateOnto?_eq (frames : List (α × α)) (count : Nat) :
    e.generateOnto? frames count = some (e.generateOnto frames count) := by
  induction count generalizing e frames with
  | zero => rfl
  | succ count ih =>
    rw [generateOnto?, h.tick?_eq, some_bind]
    exact ih h.tick _

theorem call?_eq (c : Call α) : e.call? c = some (e.call c) := by
  obtain ⟨s, hs⟩ := h.running.represents
  have hw := h.running.wired
  cases c with
  | noteOn note velocity =>
    rw [call?, hs.noteOn?_eq hw h.running.voices h.consistent]
    rfl
  | noteOff note =>
    rw [call?, hs.noteOff?_eq hw]
    rfl
  | releaseAll =>
    rw [call?, hs.releaseAll?_eq hw]
    rfl
  | setParameter name value =>
    rw [call?, hs.setParameter?_eq hw]
    rfl
  | generate count =>
    rw [call?, generate?, h.generateOnto?_eq]
    rfl

theorem call (c : Call α) : Secured p w (e.call c).1 where
  running := h.running.call c
  bounded := h.bounded
  few := h.few
  supplied := Each.call (kept_supplied p) h.supplied c
  consistent := by
    -- The voices behind a call are those of a history that goes on from here.
    obtain ⟨s, hs⟩ := h.running.represents
    have hvoices := Reference.voices_call (p := p) (s := s) (h := ⟨e.voices, [], []⟩)
      hs.voices.symm c
    have hpos : 0 < e.voices.voices.length := by
      rw [hs.voices, hs.count]
      exact h.running.voices
    rw [(hs.call h.running.wired h.running.voices c).1.voices, hvoices]
    exact (NoteHistory.consistent_after h.consistent hpos c).1

/-- Whatever the calls are, all that is looked up is there. -/
theorem run?_eq (calls : List (Call α)) : e.run? calls = some (e.run calls) := by
  induction calls generalizing e with
  | nil => rfl
  | cons c rest ih =>
    rw [run?, h.call?_eq, some_bind]
    dsimp only
    rw [ih (h.call c)]
    rfl

end Secured
end Engine
end Patchbay
