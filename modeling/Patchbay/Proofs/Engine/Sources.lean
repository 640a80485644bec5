import Patchbay.Proofs.Engine.Construction
import Patchbay.Proofs.Engine.Trace

/-! What slots the instances of a graph read: each is named by a mix of the object, and a schedule
has all places that it may come from in front. -/
namespace Patchbay
open Reference Reference.Patch Wiring
variable {α : Type}

namespace Wiring

/-- What an object reads a slot for: an output that one of its mixes names, or a constant there. -/
inductive Sourced (p : Patch α) (w : Wiring α) (n : Node α) (slot : Nat) : Prop
  | output {mix : List (Contribution α)} {name : String} {span : Option Span} {place : Place} {i : Nat}
    (hm : mix ∈ n.mixes.values) (hc : .output place.object name span ∈ mix)
    (hslot : p.slots[slot]? = some (place, i))
  | constant {mix : List (Contribution α)} {value : α} {span : Option Span}
    (hm : mix ∈ n.mixes.values) (hc : .constant value span ∈ mix)
    (hslot : p.slots.length ≤ slot) (hvalue : w.initial[slot]? = some value)

/-- What a feed is, of a contribution. -/
inductive Feed.Of (p : Patch α) : Contribution α → Feed α → Prop
  | slot {place : Place} {i k : Nat} {name : String} {span : Option Span}
    (hslot : p.slots[k]? = some (place, i)) : Feed.Of p (.output place.object name span) (.slot k)
  | constant (value : α) (span : Option Span) : Feed.Of p (.constant value span) (.constant value)

variable {p : Patch α}

/-- The instances of an object that a reader hears are those of its places. -/
theorem at_of_read {object : Nat} {q reader : Placed α} (hq : (placed p)[object]? = some q)
    {voice : Nat} (hvoice : reader.node.perVoice = true → voice < p.voices) {id : Nat}
    (hid : id ∈ if q.node.perVoice && !reader.node.perVoice then q.instances.toList
      else [q.forVoice voice]) :
    ∃ place : Place, p.At id place ∧ place.object = object := by
  obtain ⟨hobject, hholds⟩ := getElem?_placed_inv hq
  split at hid
  · obtain ⟨place, hplace, hat⟩ := hholds.exists_of_mem hid
    exact ⟨place, hat, (p.mem_placesOf.mp hplace).1⟩
  · next hshared =>
    obtain rfl := List.mem_singleton.mp hid
    refine ⟨_, at_forVoice hq voice ?_, rfl⟩
    rw [p.count_eq hobject]
    cases hown : q.node.perVoice with
    | false => exact Nat.one_pos
    | true =>
      rw [hown, Bool.true_and, Bool.not_eq_true', Bool.not_eq_false] at hshared
      exact hvoice hshared

theorem Feed.of_mem_feedsOf {reader : Placed α} {voice : Nat}
    (hvoice : reader.node.perVoice = true → voice < p.voices) {c : Contribution α}
    {feeds : List (Feed α)}
    (hf : feedsOf (placed p).toArray (outputTable p).toArray reader voice c = .ok feeds)
    {feed : Feed α} (hm : feed ∈ feeds) : Feed.Of p c feed := by
  cases c with
  | constant value span =>
    cases hf
    obtain rfl := List.mem_singleton.mp hm
    exact .constant value span
  | output object name span =>
    obtain ⟨q, i, hq, _, hlt, rfl⟩ := of_feedsOf_output hf
    obtain ⟨id, hid, rfl⟩ := List.mem_map.mp hm
    obtain ⟨place, hat, rfl⟩ := at_of_read hq hvoice hid
    exact .slot (getElem?_slots hat hlt)

/-- All feeds of an instance are of contributions to its object. -/
theorem Feed.of_mem_instanceFeeds {reader : Placed α} {voice : Nat}
    (hvoice : reader.node.perVoice = true → voice < p.voices) {feeds : List (List (Feed α))}
    (hf : instanceFeeds (placed p).toArray (outputTable p).toArray reader voice = .ok feeds)
    {found : List (Feed α)} (hfound : found ∈ feeds) {feed : Feed α} (hm : feed ∈ found) :
    ∃ mix ∈ reader.node.mixes.values, ∃ c ∈ mix, Feed.Of p c feed := by
  obtain ⟨socket, _, hsocket⟩ := exists_of_mem_right (forall₂_of_mapM hf) hfound
  obtain ⟨parts, hparts, hflat⟩ := exists_of_bind_eq_ok hsocket
  cases hflat
  obtain ⟨part, hpart, hmem⟩ := List.mem_flatten.mp hm
  obtain ⟨c, hc, hof⟩ := exists_of_mem_right (forall₂_of_mapM hparts) hpart
  cases hget : reader.node.mixes.get? socket.canonical with
  | none =>
    rw [hget] at hc
    exact absurd hc List.not_mem_nil
  | some mix =>
    rw [hget] at hc
    exact ⟨mix, SortedMap.mem_values hget, c, hc, of_mem_feedsOf hvoice hof hmem⟩

variable [Arithmetic α] {w : Wiring α} {g : Graph α}

/-- Every slot that an instance reads comes from a mix of its object. -/
theorem sourced_of_mem_readSlots (hw : Wiring.ofGraph p.voices g (placed p) = .ok w) {id : Nat}
    {place : Place} (hid : p.At id place) {n : Node α} {c : UnitClass}
    (hobject : p.objects[place.object]? = some (n, c)) {slot : Nat}
    (hslot : slot ∈ Engine.readSlots w id) : Sourced p w n slot := by
  rw [ofGraph] at hw
  obtain ⟨feeds, hfeeds, hw⟩ := exists_of_bind_eq_ok hw
  obtain ⟨order, _, hw⟩ := exists_of_bind_eq_ok hw
  obtain ⟨parameters, _, hw⟩ := exists_of_bind_eq_ok hw
  cases hw
  obtain ⟨⟨q, voice⟩, hr, hq, rfl⟩ := forall₂_getElem? forall₂_readers hid
  obtain ⟨found, hfound, hok⟩ := forall₂_getElem? (forall₂_of_mapM hfeeds) hr
  have hvoice := voice_lt_of_mem_readers (List.mem_of_getElem? hr)
  obtain ⟨hq, _⟩ := getElem?_placed_inv hq
  rw [hobject] at hq
  cases hq
  obtain ⟨socket, hsocket, hslot⟩ := List.mem_flatMap.mp hslot
  obtain ⟨i, hi, rfl⟩ := List.mem_map.mp hslot
  obtain ⟨arguments, harguments, hsocket⟩ := (Extent.holds_getD_tile hfound).exists_of_mem hsocket
  obtain ⟨feed, hfeed, hi⟩ := (Extent.holds_getD_tile hsocket).exists_of_mem hi
  obtain ⟨mix, hm, c, hc, hof⟩ := Feed.of_mem_instanceFeeds hvoice hok harguments hfeed
  obtain ⟨k, hk, hbecomes⟩ := getElem?_number
    ((readers p).foldl (fun n r => n + r.1.cls.outputs.length) 0) hi
  dsimp only
  rw [Array.getD_eq_getD_getElem?, List.getElem?_toArray, hk, Option.getD_some]
  cases hof with
  | slot hslot =>
    obtain rfl : k = _ := hbecomes
    exact .output hm hc hslot
  | constant value span =>
    obtain ⟨hle, hvalue⟩ := hbecomes
    refine .constant hm hc (length_slots (p := p) ▸ hle) ?_
    dsimp only
    rw [List.getElem?_toArray, List.getElem?_append_right (by rwa [List.length_replicate]),
      List.length_replicate]
    exact hvalue

end Wiring

namespace Reference.Patch
variable (p : Patch α)

/-- All places of the objects that a place reads are done. -/
def Ready (done : List Place) (place : Place) : Prop :=
  ∀ n c, p.objects[place.object]? = some (n, c) → ∀ mix ∈ n.mixes.values, ∀ object name span,
    .output object name span ∈ mix → ∀ source ∈ p.placesOf object, source ∈ done

/-- Places in an order in which each is new, and all that it reads is done. -/
def Orderly (done : List Place) : List Place → Prop
  | [] => True
  | place :: rest => place ∉ done ∧ p.Ready done place ∧ Orderly (done ++ [place]) rest

variable {p}

theorem Orderly.append {done first second : List Place} (h : p.Orderly done first)
    (h' : p.Orderly (done ++ first) second) : p.Orderly done (first ++ second) := by
  induction first generalizing done with
  | nil => rwa [List.append_nil] at h'
  | cons place rest ih =>
    refine ⟨h.1, h.2.1, ih h.2.2 ?_⟩
    rwa [List.append_assoc]

theorem orderly_of_ready {done places : List Place} (hn : (done ++ places).Nodup)
    (h : ∀ place ∈ places, p.Ready done place) : p.Orderly done places := by
  induction places generalizing done with
  | nil => trivial
  | cons place rest ih =>
    have hnew : place ∉ done := fun hm =>
      List.disjoint_of_nodup_append hn hm List.mem_cons_self
    refine ⟨hnew, h place List.mem_cons_self, ih (by rwa [List.append_assoc]) ?_⟩
    intro other hother n c hobject mix hm object name span hc source hs
    exact List.mem_append_left _
      (h other (List.mem_cons_of_mem _ hother) n c hobject mix hm object name span hc source hs)

/-- The places of objects without repeats do not repeat. -/
theorem nodup_flatMap_placesOf {objects : List Nat} (h : objects.Nodup) :
    (objects.flatMap p.placesOf).Nodup := by
  refine List.nodup_flatMap.mpr ⟨fun object _ => ?_, h.imp fun hne place h h' => ?_⟩
  · refine List.Nodup.map (fun v v' h => ?_) List.nodup_range
    cases h
    rfl
  · exact hne ((p.mem_placesOf.mp h).1.symm.trans (p.mem_placesOf.mp h').1)

/-- With a schedule, voice by voice, all that a place reads is in front of it. -/
theorem orderly_of_wellFormed {catalog : Catalog} {o : Building.Options} {g : Graph α}
    (hp : p.Classed catalog g.nodes) (hg : Building.WellFormed catalog o g) :
    p.Orderly [] (g.order.flatMap p.placesOf) := by
  have hready : ∀ earlier object later, g.order = earlier ++ object :: later →
      ∀ place ∈ p.placesOf object, p.Ready (earlier.flatMap p.placesOf) place := by
    intro earlier object later horder place hplace n c hobject mix hm source name span hc other ho
    obtain ⟨rfl, _⟩ := p.mem_placesOf.mp hplace
    obtain ⟨hnode, _⟩ := hp.of_getElem? hobject
    obtain ⟨_, _, hsource, _⟩ :=
      hg.contributions n (List.mem_of_getElem? hnode) mix hm source name span hc
    have hlt := (List.getElem?_eq_some_iff.mp hsource).1
    have hdependency : source ∈ n.dependencies :=
      List.mem_filterMap.mpr ⟨_, List.mem_flatten.mpr ⟨mix, hm, hc⟩, rfl⟩
    have hreads : Graph.Reads (g.nodes.map Node.dependencies) place.object source := by
      refine ⟨?_, by rwa [List.length_map]⟩
      rw [List.getD_eq_getElem?_getD, List.getElem?_map, hnode]
      exact hdependency
    exact List.mem_flatMap.mpr ⟨source, hg.schedule.before _ _ _ horder source hreads, ho⟩
  have hfrom : ∀ later earlier, g.order = earlier ++ later →
      p.Orderly (earlier.flatMap p.placesOf) (later.flatMap p.placesOf) := by
    intro later
    induction later with
    | nil => exact fun _ _ => trivial
    | cons object rest ih =>
      intro earlier horder
      have hrest := ih (earlier ++ [object]) (by rw [horder, List.append_assoc]; rfl)
      rw [List.flatMap_append, List.flatMap_singleton] at hrest
      rw [List.flatMap_cons]
      refine Orderly.append (orderly_of_ready ?_ (hready _ _ _ horder)) hrest
      have hnodup := hg.schedule.nodup
      rw [horder, List.append_cons] at hnodup
      have hplaces := nodup_flatMap_placesOf (p := p) hnodup.of_append_left
      rwa [List.flatMap_append, List.flatMap_singleton] at hplaces
  exact hfrom g.order [] rfl

end Reference.Patch

end Patchbay
