import Patchbay.Proofs.Engine.Bounds
import Patchbay.Proofs.Engine.Refinement
import Patchbay.Proofs.Engine.Tiling
import Patchbay.Proofs.Graph.RoundTrip

/-! Where an engine keeps what. Instances, outputs, sockets and arguments are laid end to end. Behind
the outputs each constant that an instance reads has a slot of its own, which no call changes. -/
namespace Patchbay
open Reference Reference.Patch Wiring
variable {α : Type}

namespace Reference

/-- A constant where an instance reads it: the socket among those of its class, and the position in
the mix of that socket. -/
structure Literal (α : Type) where
  place : Place
  socket : Nat
  position : Nat
  value : α

namespace Patch

/-- The constants of a mix. -/
def literalsAt (place : Place) (socket : Nat) (mix : List (Contribution α)) : List (Literal α) :=
  mix.zipIdx.filterMap fun x => x.1.constant?.map (⟨place, socket, x.2, ·⟩)

/-- The constants that the instance of an object reads at a place, socket by socket. -/
def literalsOf (n : Node α) (c : UnitClass) (place : Place) : List (Literal α) :=
  c.sockets.zipIdx.flatMap fun x =>
    literalsAt place x.2 ((n.mixes.get? x.1.canonical).getD [])

/-- The constants that are read at a place. -/
def literalsOn (p : Patch α) (place : Place) : List (Literal α) :=
  (p.objects[place.object]?.map fun o => literalsOf o.1 o.2 place).getD []

/-- The constants that all instances read. -/
def literals (p : Patch α) : List (Literal α) := p.places.flatMap p.literalsOn

theorem mem_literalsAt {place : Place} {socket : Nat} {mix : List (Contribution α)}
    {l : Literal α} : l ∈ literalsAt place socket mix ↔ l.place = place ∧ l.socket = socket ∧
      ∃ span, mix[l.position]? = some (.constant l.value span) := by
  rw [literalsAt, List.mem_filterMap]
  constructor
  · rintro ⟨⟨c, i⟩, hc, hl⟩
    have hi := List.mem_zipIdx_iff_getElem?.mp hc
    cases c with
    | output object name span => cases hl
    | constant value span =>
      cases hl
      exact ⟨rfl, rfl, span, hi⟩
  · rintro ⟨rfl, rfl, span, hi⟩
    exact ⟨(.constant l.value span, l.position), List.mem_zipIdx_iff_getElem?.mpr hi, rfl⟩

theorem mem_literalsOf {n : Node α} {c : UnitClass} {place : Place} {l : Literal α} :
    l ∈ literalsOf n c place ↔ l.place = place ∧ ∃ socket span, c.sockets[l.socket]? = some socket ∧
      ((n.mixes.get? socket.canonical).getD [])[l.position]? = some (.constant l.value span) := by
  rw [literalsOf, List.mem_flatMap]
  constructor
  · rintro ⟨⟨socket, i⟩, hsocket, hl⟩
    obtain ⟨hplace, rfl, span, hl⟩ := mem_literalsAt.mp hl
    exact ⟨hplace, socket, span, List.mem_zipIdx_iff_getElem?.mp hsocket, hl⟩
  · rintro ⟨hplace, socket, span, hsocket, hl⟩
    exact ⟨(socket, l.socket), List.mem_zipIdx_iff_getElem?.mpr hsocket,
      mem_literalsAt.mpr ⟨hplace, rfl, span, hl⟩⟩

variable {p : Patch α}

theorem mem_literalsOn {place : Place} {l : Literal α} :
    l ∈ p.literalsOn place ↔
      ∃ n c, p.objects[place.object]? = some (n, c) ∧ l ∈ literalsOf n c place := by
  rw [literalsOn]
  cases p.objects[place.object]? with
  | none =>
    refine iff_of_false List.not_mem_nil ?_
    rintro ⟨_, _, h, _⟩
    cases h
  | some o =>
    constructor
    · exact fun h => ⟨o.1, o.2, rfl, h⟩
    · rintro ⟨n, c, heq, h⟩
      cases heq
      exact h

/-- Literals are the constants in the mixes of the sockets, once for each instance of the object. -/
theorem mem_literals {l : Literal α} :
    l ∈ p.literals ↔ l.place ∈ p.places ∧ ∃ n c socket span,
      p.objects[l.place.object]? = some (n, c) ∧ c.sockets[l.socket]? = some socket ∧
        ((n.mixes.get? socket.canonical).getD [])[l.position]? = some (.constant l.value span) := by
  rw [literals, List.mem_flatMap]
  constructor
  · rintro ⟨place, hplace, hl⟩
    obtain ⟨n, c, hobject, hl⟩ := mem_literalsOn.mp hl
    obtain ⟨rfl, socket, span, hl⟩ := mem_literalsOf.mp hl
    exact ⟨hplace, n, c, socket, span, hobject, hl⟩
  · rintro ⟨hplace, n, c, socket, span, hobject, hl⟩
    have hof := mem_literalsOf.mpr ⟨rfl, socket, span, hl⟩
    exact ⟨l.place, hplace, mem_literalsOn.mpr ⟨n, c, hobject, hof⟩⟩

private theorem pairwise_zipIdx {β : Type} (l : List β) :
    l.zipIdx.Pairwise fun x y => x.2 ≠ y.2 := by
  have hnodup : (l.zipIdx.map Prod.snd).Nodup := by
    rw [List.zipIdx_map_snd]
    exact List.nodup_range'
  exact List.pairwise_map.mp hnodup

theorem nodup_literalsAt (place : Place) (socket : Nat) (mix : List (Contribution α)) :
    (literalsAt place socket mix).Nodup := by
  refine List.Pairwise.filterMap _ (fun x y hne l hl l' hl' heq => ?_) (pairwise_zipIdx mix)
  obtain ⟨_, _, rfl⟩ := Option.map_eq_some_iff.mp hl
  obtain ⟨_, _, rfl⟩ := Option.map_eq_some_iff.mp hl'
  exact hne (congrArg Literal.position heq)

theorem nodup_literalsOf (n : Node α) (c : UnitClass) (place : Place) :
    (literalsOf n c place).Nodup := by
  refine List.nodup_flatMap.mpr ⟨fun x _ => nodup_literalsAt _ _ _, ?_⟩
  refine (pairwise_zipIdx c.sockets).imp fun hne l hl hl' => ?_
  exact hne ((mem_literalsAt.mp hl).2.1.symm.trans (mem_literalsAt.mp hl').2.1)

theorem nodup_literals : p.literals.Nodup := by
  have hown : ∀ place l, l ∈ p.literalsOn place → l.place = place := by
    intro place l hl
    obtain ⟨_, _, _, hl⟩ := mem_literalsOn.mp hl
    exact (mem_literalsOf.mp hl).1
  refine List.nodup_flatMap.mpr ⟨fun place _ => ?_, ?_⟩
  · rw [literalsOn]
    cases p.objects[place.object]? with
    | none => exact List.nodup_nil
    | some o => exact nodup_literalsOf o.1 o.2 place
  · refine p.nodup_places.imp fun hne l hl hl' => ?_
    exact hne ((hown _ l hl).symm.trans (hown _ l hl'))

end Patch
end Reference

namespace Wiring
variable {p : Patch α} {τ : Type}

def Feed.constant? : Feed α → Option α
  | .slot _ => none
  | .constant value => some value

/-- The constants among feeds that have tags. -/
def taggedConstants (feeds : List (τ × Feed α)) : List (τ × α) :=
  feeds.filterMap fun x => x.2.constant?.map (x.1, ·)

/-- The feeds of an instance, each with its place and the socket that it goes to. -/
def sited (place : Place) (found : List (List (Feed α))) : List (List ((Place × Nat) × Feed α)) :=
  found.zipIdx.map fun x => x.1.map ((place, x.2), ·)

theorem taggedConstants_append (feeds more : List (τ × Feed α)) :
    taggedConstants (feeds ++ more) = taggedConstants feeds ++ taggedConstants more :=
  List.filterMap_append

theorem taggedConstants_map (t : τ) (feeds : List (Feed α)) :
    taggedConstants (feeds.map (t, ·)) = (constantsOf feeds).map (t, ·) := by
  rw [taggedConstants, List.filterMap_map, constantsOf, List.map_filterMap]
  rfl

theorem map_snd_taggedConstants (feeds : List (τ × Feed α)) :
    (taggedConstants feeds).map Prod.snd = constantsOf (feeds.map Prod.snd) := by
  rw [taggedConstants, constantsOf, List.map_filterMap, List.filterMap_map]
  congr 1
  funext x
  exact (Option.map_map ..).trans (congrFun Option.map_id x.2.constant?)

theorem map_snd_sited (place : Place) (found : List (List (Feed α))) :
    (sited place found).map (List.map Prod.snd) = found := by
  have hfst : (List.map Prod.snd ∘ fun x : List (Feed α) × Nat => x.1.map ((place, x.2), ·)) =
      Prod.fst := by
    funext x
    exact (List.map_map ..).trans (List.map_id x.1)
  rw [sited, List.map_map, hfst, List.zipIdx_map_fst]

theorem eq_of_mem_sited {place : Place} {found : List (List (Feed α))} {i : Nat}
    {part : List ((Place × Nat) × Feed α)} (hpart : (sited place found)[i]? = some part)
    {tag : Place × Nat} {feed : Feed α} (h : (tag, feed) ∈ part) : tag = (place, i) := by
  rw [sited, List.getElem?_map, List.getElem?_zipIdx, Option.map_map, Nat.zero_add] at hpart
  obtain ⟨feeds, _, rfl⟩ := Option.map_eq_some_iff.mp hpart
  obtain ⟨_, _, heq⟩ := List.mem_map.mp h
  exact (Prod.mk.inj heq).1.symm

/-- Feeds are numbered such that each constant is named by one argument only, its own. -/
theorem exists_number_iff {feeds : List (τ × Feed α)} {next : Nat}
    (hslots : ∀ t k, (t, Feed.slot k) ∈ feeds → k < next) {i : Nat} {t : τ} {value : α}
    (h : (taggedConstants feeds)[i]? = some (t, value)) :
    ∃ a : Nat, feeds[a]? = some (t, Feed.constant value) ∧
      ∀ b : Nat, (number next (feeds.map Prod.snd))[b]? = some (next + i) ↔ b = a := by
  induction feeds generalizing next i with
  | nil => cases h
  | cons first rest ih =>
    obtain ⟨t', feed⟩ := first
    cases feed with
    | slot k =>
      obtain ⟨a, ha, hiff⟩ := ih (fun t k hk => hslots t k (List.mem_cons_of_mem _ hk)) h
      refine ⟨a + 1, ha, fun b => ?_⟩
      cases b with
      | zero =>
        have hk := hslots t' k List.mem_cons_self
        have hne : k ≠ next + i := Nat.ne_of_lt (Nat.lt_add_right i hk)
        exact iff_of_false (fun heq => hne (Option.some.inj heq)) (Nat.succ_ne_zero a).symm
      | succ b => exact (hiff b).trans Nat.succ_inj.symm
    | constant first =>
      have hslots' : ∀ t k, (t, Feed.slot k) ∈ rest → k < next + 1 := by
        intro t k hk
        exact Nat.lt_succ_of_lt (hslots t k (List.mem_cons_of_mem _ hk))
      cases i with
      | zero =>
        cases h
        refine ⟨0, rfl, fun b => ?_⟩
        cases b with
        | zero => exact iff_of_true rfl rfl
        | succ b =>
          refine iff_of_false (fun heq => ?_) (Nat.succ_ne_zero b)
          have hlater : (number (next + 1) (rest.map Prod.snd))[b]? = some next := heq
          obtain ⟨feed, hfeed, hbecomes⟩ := mem_number (List.mem_of_getElem? hlater)
          cases feed with
          | slot k =>
            obtain ⟨⟨t'', _⟩, hk, rfl⟩ := List.mem_map.mp hfeed
            exact Nat.ne_of_gt (hslots t'' k (List.mem_cons_of_mem _ hk)) hbecomes
          | constant other => exact absurd hbecomes.1 (Nat.not_succ_le_self next)
      | succ i =>
        obtain ⟨a, ha, hiff⟩ := ih hslots' h
        refine ⟨a + 1, ha, fun b => ?_⟩
        cases b with
        | zero =>
          have hne : next ≠ next + (i + 1) :=
            Nat.ne_of_lt (Nat.lt_add_of_pos_right (Nat.succ_pos i))
          exact iff_of_false (fun heq => hne (Option.some.inj heq)) (Nat.succ_ne_zero a).symm
        | succ b =>
          rw [Nat.add_right_comm, Nat.add_assoc] at hiff
          exact (hiff b).trans Nat.succ_inj.symm

section Sockets
variable {table : Array (Placed α)} {outputs : Array Extent} {reader : Placed α} {voice : Nat}

theorem constantsOf_append (feeds more : List (Feed α)) :
    constantsOf (feeds ++ more) = constantsOf feeds ++ constantsOf more := List.filterMap_append

theorem constantsOf_feedsOf {c : Contribution α} {feeds : List (Feed α)}
    (h : feedsOf table outputs reader voice c = .ok feeds) :
    constantsOf feeds = c.constant?.toList := by
  cases c with
  | constant value span =>
    cases h
    rfl
  | output object name span =>
    have hslots : ∀ feed ∈ feeds, feed.constant? = none := by
      rw [feedsOf] at h
      split at h
      · cases h
      · split at h
        · cases h
        · split at h
          · cases h
            intro feed hfeed
            obtain ⟨id, _, rfl⟩ := List.mem_map.mp hfeed
            rfl
          · cases h
            intro feed hfeed
            obtain rfl := List.mem_singleton.mp hfeed
            rfl
    exact List.filterMap_eq_nil_iff.mpr hslots

theorem constantsOf_mix {mix : List (Contribution α)} {parts : List (List (Feed α))}
    (h : List.Forall₂ (fun c part => feedsOf table outputs reader voice c = .ok part) mix parts) :
    constantsOf parts.flatten = mix.filterMap Contribution.constant? := by
  induction h with
  | nil => rfl
  | @cons c _ rest _ hc _ ih =>
    rw [List.flatten_cons, constantsOf_append, constantsOf_feedsOf hc, ih]
    cases hconstant : c.constant? with
    | none => rw [List.filterMap_cons_none hconstant]; rfl
    | some value => rw [List.filterMap_cons_some hconstant]; rfl

/-- What a literal is, apart from its position: its place, its socket and its value. -/
def siteOf (l : Literal α) : (Place × Nat) × α := ((l.place, l.socket), l.value)

theorem map_literalsAt (place : Place) (socket : Nat) (mix : List (Contribution α)) :
    (literalsAt place socket mix).map siteOf =
      (mix.filterMap Contribution.constant?).map ((place, socket), ·) := by
  conv_rhs => rw [← List.zipIdx_map_fst 0 mix, List.filterMap_map, List.map_filterMap]
  rw [literalsAt, List.map_filterMap]
  congr 1
  funext x
  exact Option.map_map ..

/-- The constants that an instance reads are the literals of its place. -/
theorem taggedConstants_sited {found : List (List (Feed α))} (place : Place)
    (h : instanceFeeds table outputs reader voice = .ok found) :
    taggedConstants (sited place found).flatten =
      (literalsOf reader.node reader.cls place).map siteOf := by
  have hsockets := forall₂_of_mapM h
  rw [sited, literalsOf]
  clear h
  generalize reader.cls.sockets = sockets at hsockets
  generalize 0 = first
  induction hsockets generalizing first with
  | nil => rfl
  | cons hsocket _ ih =>
    obtain ⟨parts, hparts, hflat⟩ := exists_of_bind_eq_ok hsocket
    cases hflat
    rw [List.zipIdx_cons, List.zipIdx_cons, List.map_cons, List.flatten_cons,
      taggedConstants_append, taggedConstants_map, constantsOf_mix (forall₂_of_mapM hparts), ih,
      List.flatMap_cons, List.map_append, map_literalsAt]

end Sockets

/-- Instances, outputs, sockets and arguments laid end to end. The instances are those of the places
of the objects, and each has the outputs and sockets of its class. -/
structure Layout (p : Patch α) (w : Wiring α) (instances : Nat) : Prop where
  blocks : Extent.Tiles 0 w.blocks instances
  counts : w.blocks.map Extent.size = p.objects.map fun o => if o.1.perVoice then p.voices else 1
  outputs : Extent.Tiles 0 w.outputs.toList p.slots.length
  sockets : Extent.Tiles 0 w.sockets.toList w.socketArgs.size
  socketArgs : Extent.Tiles 0 w.socketArgs.toList w.args.size
  entries : w.outputs.size = instances ∧ w.sockets.size = instances
  places : ∀ (object : Nat) (block : Extent), w.blocks[object]? = some block →
    block.Holds p.places (p.placesOf object)
  classes : ∀ id place n c, p.At id place → p.objects[place.object]? = some (n, c) →
    ∃ outputs sockets : Extent, w.outputs[id]? = some outputs ∧ outputs.size = c.outputs.length ∧
      w.sockets[id]? = some sockets ∧ sockets.size = c.sockets.length

/-- Behind the slots of outputs there is one for each literal, which holds its value. It is named by
one argument only, of the socket that reads the literal. -/
structure HoldsLiterals (p : Patch α) (w : Wiring α) (values : Array α) : Prop where
  size : values.size = p.slots.length + p.literals.length
  apart : ∀ (i : Nat), ∀ outputs ∈ w.outputs, p.slots.length + i ∉ outputs.toList
  held : ∀ (i : Nat) (l : Literal α), p.literals[i]? = some l →
    values[p.slots.length + i]? = some l.value
  argument : ∀ (i : Nat) (l : Literal α), p.literals[i]? = some l →
    ∃ (id a : Nat) (sockets args : Extent), p.At id l.place ∧ w.sockets[id]? = some sockets ∧
      sockets.start + l.socket ∈ sockets.toList ∧
      w.socketArgs[sockets.start + l.socket]? = some args ∧ a ∈ args.toList ∧
      ∀ b : Nat, w.args[b]? = some (p.slots.length + i) ↔ b = a

theorem map_snd_zipWith_sited {places : List Place} {feeds : List (List (List (Feed α)))}
    (h : places.length = feeds.length) :
    (List.zipWith sited places feeds).map (List.map (List.map Prod.snd)) = feeds := by
  rw [List.map_zipWith]
  simp only [map_snd_sited]
  have hzip := List.map_snd_zip (Nat.le_of_eq h.symm)
  rw [List.zip, List.map_zipWith] at hzip
  exact hzip

/-- The constants that all instances read are the literals of the patch. -/
theorem taggedConstants_zipWith {feeds : List (List (List (Feed α)))}
    (h : List.Forall₂ (fun r found => instanceFeeds (placed p).toArray (outputTable p).toArray
      r.1 r.2 = .ok found) (readers p) feeds) :
    taggedConstants (List.zipWith sited p.places feeds).flatten.flatten =
      p.literals.map siteOf := by
  have hreaders := forall₂_readers (p := p)
  rw [literals]
  generalize p.places = places at hreaders
  generalize readers p = readers at hreaders h
  induction hreaders generalizing feeds with
  | nil => cases h; rfl
  | @cons place r places _ hr _ ih =>
    cases h with
    | cons hfound hrest =>
      have hobject := (getElem?_placed_inv hr.1).1
      rw [List.zipWith_cons_cons, List.flatten_cons, List.flatten_append, taggedConstants_append,
        taggedConstants_sited place hfound, ih hrest, List.flatMap_cons, List.map_append, literalsOn,
        hobject]
      rfl

/-- The argument of a feed, from the instance and the socket that its tag tells. -/
theorem exists_of_getElem?_sited {feeds : List (List (List (Feed α)))}
    (hlength : p.places.length = feeds.length) {a : Nat} {place : Place} {socket : Nat}
    {feed : Feed α}
    (h : (List.zipWith sited p.places feeds).flatten.flatten[a]? = some ((place, socket), feed)) :
    ∃ (id : Nat) (sockets args : Extent), p.At id place ∧
      (Extent.tile 0 (feeds.map List.length))[id]? = some sockets ∧
      sockets.start + socket ∈ sockets.toList ∧
      (Extent.tile 0 (feeds.flatten.map List.length))[sockets.start + socket]? = some args ∧
      a ∈ args.toList := by
  obtain ⟨k, args, part, hpart, hargs, ha, hfeed⟩ := Extent.exists_of_getElem?_flatten h
  obtain ⟨id, sockets, found, hfound, hsockets, hk, hpart⟩ :=
    Extent.exists_of_getElem?_flatten hpart
  have hfeeds := map_snd_zipWith_sited hlength
  have hsizes : (List.zipWith sited p.places feeds).map List.length = feeds.map List.length := by
    conv_rhs => rw [← hfeeds, List.map_map]
    simp only [Function.comp_def, List.length_map]
  have hsizes' : (List.zipWith sited p.places feeds).flatten.map List.length =
      feeds.flatten.map List.length := by
    conv_rhs => rw [← hfeeds, ← List.map_flatten, List.map_map]
    simp only [Function.comp_def, List.length_map]
  rw [hsizes] at hsockets
  rw [hsizes'] at hargs
  obtain ⟨place', own, hplace, hown, rfl⟩ := List.getElem?_zipWith_eq_some.mp hfound
  cases eq_of_mem_sited hpart (List.mem_of_getElem? hfeed)
  have hsocket : sockets.start + (k - sockets.start) = k :=
    Nat.add_sub_cancel' (Extent.mem_toList.mp hk).1
  exact ⟨id, sockets, args, hplace, hsockets, hsocket.symm ▸ hk, hsocket.symm ▸ hargs, ha⟩

variable [Arithmetic α] {w : Wiring α} {g : Graph α}

omit [Arithmetic α] in
theorem length_places :
    p.places.length = (p.objects.map fun o => if o.1.perVoice then p.voices else 1).sum := by
  rw [places, List.length_flatMap, ← map_length_placesOf, List.map_map]
  rfl

theorem layout_of_ofGraph (hw : Wiring.ofGraph p.voices g (placed p) = .ok w) :
    Layout p w p.places.length := by
  have hbounded := bounded_of_ofGraph hw
  rw [ofGraph] at hw
  obtain ⟨feeds, hfeeds, hw⟩ := exists_of_bind_eq_ok hw
  obtain ⟨order, _, hw⟩ := exists_of_bind_eq_ok hw
  obtain ⟨parameters, _, hw⟩ := exists_of_bind_eq_ok hw
  cases hw
  have hcount : (readers p).length = p.places.length := (forall₂_readers (p := p)).length_eq.symm
  have hslots : ((readers p).map (·.1.cls.outputs.length)).sum = p.slots.length := by
    rw [← length_slots, List.sum_eq_foldl, List.foldl_map]
  have htile : ∀ sizes : List Nat, Extent.Tiles 0 (Extent.tile 0 sizes) sizes.sum := by
    intro sizes
    have htiles := Extent.tiles_tile 0 sizes
    rwa [Nat.zero_add] at htiles
  refine ⟨?_, ?_, ?_, ?_, ?_, ⟨?_, ?_⟩, fun object block hblock => ?_,
    fun id place n c hid hobject => ?_⟩
  · have hblocks := htile (p.objects.map fun o => if o.1.perVoice then p.voices else 1)
    rwa [← map_instances_placed, ← length_places] at hblocks
  · dsimp only
    rw [map_instances_placed, Extent.map_size_tile]
  · exact hslots ▸ htile _
  · rw [List.size_toArray, Extent.length_tile, List.length_map, List.length_flatten]
    exact htile _
  · rw [List.size_toArray, length_number, List.length_flatten]
    exact htile _
  · rw [List.size_toArray, Extent.length_tile, List.length_map, hcount]
  · rw [List.size_toArray, Extent.length_tile, List.length_map,
      ← (forall₂_of_mapM hfeeds).length_eq, hcount]
  · rw [List.getElem?_map] at hblock
    obtain ⟨q, hq, rfl⟩ := Option.map_eq_some_iff.mp hblock
    exact (getElem?_placed_inv hq).2
  · obtain ⟨sockets, hsockets, _, hsize⟩ := hbounded.sockets id place n c hid hobject
    obtain ⟨outputs, houtputs, _, hsize'⟩ := hbounded.outputs id place hid
    rw [outputCount, hobject, Option.map_some, Option.getD_some] at hsize'
    exact ⟨outputs, sockets, houtputs, hsize', hsockets, hsize⟩

theorem holdsLiterals_of_ofGraph (hw : Wiring.ofGraph p.voices g (placed p) = .ok w) :
    HoldsLiterals p w w.initial := by
  have hlayout := layout_of_ofGraph hw
  rw [ofGraph] at hw
  obtain ⟨feeds, hfeeds, hw⟩ := exists_of_bind_eq_ok hw
  obtain ⟨order, _, hw⟩ := exists_of_bind_eq_ok hw
  obtain ⟨parameters, _, hw⟩ := exists_of_bind_eq_ok hw
  cases hw
  have hfeeds := forall₂_of_mapM hfeeds
  have hlength : p.places.length = feeds.length :=
    (forall₂_readers (p := p)).length_eq.trans hfeeds.length_eq
  have htagged := taggedConstants_zipWith hfeeds
  have hall : (List.zipWith sited p.places feeds).flatten.flatten.map Prod.snd =
      feeds.flatten.flatten := by
    conv_rhs => rw [← map_snd_zipWith_sited hlength]
    rw [List.map_flatten, List.map_flatten]
  have hvalues : constantsOf feeds.flatten.flatten = p.literals.map Literal.value := by
    rw [← hall, ← map_snd_taggedConstants, htagged, List.map_map]
    rfl
  have hslots : ∀ t k, (t, Feed.slot k) ∈ (List.zipWith sited p.places feeds).flatten.flatten →
      k < p.slots.length := by
    intro t k hk
    have hmem : Feed.slot k ∈ feeds.flatten.flatten := hall ▸ List.mem_map_of_mem hk
    obtain ⟨_, hof⟩ := Feed.exists_of_mem_feeds hfeeds hmem
    cases hof with
    | slot hslot => exact (List.getElem?_eq_some_iff.mp hslot).1
  have hfirst := length_slots (p := p)
  refine ⟨?_, fun i outputs houtputs hi => ?_, fun i l hl => ?_, fun i l hl => ?_⟩
  · rw [List.size_toArray, List.length_append, List.length_replicate, hfirst, hvalues,
      List.length_map]
  · have hlt := (hlayout.outputs.bounds (Array.mem_toList_iff.mpr houtputs) hi).2
    exact absurd (Nat.le_add_right _ i) (Nat.not_le_of_lt hlt)
  · rw [List.getElem?_toArray, hfirst, List.getElem?_append_right (by simp), List.length_replicate,
      Nat.add_sub_cancel_left, hvalues, List.getElem?_map, hl, Option.map_some]
  · have htag : (taggedConstants (List.zipWith sited p.places feeds).flatten.flatten)[i]? =
        some ((l.place, l.socket), l.value) := by
      rw [htagged, List.getElem?_map, hl]
      rfl
    obtain ⟨a, ha, hiff⟩ := exists_number_iff hslots htag
    obtain ⟨id, sockets, args, hid, hsockets, hsocket, hargs, hmem⟩ :=
      exists_of_getElem?_sited hlength ha
    rw [hall] at hiff
    refine ⟨id, a, sockets, args, hid, ?_, hsocket, ?_, hmem, fun b => ?_⟩
    · exact (List.getElem?_toArray ..).trans hsockets
    · exact (List.getElem?_toArray ..).trans hargs
    · rw [List.getElem?_toArray, hfirst]
      exact hiff b

/-- No call changes what the slots behind the outputs hold. -/
theorem HoldsLiterals.of_stores {values : Array α} {latest : Place → Nat → α}
    (h : HoldsLiterals p w w.initial) (hw : Wired p w) (hs : Stores p w values latest) :
    HoldsLiterals p w values where
  size := (hs.size_eq hw).trans h.size
  apart := h.apart
  held i l hl := (hs.others _ (Nat.le_add_right _ i)).trans (h.held i l hl)
  argument := h.argument

end Wiring

namespace Engine
variable {U : Type} [Arithmetic α] [Playable α U] {registry : Registry α U}
  {settings : EngineSettings} {p : Patch α} {e : Engine α U}

omit [Arithmetic α] in
private theorem kept_below (count : Nat) : Kept (α := α) (U := U) fun id _ => id < count where
  setValue _ _ _ h := h
  process _ _ _ h := h

omit [Playable α U] in
theorem length_unitsOf {units : List U} (h : unitsOf registry settings (placed p) = .ok units) :
    units.length = p.places.length := by
  obtain ⟨parts, hparts, rfl⟩ := forall₂_of_flatMapM h
  rw [(forall₂_readers (p := p)).length_eq, readers, List.length_flatMap, List.length_flatten]
  clear h
  generalize placed p = objects at hparts
  congr 1
  induction hparts with
  | nil => rfl
  | cons hpart _ ih =>
    rw [List.map_cons, List.map_cons, ih, List.length_map, List.length_range,
      ← (forall₂_of_mapM hpart).length_eq, Extent.toList, List.length_range']

/-- Engines have a unit for each instance, before and after any calls. -/
theorem size_units_run {graph : Graph α} (h : ofRegistry registry settings graph = .ok e)
    (hp : p = Patch.ofGraph registry.catalog settings.voices graph) (calls : List (Call α)) :
    (e.run calls).1.units.size = p.places.length := by
  obtain ⟨hw, hstart, _, hv⟩ := represents_of_ofRegistry h hp
  obtain ⟨_, _, units, _, _, hunits, _, he⟩ := parts_of_ofRegistry h hp
  have hbelow : e.Each fun id _ => id < p.places.length := by
    intro id unit hunit
    rw [he, spreadVoices_eq, getElem?_foldl_modify] at hunit
    have hold : ∃ old, units[id]? = some old := by
      split at hunit
      · obtain ⟨old, hold, _⟩ := Option.map_eq_some_iff.mp hunit
        exact ⟨old, (List.getElem?_toArray ..).symm.trans hold⟩
      · exact ⟨unit, (List.getElem?_toArray ..).symm.trans hunit⟩
    obtain ⟨old, hold⟩ := hold
    exact length_unitsOf hunits ▸ (List.getElem?_eq_some_iff.mp hold).1
  have hrun := hbelow.run (kept_below p.places.length) calls
  have hplaces := (hstart.run hw hv calls).1.units
  apply Nat.le_antisymm
  · apply Nat.le_of_not_lt
    intro hlt
    exact Nat.lt_irrefl _ (hrun _ _ (Array.getElem?_eq_getElem hlt))
  · apply Nat.le_of_not_lt
    intro hlt
    have hunit := hplaces _ _ (List.getElem?_eq_getElem hlt)
    exact Nat.lt_irrefl _ (Array.getElem?_eq_some_iff.mp hunit).1

/-- Whatever an engine is asked, instances, outputs, sockets and arguments lie end to end, and each
constant that an instance reads is in a slot of its own behind the outputs. -/
theorem run_keeps_layout {graph : Graph α} (h : ofRegistry registry settings graph = .ok e)
    (calls : List (Call α)) :
    let p := Patch.ofGraph registry.catalog settings.voices graph
    let e' := (e.run calls).1
    p.objects.map Prod.fst = graph.nodes ∧ p.literals.Nodup ∧ e'.wiring = e.wiring ∧
      Layout p e.wiring e'.units.size ∧ HoldsLiterals p e.wiring e'.values := by
  intro p e'
  obtain ⟨hw, hstart, hnodes, hv⟩ := represents_of_ofRegistry h (p := p) rfl
  obtain ⟨_, _, _, _, _, _, hwiring, _⟩ := parts_of_ofRegistry h (p := p) rfl
  have hrun := (hstart.run hw hv calls).1
  refine ⟨hnodes, nodup_literals, hrun.wiring, ?_, ?_⟩
  · rw [size_units_run h rfl calls]
    exact layout_of_ofGraph hwiring
  · exact (holdsLiterals_of_ofGraph hwiring).of_stores hw hrun.values

theorem run_keeps_layout_chorus :
    ∃ e : Engine Float, ofRegistry Library.standard.registry .standard chorus = .ok e ∧
      let p := Patch.ofGraph Library.standard.catalog 5 chorus
      let e' := (e.run [.noteOn 60 1, .generate 2]).1
      Layout p e.wiring e'.units.size ∧ HoldsLiterals p e.wiring e'.values := by
  obtain ⟨e, he⟩ : ∃ e : Engine Float,
      ofRegistry Library.standard.registry .standard chorus = .ok e := ⟨_, rfl⟩
  exact ⟨e, he, (run_keeps_layout he _).2.2.2⟩

end Engine
end Patchbay
