import Mathlib.Algebra.Field.Basic
import Mathlib.Data.List.Induction
import Patchbay.Proofs.Building.Soundness
import Patchbay.Proofs.Meaning.Basic
import Patchbay.Unit.Basic

/-! When what is built agrees with what was said, while both still grow. Objects that do the work of
operators have no part in what was said; they compute what they should from what they receive. -/
namespace Patchbay
variable {α : Type}

/-- The number that a summand stands for. -/
def Contribution.value (σ : Meaning.Signals α) : Contribution α → α
  | .output object name _ => σ object name
  | .constant x _ => x

namespace Meaning
open Building

/-- The numbers of the objects that are there for their own sake. -/
def places (shapes : List Shape) : List Nat :=
  shapes.zipIdx.filterMap fun (x, id) => if x.origin = .operator then none else some id

section Places
variable {shapes shapes' : List Shape} {id : Nat}

theorem places_append (shapes : List Shape) (x : Shape) :
    places (shapes ++ [x]) =
      places shapes ++ if x.origin = .operator then [] else [shapes.length] := by
  rw [places, List.zipIdx_append, List.filterMap_append, places]
  by_cases h : x.origin = .operator <;> simp [h]

theorem places_mono (h : shapes <+: shapes') : places shapes <+: places shapes' := by
  obtain ⟨more, rfl⟩ := h
  simp only [places, List.zipIdx_append, List.filterMap_append]
  exact List.prefix_append _ _

theorem mem_places : id ∈ places shapes ↔ Placed shapes id := by
  simp only [places, List.mem_filterMap, Prod.exists, List.mem_zipIdx_iff_getElem?,
    Option.ite_none_left_eq_some, Option.some.injEq, Placed]
  constructor
  · rintro ⟨x, i, hx, ho, rfl⟩
    exact ⟨x, hx, ho⟩
  · rintro ⟨x, hx, ho⟩
    exact ⟨x, id, hx, ho, rfl⟩

theorem nodup_places (shapes : List Shape) : (places shapes).Nodup := by
  induction shapes using List.reverseRecOn with
  | nil => exact List.nodup_nil
  | append_singleton shapes x ih =>
    rw [places_append]
    split
    · rwa [List.append_nil]
    · refine List.nodup_append.mpr ⟨ih, List.nodup_singleton _, fun a ha b hb => ?_⟩
      rw [List.mem_singleton.mp hb]
      obtain ⟨y, hy, _⟩ := mem_places.mp ha
      exact Nat.ne_of_lt (List.getElem?_eq_some_iff.mp hy).1

theorem length_places (shapes : List Shape) :
    (places shapes).length = (shapes.filter (·.origin ≠ .operator)).length := by
  induction shapes using List.reverseRecOn with
  | nil => rfl
  | append_singleton shapes x ih =>
    rw [places_append, List.length_append, ih, List.filter_append, List.length_append]
    by_cases h : x.origin = .operator <;> simp [h]

theorem map_places (shapes : List Shape) :
    (places shapes).map (fun id => shapes[id]?) =
      (shapes.filter (·.origin ≠ .operator)).map some := by
  induction shapes using List.reverseRecOn with
  | nil => rfl
  | append_singleton shapes x ih =>
    rw [places_append, List.map_append, List.filter_append, List.map_append, ← ih]
    congr 1
    · refine List.map_congr_left fun id hid => ?_
      obtain ⟨y, hy, _⟩ := mem_places.mp hid
      exact List.getElem?_append_left (List.getElem?_eq_some_iff.mp hy).1
    · by_cases h : x.origin = .operator <;> simp [h]

theorem getElem?_places_length (s : State α) {d : Draft α} (ho : d.origin ≠ .operator) :
    (places (s.add d).shapes)[(places s.shapes).length]? = some s.objects.length := by
  rw [State.shapes_add, places_append, if_neg (show d.shape.origin ≠ .operator from ho),
    List.getElem?_concat_length, State.length_shapes]

end Places

/-- The sum at a socket. -/
def total [AddMonoid α] (σ : Signals α) (mix : List (Contribution α)) : α :=
  (mix.map (Contribution.value σ)).sum

section Total
variable [AddMonoid α] (σ : Signals α)

theorem total_append (first second : List (Contribution α)) :
    total σ (first ++ second) = total σ first + total σ second := by
  rw [total, List.map_append, List.sum_append, total, total]

omit [AddMonoid α] in
theorem gather_append {v w : Value α} (hv : ∀ a ∈ v, Readable a) :
    (gather (v ++ w)).1 = (gather v).1 ++ (gather w).1 := by
  induction v with
  | nil => rfl
  | cons a rest ih =>
    obtain ⟨more, hmore⟩ := hv a List.mem_cons_self
    rw [List.cons_append, gather, gather, hmore]
    dsimp only
    rw [ih fun b hb => hv b (List.mem_cons_of_mem _ hb), List.append_assoc]

end Total

/-- What stays of a state while more is built: its shapes, and the objects of operators with all
that they receive. -/
structure Grown (s s' : State α) : Prop where
  shapes : s.shapes <+: s'.shapes
  operators : ∀ (id : Nat) (d : Draft α), s.objects[id]? = some d → d.origin = .operator →
    s'.objects[id]? = some d

theorem Grown.refl (s : State α) : Grown s s := ⟨List.prefix_rfl, fun _ _ h _ => h⟩

theorem Grown.trans {s s' s'' : State α} (h : Grown s s') (h' : Grown s' s'') : Grown s s'' :=
  ⟨h.shapes.trans h'.shapes, fun id d hd ho => h'.operators id d (h.operators id d hd ho) ho⟩

theorem grown_add (s : State α) (d : Draft α) : Grown s (s.add d) := by
  refine ⟨?_, fun id e he _ => ?_⟩
  · rw [State.shapes_add]
    exact List.prefix_append _ _
  · exact getElem?_mono (List.prefix_append _ _) he

/-- What an object receives that is there for its own sake does not matter to the others. -/
theorem grown_mix {s : State α} {id : Nat} (hp : Placed s.shapes id) (socket : Nat)
    (more : List (Contribution α)) : Grown s (s.mix id socket more) := by
  refine ⟨by rw [State.shapes_mix], fun other d hd ho => ?_⟩
  obtain ⟨x, hx, hne⟩ := hp
  have hother : id ≠ other := by
    rintro rfl
    rw [State.shapes, List.getElem?_map, hd] at hx
    exact hne (Option.some.inj hx ▸ ho)
  show (s.objects.modify id _)[other]? = some d
  rw [List.getElem?_modify, hd]
  simp [hother]

/-- Numbers on the objects of a story that are those on the objects built for them. -/
def Matches (σ ρ : Signals α) (shapes : List Shape) : Prop :=
  ∀ (k id : Nat), (places shapes)[k]? = some id → ρ k = σ id

theorem Matches.mono {σ ρ : Signals α} {shapes shapes' : List Shape} (h : shapes <+: shapes')
    (hm : Matches σ ρ shapes') : Matches σ ρ shapes :=
  fun k id hk => hm k id (getElem?_mono (places_mono h) hk)

variable [ExactArithmetic α]

/-- Each object that does the work of an operator gives what its unit computes from the sums at its
sockets. -/
def Settled (rate : α) (seed : UInt64) (σ : Signals α) (s : State α) : Prop :=
  ∀ (id : Nat) (d : Draft α) (u : SoundUnit α), s.objects[id]? = some d → d.origin = .operator →
    Library.standard.create? d.cls.name rate seed = some u →
      d.cls.outputs.map (fun j => σ id j.canonical) = (u.process (d.mixes.map (total σ))).2

variable {rate : α} {seed : UInt64} {s s' : State α}

theorem Settled.mono (h : Grown s s') {σ : Signals α} (hs : Settled rate seed σ s') :
    Settled rate seed σ s := fun id d u hd ho hu => hs id d u (h.operators id d hd ho) ho hu

/-- The parts of a value sum up to a signal, whatever the numbers at the outputs are. -/
def Carries (rate : α) (seed : UInt64) (s : State α) (v : Value α) (f : Signals α → α) : Prop :=
  ∀ σ ρ, Settled rate seed σ s → Matches σ ρ s.shapes → total σ (gather v).1 = f ρ

theorem Carries.mono (h : Grown s s') {v : Value α} {f : Signals α → α}
    (hc : Carries rate seed s v f) : Carries rate seed s' v f :=
  fun σ ρ hs hm => hc σ ρ (hs.mono h) (hm.mono h.shapes)

/-- A value that was built for what an expression means. -/
inductive Means (rate : α) (seed : UInt64) (s : State α) : Value α → Sense α → Prop where
  | object {k ref span} : (places s.shapes)[k]? = some ref.id →
      Means rate seed s [.object ref span] (.object k ref.cls)
  | socket {k id index span} : (places s.shapes)[k]? = some id →
      Means rate seed s [.socket id index span] (.socket k index)
  | signal {v f} : v ≠ [] → (∀ a ∈ v, Readable a) →
      (∀ ref span, v = [.object ref span] →
        (∃ x, s.shapes[ref.id]? = some x ∧ x.origin = .operator) ∧
          ref.cls.isStereoSource = false) →
      Carries rate seed s v f → Means rate seed s v (.signal f)

theorem Means.mono (h : Grown s s') {v : Value α} {sense : Sense α}
    (hm : Means rate seed s v sense) : Means rate seed s' v sense := by
  cases hm with
  | object hk => exact .object (getElem?_mono (places_mono h.shapes) hk)
  | socket hk => exact .socket (getElem?_mono (places_mono h.shapes) hk)
  | signal hne hread hobject hc =>
    refine .signal hne hread (fun ref span hv => ?_) (hc.mono h)
    obtain ⟨⟨x, hx, ho⟩, hstereo⟩ := hobject ref span hv
    exact ⟨⟨x, getElem?_mono h.shapes hx, ho⟩, hstereo⟩

theorem Means.ne_nil {v : Value α} {sense : Sense α} (hm : Means rate seed s v sense) : v ≠ [] := by
  cases hm with
  | object => exact List.cons_ne_nil _ _
  | socket => exact List.cons_ne_nil _ _
  | signal hne => exact hne

/-- A value that can be read has a signal in what was said, and carries it. -/
theorem Means.signal? {v : Value α} {sense : Sense α} (hm : Means rate seed s v sense)
    (hread : ∀ a ∈ v, Readable a) : ∃ f, sense.signal? = some f ∧ Carries rate seed s v f := by
  cases hm with
  | @object k ref span hk =>
    rw [Sense.signal?]
    obtain ⟨more, hmore⟩ := hread _ List.mem_cons_self
    rw [contributions] at hmore
    cases hout : ref.cls.canonicalOutput? "output" with
    | some name =>
      refine ⟨_, rfl, fun σ ρ _ hmatch => ?_⟩
      simp [gather, contributions, hout, total, Contribution.value, hmatch k _ hk]
    | none =>
      rw [hout] at hmore
      by_cases hstereo : ref.cls.isStereoSource = true
      · refine ⟨_, if_pos hstereo, fun σ ρ _ hmatch => ?_⟩
        simp [gather, contributions, hout, hstereo, total, Contribution.value, hmatch k _ hk]
      · rw [if_neg hstereo] at hmore
        cases hmore
  | socket hk =>
    obtain ⟨more, hmore⟩ := hread _ List.mem_cons_self
    cases hmore
  | signal _ _ _ hc => exact ⟨_, rfl, hc⟩

/-- A single object that is there for its own sake was said to be an object. -/
theorem Means.of_placed {ref : Ref} {span : Option Span} {sense : Sense α}
    (hm : Means rate seed s [.object ref span] sense) (hp : Placed s.shapes ref.id) :
    ∃ k, sense = .object k ref.cls ∧ (places s.shapes)[k]? = some ref.id := by
  cases hm with
  | @object k _ _ hk => exact ⟨k, rfl, hk⟩
  | signal _ _ hobject _ =>
    obtain ⟨⟨x, hx, ho⟩, _⟩ := hobject ref span rfl
    obtain ⟨y, hy, hne⟩ := hp
    rw [hx] at hy
    exact absurd (Option.some.inj hy ▸ ho) hne

theorem Means.of_socket {id index : Nat} {span : Option Span} {sense : Sense α}
    (hm : Means rate seed s [.socket id index span] sense) :
    ∃ k, sense = .socket k index ∧ (places s.shapes)[k]? = some id := by
  cases hm with
  | @socket k _ _ _ hk => exact ⟨k, rfl, hk⟩
  | signal _ hread _ _ =>
    obtain ⟨more, hmore⟩ := hread _ List.mem_cons_self
    cases hmore

theorem means_constant (x : α) (span : Option Span) :
    Means rate seed s [.constant x span] (.signal fun _ => x) := by
  refine .signal (List.cons_ne_nil _ _) (fun a ha => ?_) (fun ref place hv => ?_) fun σ ρ _ _ => ?_
  · rw [List.mem_singleton.mp ha]
    exact ⟨_, rfl⟩
  · cases hv
  · simp [gather, contributions, total, Contribution.value]

theorem carries_output {k id : Nat} (hk : (places s.shapes)[k]? = some id) (name : String)
    (span : Option Span) : Carries rate seed s [.output id name span] fun ρ => ρ k name := by
  intro σ ρ _ hmatch
  simp [gather, contributions, total, Contribution.value, hmatch k id hk]

theorem means_output {k id : Nat} (hk : (places s.shapes)[k]? = some id) (name : String)
    (span : Option Span) :
    Means rate seed s [.output id name span] (.signal fun ρ => ρ k name) := by
  refine .signal (List.cons_ne_nil _ _) (fun a ha => ?_) (fun ref place hv => ?_)
    (carries_output hk name span)
  · rw [List.mem_singleton.mp ha]
    exact ⟨_, rfl⟩
  · cases hv

theorem means_append {v w : Value α} {f g : Signals α → α} (hv : v ≠ []) (hw : w ≠ [])
    (hvr : ∀ a ∈ v, Readable a) (hwr : ∀ a ∈ w, Readable a) (hf : Carries rate seed s v f)
    (hg : Carries rate seed s w g) : Means rate seed s (v ++ w) (.signal fun ρ => f ρ + g ρ) := by
  refine .signal (List.append_ne_nil_of_left_ne_nil hv w) ?_ ?_ fun σ ρ hs hm => ?_
  · exact fun a ha => (List.mem_append.mp ha).elim (hvr a) (hwr a)
  · intro ref span h
    have hlen := congrArg List.length h
    have h₁ := List.length_pos_of_ne_nil hv
    have h₂ := List.length_pos_of_ne_nil hw
    rw [List.length_append, List.length_singleton] at hlen
    omega
  · rw [gather_append hvr, total_append, hf σ ρ hs hm, hg σ ρ hs hm]

/-- The classes that do the work of operators. -/
def operatorClasses : List String :=
  [Builtin.inverter, Builtin.attenuator, Builtin.mapping, Builtin.bipolarMapping]

/-- A state agrees with a story: the same objects, the same names with the same meanings, and each
socket receives just what is sent to it. -/
structure Tells (rate : α) (seed : UInt64) (s : State α) (t : Story α) : Prop where
  objects : t.objects = (s.shapes.filter (·.origin ≠ .operator)).map Shape.cls
  operators : ∀ x ∈ s.shapes, x.origin = .operator → x.cls.name ∈ operatorClasses
  global : ∀ name, Option.Rel (Means rate seed s) (s.global.get? name) (t.global.get? name)
  voice : ∀ name, Option.Rel (Means rate seed s) (s.voice.get? name) (t.voice.get? name)
  sent : ∀ r ∈ t.routes, r.object < t.objects.length
  received : ∀ (k id i : Nat) (d : Draft α) (mix : List (Contribution α)),
    (places s.shapes)[k]? = some id → s.objects[id]? = some d → d.mixes[i]? = some mix →
      ∀ σ ρ, Settled rate seed σ s → Matches σ ρ s.shapes → total σ mix = t.received k i ρ

section Tells
variable {t : Story α}

private theorem rel_mono (h : Grown s s') {v : Option (Value α)} {sense : Option (Sense α)}
    (hr : Option.Rel (Means rate seed s) v sense) : Option.Rel (Means rate seed s') v sense := by
  cases hr with
  | some hm => exact .some (hm.mono h)
  | none => exact .none

theorem Tells.length_objects (h : Tells rate seed s t) :
    t.objects.length = (places s.shapes).length := by
  rw [h.objects, List.length_map, length_places]

/-- Nothing was said when only an operator's object, a warning or a parameter was added. -/
theorem Tells.grow (h : Tells rate seed s t) (hg : Grown s s')
    (hshapes : places s'.shapes = places s.shapes)
    (hobjects : (s'.shapes.filter (·.origin ≠ .operator)) =
      s.shapes.filter (·.origin ≠ .operator))
    (hoperators : ∀ x ∈ s'.shapes, x.origin = .operator → x.cls.name ∈ operatorClasses)
    (hold : ∀ id ∈ places s.shapes, s'.objects[id]? = s.objects[id]?)
    (hglobal : s'.global = s.global) (hvoice : s'.voice = s.voice) : Tells rate seed s' t where
  objects := hobjects ▸ h.objects
  operators := hoperators
  global := fun name => hglobal ▸ rel_mono hg (h.global name)
  voice := fun name => hvoice ▸ rel_mono hg (h.voice name)
  sent := h.sent
  received := by
    intro k id i d mix hk hd hmix σ ρ hs hm
    rw [hshapes] at hk
    rw [hold id (List.mem_of_getElem? hk)] at hd
    exact h.received k id i d mix hk hd hmix σ ρ (hs.mono hg) (hm.mono hg.shapes)

theorem Tells.find? (h : Tells rate seed s t) (scope : Scope) (name : String) :
    Option.Rel (Means rate seed s) (s.find? scope name) (t.find? scope name) := by
  cases scope with
  | global => exact h.global name
  | voice =>
    have hv := h.voice name
    rw [State.find?, Story.find?]
    generalize s.voice.get? name = v at hv ⊢
    generalize t.voice.get? name = sense at hv ⊢
    cases hv with
    | some hm => exact .some hm
    | none => exact h.global name

/-- A name is bound to a value and gets its meaning. -/
theorem Tells.bind (h : Tells rate seed s t) {v : Value α} {sense : Sense α}
    (hm : Means rate seed s v sense) (scope : Scope) (name : String) :
    Tells rate seed (s.bind scope name v) (t.bind scope name sense) := by
  have put : ∀ (table : Table (Value α)) (senses : Table (Sense α)),
      (∀ n, Option.Rel (Means rate seed s) (table.get? n) (senses.get? n)) →
        ∀ n, Option.Rel (Means rate seed s) ((table.put name v).get? n)
          ((senses.put name sense).get? n) := by
    intro table senses ht n
    rw [Table.get?_put, Table.get?_put]
    split
    · exact .some hm
    · exact ht n
  have hg : Grown s (s.bind scope name v) := by
    cases scope <;> exact ⟨List.prefix_rfl, fun _ _ hd _ => hd⟩
  cases scope with
  | global =>
    refine ⟨h.objects, h.operators, fun n => rel_mono hg (put _ _ h.global n),
      fun n => rel_mono hg (h.voice n), h.sent, ?_⟩
    exact fun k id i d mix hk hd hmix σ ρ hs hm =>
      h.received k id i d mix hk hd hmix σ ρ (hs.mono hg) hm
  | voice =>
    refine ⟨h.objects, h.operators, fun n => rel_mono hg (h.global n),
      fun n => rel_mono hg (put _ _ h.voice n), h.sent, ?_⟩
    exact fun k id i d mix hk hd hmix σ ρ hs hm =>
      h.received k id i d mix hk hd hmix σ ρ (hs.mono hg) hm

/-- A new object that nothing is sent to yet. -/
theorem Tells.add (h : Tells rate seed s t) (cls : UnitClass) (scope : Scope) {origin : Origin}
    (ho : origin ≠ .operator) (span : Option Span) :
    Tells rate seed (s.add (.fresh cls scope origin span)) (t.add cls) := by
  have hg := grown_add s (.fresh cls scope origin span)
  refine ⟨?_, ?_, fun n => rel_mono hg (h.global n), fun n => rel_mono hg (h.voice n), ?_, ?_⟩
  · simp only [State.shapes_add, List.filter_append, List.map_append, ← h.objects, Story.add]
    simp [Draft.shape, Draft.fresh, ho]
  · intro x hx hop
    rw [State.shapes_add] at hx
    rcases List.mem_append.mp hx with hx | hx
    · exact h.operators x hx hop
    · rw [List.mem_singleton.mp hx] at hop
      exact absurd hop ho
  · intro r hr
    rw [Story.add, List.length_append]
    exact Nat.lt_succ_of_lt (h.sent r hr)
  · intro k id i d mix hk hd hmix σ ρ hs hm
    have hnew := getElem?_places_length s (d := .fresh cls scope origin span) ho
    rcases Nat.lt_trichotomy k (places s.shapes).length with hlt | heq | hgt
    · have hk' : (places s.shapes)[k]? = some id := by
        rw [State.shapes_add, places_append, List.getElem?_append_left hlt] at hk
        exact hk
      have hid : id < s.objects.length := by
        obtain ⟨x, hx, _⟩ := mem_places.mp (List.mem_of_getElem? hk')
        rw [← s.length_shapes]
        exact (List.getElem?_eq_some_iff.mp hx).1
      rw [State.add, List.getElem?_append_left hid] at hd
      exact h.received k id i d mix hk' hd hmix σ ρ (hs.mono hg) (hm.mono hg.shapes)
    · rw [heq, hnew] at hk
      cases hk
      rw [State.add, List.getElem?_concat_length] at hd
      cases hd
      have hnil : mix = [] := List.eq_of_mem_replicate (List.mem_of_getElem? hmix)
      have hnone : t.routes.filter (fun r => r.object = k ∧ r.socket = i) = [] := by
        refine List.filter_eq_nil_iff.mpr fun r hr hto => ?_
        have hobject := (of_decide_eq_true hto).1
        have hlt := h.sent r hr
        rw [h.length_objects, hobject, heq] at hlt
        exact Nat.lt_irrefl _ hlt
      rw [hnil, Story.received, Story.add, hnone]
      rfl
    · have hlen := (List.getElem?_eq_some_iff.mp hk).1
      rw [State.shapes_add, places_append, List.length_append] at hlen
      split at hlen <;> simp at hlen <;> omega

theorem received_send (t : Story α) (k i k' i' : Nat) (f : Signals α → α) (ρ : Signals α) :
    (t.send k i f).received k' i' ρ =
      t.received k' i' ρ + if k = k' ∧ i = i' then f ρ else 0 := by
  rw [Story.received, Story.send, List.filter_append, List.map_append, List.sum_append,
    ← Story.received]
  by_cases hto : k = k' ∧ i = i' <;> simp [hto]

/-- A signal goes to the socket of an object. -/
theorem Tells.send (h : Tells rate seed s t) {v : Value α} {f : Signals α → α}
    (hc : Carries rate seed s v f) {k id : Nat} (hk : (places s.shapes)[k]? = some id) (i : Nat) :
    Tells rate seed (s.mix id i (gather v).1) (t.send k i f) := by
  have hp : Placed s.shapes id := mem_places.mp (List.mem_of_getElem? hk)
  have hg := grown_mix hp i (gather v).1
  have hshapes := s.shapes_mix id i (gather v).1
  refine ⟨hshapes ▸ h.objects, hshapes ▸ h.operators, fun n => rel_mono hg (h.global n),
    fun n => rel_mono hg (h.voice n), ?_, ?_⟩
  · intro r hr
    rcases List.mem_append.mp hr with hr | hr
    · exact h.sent r hr
    · rw [List.mem_singleton.mp hr]
      show k < t.objects.length
      rw [h.length_objects]
      exact (List.getElem?_eq_some_iff.mp hk).1
  · intro k' id' i' d mix hk' hd hmix σ ρ hs hm
    rw [hshapes] at hk'
    have hs' := hs.mono hg
    have hm' := hm.mono hg.shapes
    rw [received_send]
    rw [State.mix, List.getElem?_modify] at hd
    obtain ⟨old, hold, hd⟩ := Option.map_eq_some_iff.mp hd
    by_cases hid : id = id'
    · subst hid
      have hkk : k = k' := by
        have hlt := (List.getElem?_eq_some_iff.mp hk).1
        exact (List.getElem?_inj hlt (nodup_places s.shapes)).mp (hk.trans hk'.symm)
      subst hkk
      rw [if_pos rfl] at hd
      subst hd
      rw [List.getElem?_modify] at hmix
      obtain ⟨before, hbefore, rfl⟩ := Option.map_eq_some_iff.mp hmix
      have hreceived := h.received k id i' old before hk hold hbefore σ ρ hs' hm'
      by_cases hi : i = i'
      · rw [if_pos hi, if_pos ⟨rfl, hi⟩, total_append, hreceived, hc σ ρ hs' hm']
      · rw [if_neg hi, if_neg fun hto => hi hto.2, add_zero]
        exact hreceived
    · rw [if_neg hid] at hd
      subst hd
      have hkk : ¬(k = k' ∧ i = i') := by
        rintro ⟨rfl, _⟩
        exact hid (Option.some.inj (hk.symm.trans hk'))
      rw [if_neg hkk, add_zero]
      exact h.received k' id' i' _ mix hk' hold hmix σ ρ hs' hm'

end Tells
end Meaning
end Patchbay
