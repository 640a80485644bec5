import Mathlib.Data.List.Infix
import Patchbay.Proofs.Building.Work
import Patchbay.Proofs.Catalog.Regular
import Patchbay.Proofs.Program.Induction

/-! Valid states: all that is read exists. Building any program, sound or not, keeps states valid
and changes no object but for what its sockets receive. -/
namespace Patchbay.Building
variable {α β γ : Type}

/-- What stays of an object while its sockets fill up. -/
structure Shape where
  cls : UnitClass
  perVoice : Bool
  span : Option Span
  origin : Origin
  deriving DecidableEq

def Draft.shape (d : Draft α) : Shape := ⟨d.cls, d.perVoice, d.span, d.origin⟩

namespace State

def shapes (s : State α) : List Shape := s.objects.map Draft.shape

def classes (s : State α) : List UnitClass := s.shapes.map Shape.cls

@[simp] theorem shapes_add (s : State α) (d : Draft α) : (s.add d).shapes = s.shapes ++ [d.shape] := by
  simp [shapes, add]

@[simp] theorem shapes_mix (s : State α) (object socket : Nat) (more : List (Contribution α)) :
    (s.mix object socket more).shapes = s.shapes := by
  rw [shapes, mix, shapes]
  dsimp only
  generalize s.objects = objects
  induction objects generalizing object with
  | nil => simp
  | cons d rest ih => cases object <;> simp_all [Draft.shape]

@[simp] theorem shapes_bind (s : State α) (scope : Scope) (name : String) (value : Value α) :
    (s.bind scope name value).shapes = s.shapes := by
  cases scope <;> rfl

theorem length_shapes (s : State α) : s.shapes.length = s.objects.length := List.length_map _

theorem classes_getElem? (s : State α) (id : Nat) :
    s.classes[id]? = s.objects[id]?.map Draft.cls := by
  simp [classes, shapes, Function.comp_def, Draft.shape]

end State

/-- The classes have an object of that number with an output of that proper name. -/
def HasOutput (classes : List UnitClass) (id : Nat) (output : String) : Prop :=
  ∃ c, classes[id]? = some c ∧ output ∈ c.outputs.map Jack.canonical

/-- Only outputs that exist are read. -/
def ValidContribution (classes : List UnitClass) : Contribution α → Prop
  | .output id name _ => HasOutput classes id name
  | .constant _ _ => True

def ValidAtom (classes : List UnitClass) : Atom α → Prop
  | .object ref _ => classes[ref.id]? = some ref.cls
  | .output id name _ => HasOutput classes id name
  | .socket id index _ => ∃ c, classes[id]? = some c ∧ index < c.sockets.length
  | .constant _ _ => True

def ValidValue (classes : List UnitClass) (v : Value α) : Prop := ∀ a ∈ v, ValidAtom classes a

/-- A state in which all objects are of classes of the catalog and all that is read exists. -/
structure Valid (catalog : Catalog) (s : State α) : Prop where
  classes : ∀ c ∈ s.classes, catalog.resolve? c.name = some c
  sockets : ∀ d ∈ s.objects, d.mixes.length = d.cls.sockets.length
  mixes : ∀ d ∈ s.objects, ∀ mix ∈ d.mixes, ∀ c ∈ mix, ValidContribution s.classes c
  global : ∀ name v, s.global.get? name = some v → ValidValue s.classes v
  voice : ∀ name v, s.voice.get? name = some v → ValidValue s.classes v
  parameters : ∀ p ∈ s.parameters, p.object < s.objects.length
  warnings : ∀ w ∈ s.warnings, w.fault ≠ .unconnected

/-- A valid state with all objects of an earlier one, and perhaps more. -/
structure Extends (catalog : Catalog) (s s' : State α) : Prop where
  valid : Valid catalog s'
  shapes : s.shapes <+: s'.shapes

section Growth
variable {catalog : Catalog} {s s' s'' : State α} {cs cs' : List UnitClass}

theorem Extends.refl (h : Valid catalog s) : Extends catalog s s := ⟨h, List.prefix_rfl⟩

theorem Extends.trans (h : Extends catalog s s') (h' : Extends catalog s' s'') :
    Extends catalog s s'' := ⟨h'.valid, h.shapes.trans h'.shapes⟩

theorem Extends.classes (h : Extends catalog s s') : s.classes <+: s'.classes :=
  h.shapes.map Shape.cls

theorem getElem?_mono {l l' : List β} (h : l <+: l') {i : Nat} {b : β}
    (hb : l[i]? = some b) : l'[i]? = some b := by
  obtain ⟨more, rfl⟩ := h
  rwa [List.getElem?_append_left (List.getElem?_eq_some_iff.mp hb).1]

theorem HasOutput.mono (h : cs <+: cs') {id : Nat} {name : String} (ho : HasOutput cs id name) :
    HasOutput cs' id name := by
  obtain ⟨c, hc, hm⟩ := ho
  exact ⟨c, getElem?_mono h hc, hm⟩

theorem ValidContribution.mono (h : cs <+: cs') {c : Contribution α}
    (hc : ValidContribution cs c) : ValidContribution cs' c := by
  cases c with
  | output id name span => exact HasOutput.mono h hc
  | constant value span => trivial

theorem ValidAtom.mono (h : cs <+: cs') {a : Atom α} (ha : ValidAtom cs a) : ValidAtom cs' a := by
  cases a with
  | object ref span => exact getElem?_mono h ha
  | output id name span => exact HasOutput.mono h ha
  | socket id index span =>
    obtain ⟨c, hc, hi⟩ := ha
    exact ⟨c, getElem?_mono h hc, hi⟩
  | constant value span => trivial

theorem ValidValue.mono (h : cs <+: cs') {v : Value α} (hv : ValidValue cs v) : ValidValue cs' v :=
  fun a ha => (hv a ha).mono h

theorem ValidValue.singleton {a : Atom α} (ha : ValidAtom cs a) : ValidValue cs [a] :=
  fun _ hb => List.mem_singleton.mp hb ▸ ha

end Growth

section Steps
variable {catalog : Catalog} {s : State α}

theorem Valid.find? (h : Valid catalog s) {scope : Scope} {name : String} {v : Value α}
    (hv : s.find? scope name = some v) : ValidValue s.classes v := by
  cases scope with
  | global => exact h.global name v hv
  | voice =>
    rcases Option.or_eq_some_iff.mp hv with hv | ⟨_, hv⟩
    · exact h.voice name v hv
    · exact h.global name v hv

theorem Valid.add (h : Valid catalog s) {cls : UnitClass} (hc : catalog.resolve? cls.name = some cls)
    (scope : Scope) (origin : Origin) (span : Option Span) :
    Extends catalog s (s.add (.fresh cls scope origin span)) := by
  have hp : s.shapes <+: (s.add (.fresh cls scope origin span)).shapes := by
    rw [State.shapes_add]
    exact List.prefix_append _ _
  have hcs : s.classes <+: (s.add (.fresh cls scope origin span)).classes := hp.map Shape.cls
  refine ⟨⟨fun c hm => ?_, fun d hd => ?_, fun d hd => ?_, fun n v hv => (h.global n v hv).mono hcs,
    fun n v hv => (h.voice n v hv).mono hcs, fun p hm => ?_, h.warnings⟩, hp⟩
  · rw [State.classes, State.shapes_add, List.map_append] at hm
    rcases List.mem_append.mp hm with hm | hm
    · exact h.classes c hm
    · rw [List.mem_singleton.mp hm]
      exact hc
  · rcases List.mem_append.mp hd with hd | hd
    · exact h.sockets d hd
    · rw [List.mem_singleton.mp hd]
      exact List.length_replicate
  · rcases List.mem_append.mp hd with hd | hd
    · exact fun m hm c hc => (h.mixes d hd m hm c hc).mono hcs
    · rw [List.mem_singleton.mp hd]
      intro m hm c hc
      rw [List.eq_of_mem_replicate hm] at hc
      exact absurd hc List.not_mem_nil
  · exact Nat.lt_of_lt_of_le (h.parameters p hm) (by simp [State.add])

/-- A new object is there. -/
theorem validAtom_added (cls : UnitClass) (scope : Scope) (origin : Origin) (span : Option Span)
    (place : Option Span) :
    ValidAtom (α := α) (s.add (.fresh cls scope origin span)).classes
      (.object ⟨s.objects.length, cls⟩ place) := by
  simp [ValidAtom, State.classes_getElem?, State.add, Draft.fresh]

theorem mem_modify {l : List β} {i : Nat} {f : β → β} {b : β} (h : b ∈ l.modify i f) :
    b ∈ l ∨ ∃ c ∈ l, b = f c := by
  obtain ⟨j, hj⟩ := List.getElem?_of_mem h
  rw [List.getElem?_modify] at hj
  obtain ⟨c, hc, rfl⟩ := Option.map_eq_some_iff.mp hj
  have hm := List.mem_of_getElem? hc
  split
  · exact .inr ⟨c, hm, rfl⟩
  · exact .inl hm

theorem Valid.mix (h : Valid catalog s) {more : List (Contribution α)}
    (hm : ∀ c ∈ more, ValidContribution s.classes c) (object socket : Nat) :
    Extends catalog s (s.mix object socket more) := by
  have hs := s.shapes_mix object socket more
  have hc : (s.mix object socket more).classes = s.classes := congrArg (List.map Shape.cls) hs
  have hl : (s.mix object socket more).objects.length = s.objects.length := List.length_modify _ _ _
  refine ⟨⟨?_, fun d hd => ?_, fun d hd mix hmix c hmem => ?_, ?_, ?_, ?_, h.warnings⟩, ?_⟩
  · exact hc ▸ h.classes
  · rcases mem_modify hd with hd | ⟨e, he, rfl⟩
    · exact h.sockets d hd
    · exact (List.length_modify _ _ _).trans (h.sockets e he)
  · rw [hc]
    rcases mem_modify hd with hd | ⟨e, he, rfl⟩
    · exact h.mixes d hd mix hmix c hmem
    · rcases mem_modify hmix with hmix | ⟨old, hold, rfl⟩
      · exact h.mixes e he mix hmix c hmem
      · rcases List.mem_append.mp hmem with hmem | hmem
        · exact h.mixes e he old hold c hmem
        · exact hm c hmem
  · exact hc ▸ h.global
  · exact hc ▸ h.voice
  · exact fun p hp => Nat.lt_of_lt_of_eq (h.parameters p hp) hl.symm
  · rw [hs]

theorem Valid.bind (h : Valid catalog s) {v : Value α} (hv : ValidValue s.classes v) (scope : Scope)
    (name : String) : Extends catalog s (s.bind scope name v) := by
  have put : ∀ t : Table (Value α), (∀ n w, t.get? n = some w → ValidValue s.classes w) →
      ∀ n w, (t.put name v).get? n = some w → ValidValue s.classes w := by
    intro t ht n w hw
    rw [Table.get?_put] at hw
    split at hw
    · exact Option.some.inj hw ▸ hv
    · exact ht n w hw
  cases scope with
  | global =>
    exact ⟨⟨h.classes, h.sockets, h.mixes, put _ h.global, h.voice, h.parameters, h.warnings⟩,
      List.prefix_rfl⟩
  | voice =>
    exact ⟨⟨h.classes, h.sockets, h.mixes, h.global, put _ h.voice, h.parameters, h.warnings⟩,
      List.prefix_rfl⟩

/-- The classes of a valid state over a regular catalog are regular. -/
theorem Valid.regular (h : Valid catalog s) (hk : catalog.Regular) {id : Nat} {c : UnitClass}
    (hc : s.classes[id]? = some c) : c.Regular :=
  (hk _ _ (h.classes c (List.mem_of_getElem? hc))).1

end Steps
end Patchbay.Building
