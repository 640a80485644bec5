import Patchbay.Proofs.Meaning.Relation

/-! Operators in the text become objects whose units compute them. -/
namespace Patchbay.Meaning
open Building
variable {α : Type}

def inverterClass : UnitClass :=
  ⟨Builtin.inverter, [⟨["input"]⟩], [⟨["output"]⟩], ["input"], some "Utility"⟩

def attenuatorClass : UnitClass :=
  ⟨Builtin.attenuator, [⟨["amount", "amt", "a", "gain", "g"]⟩, ⟨["input"]⟩], [⟨["output"]⟩],
    ["amount", "input"], some "Utility"⟩

def mappingUnitClass (polarity : Polarity) : UnitClass :=
  ⟨mappingClass polarity, [⟨["source"]⟩, ⟨["from"]⟩, ⟨["to"]⟩], [⟨["output"]⟩],
    ["source", "from", "to"], some "Utility"⟩

theorem resolve?_inverter :
    Library.standard.catalog.resolve? Builtin.inverter = some inverterClass := by decide

theorem resolve?_attenuator :
    Library.standard.catalog.resolve? Builtin.attenuator = some attenuatorClass := by decide

theorem resolve?_mapping (polarity : Polarity) :
    Library.standard.catalog.resolve? (mappingClass polarity) = some (mappingUnitClass polarity) := by
  cases polarity <;> decide

section Units
variable [Arithmetic α] (rate : α) (seed : UInt64)

theorem create?_inverter :
    Library.standard.create? Builtin.inverter rate seed = some .inverter := by
  have hk : Library.standard.kind? Builtin.inverter = some .inverter := by decide
  rw [Library.create?, hk]
  rfl

theorem create?_attenuator :
    Library.standard.create? Builtin.attenuator rate seed = some .attenuator := by
  have hk : Library.standard.kind? Builtin.attenuator = some .attenuator := by decide
  rw [Library.create?, hk]
  rfl

theorem create?_mapping (polarity : Polarity) :
    Library.standard.create? (mappingClass polarity) rate seed = some (.mapping polarity) := by
  have hk : Library.standard.kind? (mappingClass polarity) = some (.mapping polarity) := by
    cases polarity <;> decide
  rw [Library.create?, hk]
  rfl

end Units

section Work
variable {β : Type} {s : State α} {failed : Located Fault → State α → Prop}

theorem leads_plug_readable {post : Unit → State α → Prop} {target : Ref} {socket : String}
    (index : Nat) (hi : target.cls.socketIndex? socket = some index) {v : Value α}
    (hv : ∀ a ∈ v, Readable a) :
    Leads (plug target socket v) s post failed ↔ post () (s.mix target.id index (gather v).1) := by
  have hg : gather v = ((gather v).1, none) := Prod.ext rfl (gather_readable hv)
  rw [leads_plug, hi]
  dsimp only
  rw [leads_mixInto, hg]

theorem leads_operatorObject {catalog : Catalog} {post : Ref → State α → Prop} (scope : Scope)
    {className : String} {c : UnitClass} (hc : catalog.resolve? className = some c) (span : Span) :
    Leads (operatorObject catalog scope className span) s post failed ↔
      post ⟨s.objects.length, c⟩ (s.add (.fresh c scope .operator (some span))) := by
  rw [operatorObject, leads_bind, leads_classUnder, hc]
  exact leads_addObject c scope .operator (some span)

/-- The newest object receives more. -/
theorem mix_add (s : State α) (d : Draft α) (i : Nat) (more : List (Contribution α)) :
    (s.add d).mix s.objects.length i more =
      s.add { d with mixes := d.mixes.modify i (· ++ more) } := by
  have hlast : ∀ (l : List (Draft α)) (f : Draft α → Draft α),
      (l ++ [d]).modify l.length f = l ++ [f d] := by
    intro l f
    induction l with
    | nil => rfl
    | cons e rest ih => simp [ih]
  rw [State.mix, State.add, State.add, hlast]

end Work

variable [ExactArithmetic α] {rate : α} {seed : UInt64} {s : State α} {t : Story α}

theorem Tells.operator (h : Tells rate seed s t) {d : Draft α} (ho : d.origin = .operator)
    (hc : d.cls.name ∈ operatorClasses) : Tells rate seed (s.add d) t := by
  have hplaces : places (s.add d).shapes = places s.shapes := by
    rw [State.shapes_add, places_append, if_pos (show d.shape.origin = .operator from ho),
      List.append_nil]
  refine h.grow (grown_add s d) hplaces ?_ (fun x hx hop => ?_) (fun id hid => ?_) rfl rfl
  · rw [State.shapes_add, List.filter_append]
    simp [Draft.shape, ho]
  · rw [State.shapes_add] at hx
    rcases List.mem_append.mp hx with hx | hx
    · exact h.operators x hx hop
    · rw [List.mem_singleton.mp hx]
      exact hc
  · obtain ⟨x, hx, _⟩ := mem_places.mp hid
    have hlt := (List.getElem?_eq_some_iff.mp hx).1
    rw [s.length_shapes] at hlt
    exact List.getElem?_append_left hlt

/-- The object of an operator stands for what its unit computes. -/
theorem means_operator {d : Draft α} (ho : d.origin = .operator)
    (hout : d.cls.outputs = [⟨["output"]⟩]) {u : SoundUnit α}
    (hu : Library.standard.create? d.cls.name rate seed = some u) {f : Signals α → α}
    (hf : ∀ σ ρ, Settled rate seed σ s → Matches σ ρ s.shapes →
      (u.process (d.mixes.map (total σ))).2 = [f ρ]) (place : Option Span) :
    Means rate seed (s.add d) [.object ⟨s.objects.length, d.cls⟩ place] (.signal f) := by
  have hname : d.cls.canonicalOutput? "output" = some "output" := by
    rw [UnitClass.canonicalOutput?, hout]
    rfl
  have hnew : (s.add d).objects[s.objects.length]? = some d := List.getElem?_concat_length
  refine .signal (List.cons_ne_nil _ _) (fun a ha => ?_) (fun ref span hv => ?_) fun σ ρ hs hm => ?_
  · rw [List.mem_singleton.mp ha, Readable, contributions, hname]
    exact ⟨_, rfl⟩
  · cases hv
    refine ⟨⟨d.shape, ?_, ho⟩, ?_⟩
    · rw [State.shapes, List.getElem?_map, hnew]
      rfl
    · rw [UnitClass.isStereoSource, UnitClass.hasOutput, UnitClass.hasOutput, hout]
      decide
  · have hg := grown_add s d
    have hsettled := hs s.objects.length d u hnew ho hu
    rw [hf σ ρ (hs.mono hg) (hm.mono hg.shapes), hout] at hsettled
    have hvalue : σ s.objects.length "output" = f ρ := (List.cons.inj hsettled).1
    simp [gather, contributions, hname, total, Contribution.value, hvalue]

section Operations
variable {scope : Scope} {v w x : Value α} {f g k : Signals α → α}

/-- What an operation leads to: nothing new was said, and its value means the signal. -/
abbrev Yields (rate : α) (seed : UInt64) (s : State α) (t : Story α) (f : Signals α → α) :
    Value α → State α → Prop := fun v s' =>
  Tells rate seed s' t ∧ Grown s s' ∧ Means rate seed s' v (.signal f)

theorem leads_negate (h : Tells rate seed s t) (hv : ∀ a ∈ v, Readable a)
    (hf : Carries rate seed s v f) (span : Span) :
    Leads (negate Library.standard.catalog scope v span) s
      (Yields rate seed s t fun ρ => -f ρ) fun _ _ => True := by
  rw [negate.eq_def]
  split
  · next y place =>
    refine ⟨h, .refl s, .signal (List.cons_ne_nil _ _) (fun a ha => ?_) (fun ref place hv => ?_)
      fun σ ρ hs hm => ?_⟩
    · rw [List.mem_singleton.mp ha]
      exact ⟨_, rfl⟩
    · cases hv
    · have hy := hf σ ρ hs hm
      simp only [gather, contributions, total, Contribution.value, List.append_nil, List.map_cons,
        List.map_nil, List.sum_singleton] at hy ⊢
      rw [hy]
  · rw [leads_bind, leads_operatorObject scope resolve?_inverter, leads_bind,
      leads_plug_readable 0 rfl hv, mix_add]
    have hc : inverterClass.name ∈ operatorClasses := by decide
    refine ⟨h.operator rfl hc, grown_add s _, ?_⟩
    refine means_operator rfl rfl (create?_inverter rate seed) (fun σ ρ hs hm => ?_) _
    show [-total σ ([] ++ (gather v).1)] = [-f ρ]
    rw [List.nil_append, hf σ ρ hs hm]

theorem leads_scale (h : Tells rate seed s t) (hv : ∀ a ∈ v, Readable a)
    (hw : ∀ a ∈ w, Readable a) (hf : Carries rate seed s v f) (hg : Carries rate seed s w g)
    (span : Span) :
    Leads (scale Library.standard.catalog scope v w span) s
      (Yields rate seed s t fun ρ => f ρ * g ρ) fun _ _ => True := by
  rw [scale.eq_def]
  split
  · next y _ z _ =>
    refine ⟨h, .refl s, .signal (List.cons_ne_nil _ _) (fun a ha => ?_) (fun ref place hv => ?_)
      fun σ ρ hs hm => ?_⟩
    · rw [List.mem_singleton.mp ha]
      exact ⟨_, rfl⟩
    · cases hv
    · have hy := hf σ ρ hs hm
      have hz := hg σ ρ hs hm
      simp only [gather, contributions, total, Contribution.value, List.append_nil, List.map_cons,
        List.map_nil, List.sum_singleton] at hy hz ⊢
      rw [hy, hz]
  · rw [leads_bind, leads_operatorObject scope resolve?_attenuator, leads_bind,
      leads_plug_readable 1 rfl hv, mix_add, leads_bind,
      leads_plug_readable 0 rfl hw, mix_add]
    have hc : attenuatorClass.name ∈ operatorClasses := by decide
    refine ⟨h.operator rfl hc, grown_add s _, ?_⟩
    refine means_operator rfl rfl (create?_attenuator rate seed) (fun σ ρ hs hm => ?_) _
    show [total σ ([] ++ (gather v).1) * total σ ([] ++ (gather w).1)] = [f ρ * g ρ]
    rw [List.nil_append, List.nil_append, hf σ ρ hs hm, hg σ ρ hs hm]

theorem leads_mapping (h : Tells rate seed s t) (hv : ∀ a ∈ v, Readable a)
    (hw : ∀ a ∈ w, Readable a) (hx : ∀ a ∈ x, Readable a) (hf : Carries rate seed s v f)
    (hg : Carries rate seed s w g) (hk : Carries rate seed s x k) (polarity : Polarity)
    (span : Span) :
    Leads (do
      let object ← operatorObject Library.standard.catalog scope (mappingClass polarity) span
      plug object "source" v
      plug object "from" w
      plug object "to" x
      return [.object object (some span)]) s
      (Yields rate seed s t fun ρ => rescale polarity (f ρ) (g ρ) (k ρ)) fun _ _ => True := by
  rw [leads_bind, leads_operatorObject scope (resolve?_mapping polarity), leads_bind,
    leads_plug_readable 0 rfl hv, mix_add, leads_bind,
    leads_plug_readable 1 rfl hw, mix_add, leads_bind,
    leads_plug_readable 2 rfl hx, mix_add]
  have hc : mappingClass polarity ∈ operatorClasses := by cases polarity <;> decide
  refine ⟨h.operator rfl hc, grown_add s _, ?_⟩
  refine means_operator rfl rfl (create?_mapping rate seed polarity) (fun σ ρ hs hm => ?_) _
  show [SoundUnit.rescale polarity (total σ ([] ++ (gather v).1)) (total σ ([] ++ (gather w).1))
    (total σ ([] ++ (gather x).1))] = [rescale polarity (f ρ) (g ρ) (k ρ)]
  rw [List.nil_append, List.nil_append, List.nil_append, hf σ ρ hs hm, hg σ ρ hs hm, hk σ ρ hs hm]
  cases polarity with
  | unipolar => rfl
  | bipolar =>
    rw [SoundUnit.rescale, rescale, Arithmetic.natural_cast, Arithmetic.natural_cast,
      Nat.cast_one, Nat.cast_two]

end Operations
end Patchbay.Meaning
