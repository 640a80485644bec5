import Mathlib.Algebra.GroupWithZero.Nat
import Patchbay.Proofs.Building.Changes
import Patchbay.Proofs.Program.Parts

/-! Building keeps to rules. A discipline says which states there may be, what values may consist of
and what may be done to a state, with one law for each step that building takes. One induction over
expressions shows that building keeps to all disciplines. -/
namespace Patchbay.Building
variable {α β γ : Type}

/-- What there may be in an expression, and which faults may be told of it. -/
structure Allowance where
  permits : Expr → Prop
  /-- The names that may be bound. -/
  names : Ident → Prop
  /-- The places that may be given to objects and to parts of values. -/
  place : Option Span → Prop
  fault : Located Fault → Prop
  part : ∀ {e part : Expr}, permits e → part ∈ e.parts → permits part
  names_of : ∀ {c : Construction Expr} {name : Ident}, permits (.construction c) →
    c.name = some name → names name
  place_of : ∀ {e : Expr}, permits e → place (some e.span)
  place_none : place none
  place_join : ∀ {a b : Span}, place (some a) → place (some b) → place (some (a.join b))
  fault_of_place : ∀ (kind : Fault) {span : Option Span}, place span → fault ⟨kind, span⟩
  fault_of_name : ∀ (kind : Fault) {name : Ident}, names name → fault ⟨kind, some name.span⟩
  fault_of_ident : ∀ (kind : Fault) {e : Expr} {ident : Ident}, permits e → ident ∈ e.idents →
    fault ⟨kind, some ident.span⟩

namespace Allowance

/-- Everything is allowed. -/
def all : Allowance where
  permits := fun _ => True
  names := fun _ => True
  place := fun _ => True
  fault := fun _ => True
  part := fun _ _ => trivial
  names_of := fun _ _ => trivial
  place_of := fun _ => trivial
  place_none := trivial
  place_join := fun _ _ => trivial
  fault_of_place := fun _ _ _ => trivial
  fault_of_name := fun _ _ _ => trivial
  fault_of_ident := fun _ _ _ _ _ => trivial

/-- What there may be in a statement. -/
def allows (A : Allowance) : Statement → Prop
  | .error span => A.fault ⟨.malformedStatement, some span⟩
  | .definition name value _ => A.names name ∧ A.permits value
  | .construction c => A.permits (.construction c)
  | .chain source steps target _ => A.permits source ∧ ∀ e ∈ steps ++ [target], A.permits e

theorem allows_all (statement : Statement) : all.allows statement := by
  cases statement with
  | error span => trivial
  | definition name value span => exact ⟨trivial, trivial⟩
  | construction c => trivial
  | chain source steps target span => exact ⟨trivial, fun _ _ => trivial⟩

variable (A : Allowance)

theorem place_spanOf {v : Value α} (h : ∀ a ∈ v, A.place a.span) : A.place (spanOf v) := by
  have hspans : ∀ span ∈ v.filterMap Atom.span, A.place (some span) := by
    intro span hspan
    obtain ⟨a, ha, hplace⟩ := List.mem_filterMap.mp hspan
    exact hplace ▸ h a ha
  rw [spanOf]
  split
  · exact A.place_none
  · next first rest hv =>
    rw [hv] at hspans
    obtain ⟨hfirst, hrest⟩ := List.forall_mem_cons.mp hspans
    clear hspans hv
    induction rest generalizing first with
    | nil => exact hfirst
    | cons span rest ih =>
      obtain ⟨hspan, hrest⟩ := List.forall_mem_cons.mp hrest
      exact ih (first.join span) (A.place_join hfirst hspan) hrest

end Allowance

/-- A run, told by what the work leads to. -/
theorem run_eq {w : Work α β} {t t' : State α} {result : Except (Located Fault) β}
    (h : Leads w t (fun value u => result = .ok value ∧ u = t')
      fun fault u => result = .error fault ∧ u = t') : w.run t = (result, t') := by
  rw [Leads] at h
  split at h
  · next he => rw [he, h.1, h.2]
  · next he => rw [he, h.1, h.2]

theorem leads_of_run {w : Work α β} {t t' : State α} {result : Except (Located Fault) β}
    (h : w.run t = (result, t')) : Leads w t (fun value u => result = .ok value ∧ u = t')
      fun fault u => result = .error fault ∧ u = t' := by
  rw [Leads, h]
  cases result <;> exact ⟨rfl, rfl⟩

/-- The object that a part of a value mentions. -/
def Atom.object? : Atom α → Option Nat
  | .object ref _ => some ref.id
  | .output id _ _ | .socket id _ _ => some id
  | .constant _ _ => none

/-- What is added to a socket, as a part of a value. -/
def atomOf : Contribution α → Atom α
  | .output id name span => .output id name span
  | .constant value span => .constant value span

/-- What building may do, and to which states. It may add objects, fill their sockets and bind names,
and knows of the parts of values what it may know. -/
structure Discipline (α : Type) [Arithmetic α] (catalog : Catalog) (scope : Scope)
    extends Allowance where
  holds : State α → Prop
  does : State α → List (Change α) → Prop
  /-- What a part of a value may be. -/
  atom : State α → Atom α → Prop
  /-- The objects that have been added for an expression. -/
  object : State α → Ref → Prop
  /-- The objects whose sockets may be filled. -/
  fills : State α → Nat → Prop
  does_nil : ∀ {s}, holds s → does s []
  does_append : ∀ {s first second}, does s first → does (s.changeAll first) second →
    does s (first ++ second)
  holds_later : ∀ {s changes}, holds s → does s changes → holds (s.changeAll changes)
  atom_later : ∀ {s changes a}, does s changes → atom s a → atom (s.changeAll changes) a
  object_later : ∀ {s changes ref}, does s changes → object s ref →
    object (s.changeAll changes) ref
  place_atom : ∀ {s a}, atom s a → place a.span
  atom_find : ∀ {s name v}, holds s → s.find? scope name = some v → ∀ a ∈ v, atom s a
  atom_literal : ∀ {value unit span} (s : State α), permits (.number value unit span) →
    atom s (.constant ((Quantity.ofLiteral? (Arithmetic.ofFloat value) unit).getD
      (Arithmetic.ofFloat value)) (some span))
  atom_negated : ∀ {s x span span'}, atom s (.constant x span) → place span' →
    atom s (.constant (-x) span')
  atom_scaled : ∀ {s x y span span' span''}, atom s (.constant x span) → atom s (.constant y span') →
    place span'' → atom s (.constant (x * y) span'')
  atom_object : ∀ {s ref span}, object s ref → place span → atom s (.object ref span)
  atom_output : ∀ {s ref span name output span'}, holds s → atom s (.object ref span) →
    ref.cls.canonicalOutput? name = some output → place span' → atom s (.output ref.id output span')
  atom_side : ∀ {s ref span side}, holds s → atom s (.object ref span) →
    ref.cls.isStereoSource = true → side = "left" ∨ side = "right" →
      atom s (.output ref.id side span)
  atom_socket : ∀ {s ref span name index span'}, holds s → atom s (.object ref span) →
    ref.cls.socketIndex? name = some index → place span' → atom s (.socket ref.id index span')
  does_add : ∀ {s name cls span} (origin : Origin), holds s → catalog.resolve? name = some cls →
    place span → does s [.add (.fresh cls scope origin span)] ∧
      object (s.add (.fresh cls scope origin span)) ⟨s.objects.length, cls⟩
  fills_object : ∀ {s ref}, object s ref → fills s ref.id
  does_mix : ∀ {s id socket more}, holds s → fills s id → (∀ c ∈ more, atom s (atomOf c)) →
    does s [.mix id socket more]
  does_bind : ∀ {s name v}, holds s → names name → name.isDiscard = false → (∀ a ∈ v, atom s a) →
    (scope = .voice → parameterFor? name.name v = none) → does s (bindings scope name.name v)
  does_warn : ∀ {s span} (unit : String), holds s → place span →
    does s [.warning ⟨.unknownUnit unit, span⟩]

namespace Discipline
variable [Arithmetic α] {catalog : Catalog} {scope : Scope} (D : Discipline α catalog scope)

/-- Values may be sent to all that they name. -/
def Routes : Prop := ∀ {s : State α} {a : Atom α} {id : Nat}, D.atom s a → a.object? = some id →
  D.fills s id

def value (s : State α) (v : Value α) : Prop := ∀ a ∈ v, D.atom s a

/-- What is allowed leads from one state to the other. -/
def Later (s s' : State α) : Prop := ∃ changes, D.does s changes ∧ s' = s.changeAll changes

/-- From `s` the work makes allowed changes, and the same ones from all states alike, with the same
result. It adds at most so many objects. A value that it ends with is as in `post`, and the names are
bound then. -/
def Acts (names : List String) (size : Nat) (w : Work α β) (s : State α)
    (post : β → State α → Prop) : Prop :=
  D.holds s → ∃ (result : Except (Located Fault) β) (changes : List (Change α)),
    (∀ t, s.Alike t → w.run t = (result, t.changeAll changes)) ∧ D.does s changes ∧
      changes.countP Change.isAdd ≤ size ∧
      match result with
      | .ok value => boundNames changes = kept names ∧ post value (s.changeAll changes)
      | .error fault => D.fault fault

variable {D} {s : State α} {names names' : List String} {size size' : Nat}

theorem Later.value {s' : State α} {v : Value α} (h : D.Later s s') (hv : D.value s v) :
    D.value s' v := by
  obtain ⟨changes, hdoes, rfl⟩ := h
  exact fun a ha => D.atom_later hdoes (hv a ha)

theorem Later.object {s' : State α} {ref : Ref} (h : D.Later s s') (href : D.object s ref) :
    D.object s' ref := by
  obtain ⟨changes, hdoes, rfl⟩ := h
  exact D.object_later hdoes href

namespace Acts
variable {w : Work α β} {post : β → State α → Prop}

/-- What comes second acts on the state that the first leaves. -/
theorem bind {next : β → Work α γ} {post' : γ → State α → Prop} (h : D.Acts names size w s post)
    (hn : ∀ value s', D.Later s s' → post value s' →
      D.Acts names' size' (next value) s' post') :
    D.Acts (names ++ names') (size + size') (w >>= next) s post' := by
  intro hs
  obtain ⟨result, changes, hrun, hdoes, hsize, hresult⟩ := h hs
  cases result with
  | error fault =>
    refine ⟨.error fault, changes, fun t ht => ?_, hdoes, Nat.le_add_right_of_le hsize, hresult⟩
    rw [run_bind, hrun t ht]
  | ok value =>
    obtain ⟨hnames, hvalue⟩ := hresult
    obtain ⟨result', changes', hrun', hdoes', hsize', hresult'⟩ :=
      hn value _ ⟨changes, hdoes, rfl⟩ hvalue (D.holds_later hs hdoes)
    refine ⟨result', changes ++ changes', fun t ht => ?_, D.does_append hdoes hdoes', ?_, ?_⟩
    · rw [run_bind, hrun t ht]
      dsimp only
      rw [hrun' _ (ht.changeAll changes), State.changeAll_append]
    · rw [List.countP_append]
      omega
    · cases result' with
      | error fault => exact hresult'
      | ok value' =>
        rw [boundNames_append, kept_append, hnames, hresult'.1, State.changeAll_append]
        exact ⟨rfl, hresult'.2⟩

theorem imp {post' : β → State α → Prop} (h : D.Acts names size w s post) (hle : size ≤ size')
    (hp : ∀ value s', post value s' → post' value s') : D.Acts names size' w s post' := by
  intro hs
  obtain ⟨result, changes, hrun, hdoes, hsize, hresult⟩ := h hs
  refine ⟨result, changes, hrun, hdoes, hsize.trans hle, ?_⟩
  cases result with
  | error fault => exact hresult
  | ok value => exact ⟨hresult.1, hp value _ hresult.2⟩

section Parts
variable {next : β → Work α γ} {post' : γ → State α → Prop}

/-- Work that binds nothing comes first. -/
theorem unnamed (h : D.Acts [] size w s post) (hn : ∀ value s', D.Later s s' → post value s' →
    D.Acts names size' (next value) s' post') :
    D.Acts names (size + size') (w >>= next) s post' := h.bind hn

/-- Work that binds and adds nothing comes first. -/
theorem quiet (h : D.Acts [] 0 w s post) (hn : ∀ value s', D.Later s s' → post value s' →
    D.Acts names size (next value) s' post') : D.Acts names size (w >>= next) s post' :=
  Acts.imp (h.bind hn) (Nat.zero_add size).le fun _ _ => id

/-- Work that binds nothing comes last. -/
theorem nameless (h : D.Acts names size w s post) (hn : ∀ value s', D.Later s s' → post value s' →
    D.Acts [] size' (next value) s' post') : D.Acts names (size + size') (w >>= next) s post' :=
  List.append_nil names ▸ h.bind hn

/-- Work that adds nothing comes last. -/
theorem named (h : D.Acts names size w s post) (hn : ∀ value s', D.Later s s' → post value s' →
    D.Acts names' 0 (next value) s' post') : D.Acts (names ++ names') size (w >>= next) s post' :=
  h.bind hn

/-- Work that binds and adds nothing comes last. -/
theorem still (h : D.Acts names size w s post) (hn : ∀ value s', D.Later s s' → post value s' →
    D.Acts [] 0 (next value) s' post') : D.Acts names size (w >>= next) s post' := h.nameless hn

end Parts

end Acts

theorem acts_pure {post : β → State α → Prop} {value : β} (h : D.holds s → post value s) :
    D.Acts [] size (pure value : Work α β) s post := fun hs =>
  ⟨.ok value, [], fun _ _ => rfl, D.does_nil hs, Nat.zero_le _, rfl, h hs⟩

theorem acts_fail {post : β → State α → Prop} {fault : Fault} {span : Option Span}
    (h : D.fault ⟨fault, span⟩) : D.Acts names size (fail fault span : Work α β) s post := fun hs =>
  ⟨.error ⟨fault, span⟩, [], fun _ _ => rfl, D.does_nil hs, Nat.zero_le _, h⟩

theorem acts_classUnder {name : String} {span : Option Span}
    (h : D.fault ⟨.undefinedClass name, span⟩) :
    D.Acts [] 0 (classUnder catalog name span) s fun cls _ => catalog.resolve? name = some cls := by
  rw [classUnder]
  cases hc : catalog.resolve? name with
  | none => exact acts_fail h
  | some cls => exact acts_pure fun _ => rfl

theorem acts_addObject {name : String} {cls : UnitClass} (hc : catalog.resolve? name = some cls)
    (origin : Origin) {span : Option Span} (hspan : D.place span) :
    D.Acts [] 1 (addObject cls scope origin span) s fun ref s' => D.object s' ref := by
  intro hs
  obtain ⟨hdoes, hobject⟩ := D.does_add origin hs hc hspan
  refine ⟨.ok ⟨s.objects.length, cls⟩, [.add (.fresh cls scope origin span)], fun t ht => ?_, hdoes,
    Nat.le_refl _, rfl, hobject⟩
  rw [ht.objects]
  exact run_eq ((leads_addObject cls scope origin span).mpr ⟨rfl, rfl⟩)

theorem acts_find {ident : Ident} (h : D.fault ⟨.undefinedName ident.name, some ident.span⟩) :
    D.Acts [] 0 (find scope ident) s fun v s' => D.value s' v := by
  intro hs
  cases hv : s.find? scope ident.name with
  | none =>
    refine ⟨.error ⟨.undefinedName ident.name, some ident.span⟩, [], fun t ht => run_eq ?_,
      D.does_nil hs, Nat.le_refl _, h⟩
    rw [leads_find, ← ht.find?, hv]
    exact ⟨rfl, rfl⟩
  | some v =>
    refine ⟨.ok v, [], fun t ht => run_eq ?_, D.does_nil hs, Nat.le_refl _, rfl, D.atom_find hs hv⟩
    rw [leads_find, ← ht.find?, hv]
    exact ⟨rfl, rfl⟩

theorem acts_findObject (part : Part) {ident : Ident}
    (h : ∀ fault, D.fault ⟨fault, some ident.span⟩) :
    D.Acts [] 0 (findObject scope part ident) s fun ref s' =>
      ∃ span, D.atom s' (.object ref span) := by
  refine (acts_find (h _)).quiet fun v s' _ hv => ?_
  split
  · next ref span => exact acts_pure fun _ => ⟨span, hv _ List.mem_cons_self⟩
  · exact acts_fail (h _)

/-- What a part of a value adds to a socket is known, and so is the place of one that adds nothing. -/
private theorem atom_contributions (hs : D.holds s) {a : Atom α} (ha : D.atom s a) :
    match contributions a with
    | .ok more => ∀ c ∈ more, D.atom s (atomOf c)
    | .error fault => D.fault fault := by
  have hplace := D.place_atom ha
  cases a with
  | constant value span => exact List.forall_mem_singleton.mpr ha
  | output id name span => exact List.forall_mem_singleton.mpr ha
  | socket id index span => exact D.fault_of_place _ hplace
  | object ref span =>
    rw [contributions]
    cases hc : ref.cls.canonicalOutput? "output" with
    | some name => exact List.forall_mem_singleton.mpr (D.atom_output hs ha hc hplace)
    | none =>
      cases hstereo : ref.cls.isStereoSource with
      | false => exact D.fault_of_place _ hplace
      | true =>
        have hside : ∀ side, side = "left" ∨ side = "right" →
            D.atom s (.output ref.id side span) := fun _ => D.atom_side hs ha hstereo
        exact List.forall_mem_cons.mpr
          ⟨hside _ (.inl rfl), List.forall_mem_singleton.mpr (hside _ (.inr rfl))⟩

private theorem atoms_gather (hs : D.holds s) {v : Value α} (hv : D.value s v) :
    (∀ c ∈ (gather v).1, D.atom s (atomOf c)) ∧ ∀ fault ∈ (gather v).2, D.fault fault := by
  induction v with
  | nil => exact ⟨List.forall_mem_nil _, fun _ h => by cases h⟩
  | cons a rest ih =>
    obtain ⟨ha, hrest⟩ := List.forall_mem_cons.mp hv
    have hone := atom_contributions hs ha
    rw [gather]
    split
    · next fault hc =>
      rw [hc] at hone
      exact ⟨List.forall_mem_nil _, fun _ h => Option.some.inj h ▸ hone⟩
    · next more hc =>
      rw [hc] at hone
      exact ⟨List.forall_mem_append.mpr ⟨hone, (ih hrest).1⟩, (ih hrest).2⟩

theorem acts_mixInto {object : Nat} (hobject : D.fills s object) (socket : Nat) {v : Value α}
    (hv : D.value s v) : D.Acts [] 0 (mixInto object socket v) s Any := by
  intro hs
  obtain ⟨hmore, hfault⟩ := atoms_gather hs hv
  have hdoes : D.does s [.mix object socket (gather v).1] := D.does_mix hs hobject hmore
  rcases hg : gather v with ⟨more, _ | fault⟩
  · rw [hg] at hdoes
    refine ⟨.ok (), _, fun t _ => run_eq ?_, hdoes, Nat.le_refl _, rfl, trivial⟩
    rw [leads_mixInto, hg]
    exact ⟨rfl, rfl⟩
  · rw [hg] at hdoes hfault
    refine ⟨.error fault, _, fun t _ => run_eq ?_, hdoes, Nat.le_refl _, hfault fault rfl⟩
    rw [leads_mixInto, hg]
    exact ⟨rfl, rfl⟩

theorem acts_plug {target : Ref} (htarget : D.object s target) (socket : String) {v : Value α}
    (hv : D.value s v) : D.Acts [] 0 (plug target socket v) s Any := by
  rw [plug]
  split
  · exact acts_mixInto (D.fills_object htarget) _ hv
  · exact acts_fail (D.fault_of_place _ (D.place_spanOf fun a ha => D.place_atom (hv a ha)))

theorem acts_operatorObject (className : String) {span : Span} (hspan : D.place (some span)) :
    D.Acts [] 1 (operatorObject catalog scope className span) s fun ref s' => D.object s' ref :=
  (acts_classUnder (D.fault_of_place _ hspan)).quiet fun _ _ _ hc => acts_addObject hc .operator hspan

theorem acts_define {name : Ident} (hname : D.names name) {v : Value α} (hv : D.value s v) :
    D.Acts [name.name] 0 (define scope name v) s Any := by
  intro hs
  have hkept := kept_name name
  by_cases hdiscard : name.isDiscard = true
  · rw [if_pos hdiscard] at hkept
    refine ⟨.ok (), [], fun t _ => ?_, D.does_nil hs, Nat.le_refl _, hkept.symm, trivial⟩
    rw [run_define, if_pos hdiscard]
    rfl
  · rw [if_neg hdiscard] at hkept
    by_cases hvoice : scope = .voice ∧ parameterFor? name.name v ≠ none
    · refine ⟨.error ⟨.voiceParameter, some name.span⟩, [], fun t _ => ?_, D.does_nil hs,
        Nat.le_refl _, D.fault_of_name _ hname⟩
      rw [run_define, if_neg hdiscard, if_pos hvoice]
      rfl
    · have hdoes := D.does_bind hs hname (Bool.eq_false_iff.mpr hdiscard) hv fun hscope =>
        Classical.not_not.mp fun h => hvoice ⟨hscope, h⟩
      refine ⟨.ok (), _, fun t _ => ?_, hdoes, (countP_bindings _ _ _).le,
        (boundNames_bindings _ _ _).trans hkept.symm, trivial⟩
      rw [run_define, if_neg hdiscard, if_neg hvoice]

theorem value_singleton {a : Atom α} (h : D.atom s a) : D.value s [a] :=
  List.forall_mem_singleton.mpr h

theorem value_append {v w : Value α} (hv : D.value s v) (hw : D.value s w) : D.value s (v ++ w) :=
  List.forall_mem_append.mpr ⟨hv, hw⟩

/-- The object that stands for a result. -/
private theorem acts_result {object : Ref} {span : Option Span} (h : D.object s object)
    (hspan : D.place span) :
    D.Acts [] size (pure [.object object span] : Work α (Value α)) s fun v s' => D.value s' v :=
  acts_pure fun _ => value_singleton (D.atom_object h hspan)

theorem acts_negate {v : Value α} (hv : D.value s v) {span : Span} (hspan : D.place (some span)) :
    D.Acts [] 1 (negate catalog scope v span) s fun u s' => D.value s' u := by
  rw [negate.eq_def]
  split
  · exact acts_pure fun _ => value_singleton (D.atom_negated (hv _ List.mem_cons_self) hspan)
  · refine (acts_operatorObject _ hspan).still fun object s₁ h₁ hobject => ?_
    refine (acts_plug hobject _ (h₁.value hv)).quiet fun _ s₂ h₂ _ => ?_
    exact acts_result (h₂.object hobject) hspan

theorem acts_scale {v w : Value α} (hv : D.value s v) (hw : D.value s w) {span : Span}
    (hspan : D.place (some span)) :
    D.Acts [] 1 (scale catalog scope v w span) s fun u s' => D.value s' u := by
  rw [scale.eq_def]
  split
  · refine acts_pure fun _ => value_singleton ?_
    exact D.atom_scaled (hv _ List.mem_cons_self) (hw _ List.mem_cons_self) hspan
  · refine (acts_operatorObject _ hspan).still fun object s₁ h₁ hobject => ?_
    refine (acts_plug hobject _ (h₁.value hv)).quiet fun _ s₂ h₂ _ => ?_
    refine (acts_plug (h₂.object hobject) _ (h₂.value (h₁.value hw))).quiet fun _ s₃ h₃ _ => ?_
    exact acts_result (h₃.object (h₂.object hobject)) hspan

/-- The object of a mapping receives what is mapped and the bounds. -/
theorem acts_mapped {polarity : Polarity} {source low high : Value α} (hsource : D.value s source)
    (hlow : D.value s low) (hhigh : D.value s high) {span : Span} (hspan : D.place (some span)) :
    D.Acts [] 1
      (do
        let object ← operatorObject catalog scope (mappingClass polarity) span
        plug object "source" source
        plug object "from" low
        plug object "to" high
        return [.object object (some span)]) s fun u s' => D.value s' u := by
  refine (acts_operatorObject _ hspan).still fun object s₁ h₁ hobject => ?_
  refine (acts_plug hobject _ (h₁.value hsource)).quiet fun _ s₂ h₂ _ => ?_
  refine (acts_plug (h₂.object hobject) _ (h₂.value (h₁.value hlow))).quiet fun _ s₃ h₃ _ => ?_
  have hobject₃ := h₃.object (h₂.object hobject)
  have hhigh₃ := h₃.value (h₂.value (h₁.value hhigh))
  refine (acts_plug hobject₃ _ hhigh₃).quiet fun _ s₄ h₄ _ => ?_
  exact acts_result (h₄.object hobject₃) hspan

theorem acts_literal {value : Float} {unit : String} {span : Span}
    (h : D.permits (.number value unit span)) :
    D.Acts [] 0 (literal value unit span) s fun v s' => D.value s' v := by
  have hatom : ∀ (t : State α) (x : α), (Quantity.ofLiteral? (Arithmetic.ofFloat value) unit).getD
      (Arithmetic.ofFloat value) = x → D.value t [.constant x (some span)] := by
    rintro t _ rfl
    exact value_singleton (D.atom_literal t h)
  rw [literal]
  split
  · next x hx => exact acts_pure fun _ => hatom _ _ (by rw [hx, Option.getD_some])
  · next hx =>
    have hwarn : D.Acts [] 0 (warn (.unknownUnit unit) (some span)) s Any := fun hs =>
      ⟨.ok (), [.warning ⟨.unknownUnit unit, some span⟩], fun _ _ => rfl,
        D.does_warn unit hs (D.place_of h), Nat.le_refl _, rfl, trivial⟩
    exact hwarn.quiet fun _ _ _ _ => acts_pure fun _ => hatom _ _ (by rw [hx, Option.getD_none])

/-- Building an expression keeps to the discipline. It binds the names of the constructions in it and
adds at most one object a node. -/
theorem acts_buildExpr (e : Expr) : ∀ s : State α, D.permits e →
    D.Acts e.bound e.size (buildExpr catalog scope e) s fun v s' => D.value s' v := by
  induction e using Expr.induction (fun args => ∀ (s : State α) (object : Ref) (position : Nat),
    (∀ arg ∈ args, D.permits arg.value) → D.object s object →
      D.Acts (Construction.boundArgs args) (Construction.argsSize args)
        (buildArgs catalog scope object position args) s Any) with
  | error span =>
    intro s h
    rw [buildExpr]
    exact acts_fail (D.fault_of_place _ (D.place_of h))
  | number value unit span =>
    intro s h
    rw [buildExpr]
    exact (acts_literal h).imp (Nat.zero_le _) fun _ _ => id
  | unary sign operand span ih =>
    intro s h
    rw [buildExpr, Expr.bound, Expr.size]
    refine (ih s (D.part h List.mem_cons_self)).nameless fun v s₁ _ hv => ?_
    cases sign with
    | plus => exact acts_pure fun _ => hv
    | minus => exact acts_negate hv (D.place_of h)
  | binary op left right span ihl ihr =>
    intro s h
    have hl : D.permits left := D.part h List.mem_cons_self
    have hr : D.permits right := D.part h (List.mem_cons_of_mem _ List.mem_cons_self)
    rw [buildExpr, Expr.bound, Expr.size, Nat.add_assoc]
    refine (ihl s hl).bind fun v s₁ _ hv => (ihr s₁ hr).nameless fun w s₂ h₂ hw => ?_
    have hv₂ := h₂.value hv
    cases op with
    | add => exact acts_pure fun _ => value_append hv₂ hw
    | subtract =>
      refine (acts_negate hw (D.place_of h)).still fun u s₃ h₃ hu => ?_
      exact acts_pure fun _ => value_append (h₃.value hv₂) hu
    | multiply => exact acts_scale hv₂ hw (D.place_of h)
  | mapping polarity source low high span ihs ihl ihh =>
    intro s h
    have hparts : ∀ part ∈ [source, low, high], D.permits part := fun _ => D.part h
    rw [List.forall_mem_cons, List.forall_mem_cons, List.forall_mem_singleton] at hparts
    obtain ⟨hs, hl, hh⟩ := hparts
    rw [buildExpr, Expr.bound, Expr.size, Nat.add_assoc, Nat.add_assoc]
    refine (ihs s hs).bind fun u s₁ _ hu => (ihl s₁ hl).bind fun v s₂ h₂ hv => ?_
    refine (ihh s₂ hh).nameless fun w s₃ h₃ hw => ?_
    exact acts_mapped (h₃.value (h₂.value hu)) (h₃.value hv) hw (D.place_of h)
  | construction className name values span ih =>
    intro s h
    have hargs : ∀ arg ∈ values, D.permits arg.value := fun arg ha =>
      D.part h (List.mem_map_of_mem ha)
    rw [buildExpr, buildConstruction, Expr.bound, Construction.bound, Expr.size, Construction.size,
      Nat.add_comm]
    refine (acts_classUnder (D.fault_of_ident _ h List.mem_cons_self)).quiet fun cls s₁ _ hc => ?_
    refine (acts_addObject hc .written (D.place_of h)).unnamed fun object s₂ _ hobject => ?_
    refine (ih s₂ object 0 hargs hobject).named fun _ s₃ h₃ _ => ?_
    have hvalue : D.value s₃ [.object object (some span)] :=
      value_singleton (D.atom_object (h₃.object hobject) (D.place_of h))
    cases name with
    | none => exact acts_pure fun _ => hvalue
    | some name =>
      refine (acts_define (D.names_of h rfl) hvalue).still fun _ s₄ h₄ _ => ?_
      exact acts_pure fun _ => h₄.value hvalue
  | socket object socket span =>
    intro s h
    rw [buildExpr]
    refine (Acts.quiet (acts_findObject .socket fun _ =>
      D.fault_of_ident _ h List.mem_cons_self) fun ref s₁ _ href => ?_)
    obtain ⟨place, href⟩ := href
    split
    · next index hindex =>
      exact acts_pure fun hs => value_singleton (D.atom_socket hs href hindex (D.place_of h))
    · exact acts_fail (D.fault_of_ident _ h (List.mem_cons_of_mem _ List.mem_cons_self))
  | output object output span =>
    intro s h
    rw [buildExpr]
    refine (Acts.quiet (acts_findObject .output fun _ =>
      D.fault_of_ident _ h List.mem_cons_self) fun ref s₁ _ href => ?_)
    obtain ⟨place, href⟩ := href
    split
    · next name hname =>
      exact acts_pure fun hs => value_singleton (D.atom_output hs href hname (D.place_of h))
    · exact acts_fail (D.fault_of_ident _ h (List.mem_cons_of_mem _ List.mem_cons_self))
  | name ident =>
    intro s h
    rw [buildExpr]
    exact (acts_find (D.fault_of_ident _ h List.mem_cons_self)).imp (Nat.zero_le _) fun _ _ => id
  | nil s object position _ _ =>
    rw [buildArgs]
    exact acts_pure fun _ => trivial
  | cons label value rest ihv ihr s object position h hobject =>
    obtain ⟨hvalue, hrest⟩ := List.forall_mem_cons.mp h
    have plugged : ∀ socket next, D.Acts (value.bound ++ Construction.boundArgs rest)
        (value.size + Construction.argsSize rest)
        (do
          let built ← buildExpr catalog scope value
          plug object socket built
          buildArgs catalog scope object next rest) s Any := by
      intro socket next
      refine (ihv s hvalue).bind fun v s₁ h₁ hv => ?_
      have hobject₁ := h₁.object hobject
      refine (acts_plug hobject₁ socket hv).quiet fun _ s₂ h₂ _ => ?_
      exact ihr s₂ object next hrest (h₂.object hobject₁)
    rw [Construction.boundArgs, Construction.argsSize]
    cases label with
    | none =>
      rw [buildArgs]
      split
      · exact acts_fail (D.fault_of_place _ (D.place_of hvalue))
      · exact plugged _ _
    | some label =>
      rw [buildArgs]
      split
      · exact acts_fail (D.fault_of_place _ (D.place_of hvalue))
      · exact plugged _ _

section Links
variable (hroutes : D.Routes)
include hroutes

private theorem acts_connectSides {source : Value α} (hsource : D.value s source) {target : Ref}
    {place : Option Span} (htarget : D.value s [.object target place]) (left right : Nat) :
    D.Acts [] 0 (connectSides source target left right) s Any := by
  have hfills : ∀ {t : State α}, D.Later s t → D.fills t target.id := fun h =>
    hroutes (h.value htarget _ List.mem_cons_self) rfl
  have hfirst : D.Acts [] 0 (mixInto target.id left source) s Any := fun hs =>
    acts_mixInto (hfills ⟨[], D.does_nil hs, rfl⟩) left hsource hs
  have both : D.Acts [] 0 (do mixInto target.id left source; mixInto target.id right source) s Any :=
    hfirst.quiet fun _ s₁ h₁ _ => acts_mixInto (hfills h₁) right (h₁.value hsource)
  rw [connectSides.eq_def]
  split
  · next ref span =>
    split
    · next hstereo =>
      have hside : ∀ {t : State α} (socket : Nat) {side : String}, D.holds t → D.Later s t →
          side = "left" ∨ side = "right" →
            D.does t [.mix target.id socket [.output ref.id side span]] := by
        intro t socket side ht h hside
        refine D.does_mix ht (hfills h) (List.forall_mem_singleton.mpr ?_)
        exact D.atom_side ht (h.value hsource _ List.mem_cons_self) hstereo hside
      intro hs
      have hdoes := hside left hs ⟨[], D.does_nil hs, rfl⟩ (.inl rfl)
      have hdoes' := hside right (D.holds_later hs hdoes) ⟨_, hdoes, rfl⟩ (.inr rfl)
      exact ⟨.ok (), _, fun _ _ => rfl, D.does_append hdoes hdoes', Nat.le_refl _, rfl, trivial⟩
    · exact both
  · exact both

theorem acts_connect {source target : Value α} (hsource : D.value s source)
    (htarget : D.value s target) {span : Span} (hspan : D.place (some span)) :
    D.Acts [] 0 (connect source target span) s Any := by
  rw [connect.eq_def]
  split
  · split
    · exact acts_mixInto (hroutes (htarget _ List.mem_cons_self) rfl) _ hsource
    · exact acts_connectSides hroutes hsource htarget _ _
    · exact acts_fail (D.fault_of_place _ hspan)
  · exact acts_mixInto (hroutes (htarget _ List.mem_cons_self) rfl) _ hsource
  · exact acts_fail (D.fault_of_place _ hspan)

theorem acts_buildLinks (links : List Expr) : ∀ (s : State α) (previous : Value α),
    (∀ e ∈ links, D.permits e) → D.value s previous →
      D.Acts (links.flatMap Expr.bound) (links.map Expr.size).sum
        (buildLinks catalog scope previous links) s Any := by
  induction links with
  | nil => exact fun s previous _ _ => acts_pure fun _ => trivial
  | cons link rest ih =>
    intro s previous h hprevious
    obtain ⟨hlink, hrest⟩ := List.forall_mem_cons.mp h
    rw [buildLinks, List.flatMap_cons, List.map_cons, List.sum_cons]
    refine (acts_buildExpr link s hlink).bind fun next s₁ h₁ hnext => ?_
    refine (acts_connect hroutes (h₁.value hprevious) hnext (D.place_of hlink)).quiet
      fun _ s₂ h₂ _ => ?_
    exact ih s₂ next hrest (h₂.value hnext)

theorem acts_buildStatement {statement : Statement} (h : D.allows statement) (s : State α) :
    D.Acts statement.bound (statement.exprs.map Expr.size).sum
      (buildStatement catalog scope statement) s Any := by
  cases statement with
  | error span => exact acts_fail h
  | definition name value span =>
    refine (acts_buildExpr value s h.2).bind fun v s₁ _ hv => ?_
    exact acts_define h.1 hv
  | construction c =>
    have hc : D.Acts c.bound c.size (buildExpr catalog scope (.construction c)) s _ :=
      acts_buildExpr (.construction c) s h
    rw [buildExpr] at hc
    exact hc.nameless fun _ _ _ _ => acts_pure fun _ => trivial
  | chain source steps target span =>
    refine (acts_buildExpr source s h.1).bind fun v s₁ _ hv => ?_
    exact acts_buildLinks hroutes _ s₁ v h.2 hv

end Links
/-- However the work ends, it has made allowed changes. -/
theorem Acts.leads {w : Work α β} {post : β → State α → Prop} (h : D.Acts names size w s post)
    (hs : D.holds s) :
    Leads w s
      (fun value s' => (∃ changes, D.does s changes ∧ changes.countP Change.isAdd ≤ size ∧
        boundNames changes = kept names ∧ s' = s.changeAll changes) ∧ post value s')
      fun fault s' => (∃ changes, D.does s changes ∧ changes.countP Change.isAdd ≤ size ∧
        s' = s.changeAll changes) ∧ D.fault fault := by
  obtain ⟨result, changes, hrun, hdoes, hsize, hresult⟩ := h hs
  rw [Leads, hrun s (.refl s)]
  cases result with
  | error fault => exact ⟨⟨changes, hdoes, hsize, rfl⟩, hresult⟩
  | ok value => exact ⟨⟨changes, hdoes, hsize, hresult.1, rfl⟩, hresult.2⟩

end Discipline
end Patchbay.Building
