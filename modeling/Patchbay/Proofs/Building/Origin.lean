import Patchbay.Proofs.Building.WellFormed
import Patchbay.Proofs.Program.Origin

/-! Where the parts of a graph come from: its constants are folded from literals of the program, its
places are places in the program, and each object but the built-in ones is a node of it. -/
namespace Patchbay.Building
variable {α : Type} [Arithmetic α]

/-- The constants that literals are folded to. -/
inductive Folded (literal : Float → String → Prop) : α → Prop
  | converted {value unit x} (h : literal value unit)
    (hx : Quantity.ofLiteral? (Arithmetic.ofFloat value) unit = some x) : Folded literal x
  | unconverted {value unit} (h : literal value unit)
    (hx : Quantity.ofLiteral? (α := α) (Arithmetic.ofFloat value) unit = none) :
    Folded literal (Arithmetic.ofFloat value)
  | negated {x} (h : Folded literal x) : Folded literal (-x)
  | scaled {x y} (h : Folded literal x) (h' : Folded literal y) : Folded literal (x * y)

variable {m : Material} {s s' : State α}

def MadeContribution (m : Material) : Contribution α → Prop
  | .output _ _ span => ∀ place ∈ span, m.place place
  | .constant value span => Folded m.literal value ∧ ∀ place ∈ span, m.place place

def MadeAtom (m : Material) : Atom α → Prop
  | .constant value span => Folded m.literal value ∧ ∀ place ∈ span, m.place place
  | .object _ span | .output _ _ span | .socket _ _ span => ∀ place ∈ span, m.place place

def MadeValue (m : Material) (v : Value α) : Prop := ∀ a ∈ v, MadeAtom m a

/-- A state in which all constants and places are of the material. -/
structure Made (m : Material) (s : State α) : Prop where
  spans : ∀ d ∈ s.objects, ∀ place ∈ d.span, m.place place
  mixes : ∀ d ∈ s.objects, ∀ mix ∈ d.mixes, ∀ c ∈ mix, MadeContribution m c
  global : ∀ name v, s.global.get? name = some v → MadeValue m v
  voice : ∀ name v, s.voice.get? name = some v → MadeValue m v

theorem MadeValue.singleton {a : Atom α} (h : MadeAtom m a) : MadeValue m [a] :=
  List.forall_mem_singleton.mpr h

namespace Made
variable (h : Made m s)
include h

theorem find? {scope : Scope} {name : String} {v : Value α} (hv : s.find? scope name = some v) :
    MadeValue m v := by
  cases scope with
  | global => exact h.global name v hv
  | voice =>
    rcases Option.or_eq_some_iff.mp hv with hv | ⟨_, hv⟩
    · exact h.voice name v hv
    · exact h.global name v hv

theorem add (cls : UnitClass) (scope : Scope) (origin : Origin) {span : Option Span}
    (hspan : ∀ place ∈ span, m.place place) : Made m (s.add (.fresh cls scope origin span)) := by
  refine ⟨?_, ?_, h.global, h.voice⟩
  · exact List.forall_mem_append.mpr ⟨h.spans, List.forall_mem_singleton.mpr hspan⟩
  · refine List.forall_mem_append.mpr ⟨h.mixes, List.forall_mem_singleton.mpr ?_⟩
    intro mix hmix c hc
    rw [List.eq_of_mem_replicate hmix] at hc
    exact absurd hc List.not_mem_nil

theorem mix {more : List (Contribution α)} (hmore : ∀ c ∈ more, MadeContribution m c)
    (object socket : Nat) : Made m (s.mix object socket more) := by
  refine ⟨fun d hd => ?_, fun d hd mix hmix c hc => ?_, h.global, h.voice⟩
  · rcases mem_modify hd with hd | ⟨e, he, rfl⟩
    · exact h.spans d hd
    · exact h.spans e he
  · rcases mem_modify hd with hd | ⟨e, he, rfl⟩
    · exact h.mixes d hd mix hmix c hc
    · rcases mem_modify hmix with hmix | ⟨old, hold, rfl⟩
      · exact h.mixes e he mix hmix c hc
      · exact (List.mem_append.mp hc).elim (h.mixes e he old hold c) (hmore c)

theorem bind {v : Value α} (hv : MadeValue m v) (scope : Scope) (name : String) :
    Made m (s.bind scope name v) := by
  have put : ∀ t : Table (Value α), (∀ n w, t.get? n = some w → MadeValue m w) →
      ∀ n w, (t.put name v).get? n = some w → MadeValue m w := by
    intro t ht n w hw
    rw [Table.get?_put] at hw
    split at hw
    · exact Option.some.inj hw ▸ hv
    · exact ht n w hw
  cases scope with
  | global => exact ⟨h.spans, h.mixes, put _ h.global, h.voice⟩
  | voice => exact ⟨h.spans, h.mixes, h.global, put _ h.voice⟩

end Made

/-- An expression is made of the material, and so are its parts. -/
def Allowance.material (m : Material) : Allowance where
  permits e := e.MadeOf m
  names _ := True
  place span := ∀ place ∈ span, m.place place
  fault _ := True
  part := Expr.MadeOf.part
  names_of _ _ := trivial
  place_of h _ hspan := Option.some.inj hspan ▸ h.span
  place_none _ hspan := by cases hspan
  place_join ha hb _ hspan := Option.some.inj hspan ▸ m.join (ha _ rfl) (hb _ rfl)
  fault_of_place _ _ _ := trivial
  fault_of_name _ _ _ := trivial
  fault_of_ident _ _ _ _ _ := trivial

theorem Allowance.allows_material {statement : Statement}
    (h : ∀ e ∈ statement.exprs, e.MadeOf m) : (material m).allows statement := by
  cases statement with
  | error span => trivial
  | definition name value span => exact ⟨trivial, List.forall_mem_singleton.mp h⟩
  | construction c => exact h _ (List.mem_singleton_self _)
  | chain source steps target span => exact List.forall_mem_cons.mp h

/-- What makes states of the material only. -/
def making (catalog : Catalog) (scope : Scope) (m : Material) : Discipline α catalog scope where
  toAllowance := .material m
  holds := Made m
  does s changes := Made m (s.changeAll changes)
  atom _ := MadeAtom m
  object _ _ := True
  fills _ _ := True
  does_nil h := h
  does_append _ h := by rwa [State.changeAll_append]
  holds_later _ h := h
  atom_later _ h := h
  object_later _ _ := trivial
  place_atom := by
    intro _ a ha
    cases a with
    | constant value span => exact ha.2
    | _ => exact ha
  atom_find h hv := h.find? hv
  atom_literal := by
    intro value unit span _ h
    refine ⟨?_, fun _ hspan => Option.some.inj hspan ▸ h.2⟩
    cases hx : Quantity.ofLiteral? (α := α) (Arithmetic.ofFloat value) unit with
    | none => exact .unconverted h.1 hx
    | some x => exact .converted h.1 hx
  atom_negated h hspan := ⟨.negated h.1, hspan⟩
  atom_scaled h h' hspan := ⟨.scaled h.1 h'.1, hspan⟩
  atom_object _ hspan := hspan
  atom_output _ _ _ hspan := hspan
  atom_side _ h _ _ := h
  atom_socket _ _ _ hspan := hspan
  does_add origin h _ hspan := ⟨h.add _ scope origin hspan, trivial⟩
  fills_object _ := trivial
  does_mix := by
    intro s id socket more h _ hmore
    refine h.mix (fun c hc => ?_) id socket
    have hatom := hmore c hc
    cases c with
    | output id name span => exact hatom
    | constant value span => exact hatom
  does_bind := by
    intro s name v h _ _ hv _
    rw [bindings]
    cases parameterFor? name.name v with
    | none => exact h.bind hv scope name.name
    | some p =>
      have hparameter : Made m (s.change (.parameter p)) :=
        ⟨h.spans, h.mixes, h.global, h.voice⟩
      exact hparameter.bind hv scope name.name
  does_warn _ h _ := ⟨h.spans, h.mixes, h.global, h.voice⟩

/-- However the work ends, it leaves what is made of the material, with at most one object more a
node. -/
theorem makes_buildStatement (h : Made m s) (catalog : Catalog) (scope : Scope)
    {statement : Statement} (hs : ∀ e ∈ statement.exprs, e.MadeOf m) :
    Leads (buildStatement catalog scope statement) s
      (fun _ s' => Made m s' ∧
        s'.objects.length ≤ s.objects.length + (statement.exprs.map Expr.size).sum)
      fun _ s' => Made m s' ∧
        s'.objects.length ≤ s.objects.length + (statement.exprs.map Expr.size).sum := by
  have hacts := (making (α := α) catalog scope m).acts_buildStatement (fun _ _ => trivial)
    (Allowance.allows_material hs) s
  refine Leads.imp (hacts.leads h) ?_ ?_
  · rintro _ _ ⟨⟨changes, hdoes, hsize, _, rfl⟩, _⟩
    rw [State.length_objects_changeAll]
    exact ⟨hdoes, Nat.add_le_add_left hsize _⟩
  · rintro _ _ ⟨⟨changes, hdoes, hsize, rfl⟩, _⟩
    rw [State.length_objects_changeAll]
    exact ⟨hdoes, Nat.add_le_add_left hsize _⟩

theorem made_buildLines (catalog : Catalog) {lines : List Line} (h : Made m s)
    (hl : ∀ e ∈ Program.exprs ⟨lines⟩, e.MadeOf m) :
    Made m (buildLines catalog s lines) ∧ (buildLines catalog s lines).objects.length ≤
      s.objects.length + ((Program.exprs ⟨lines⟩).map Expr.size).sum := by
  induction lines generalizing s with
  | nil => exact ⟨h, Nat.le_add_right _ _⟩
  | cons line rest ih =>
    obtain ⟨hline, hrest⟩ := List.forall_mem_append.mp hl
    have hwork := makes_buildStatement h catalog line.scope hline
    obtain ⟨hmade, hlength⟩ := Leads.after
      (fun t : State α => Made m t ∧ t.objects.length ≤ s.objects.length +
        (line.statement.exprs.map Expr.size).sum)
      (Leads.imp hwork (fun _ _ hs => hs) fun _ t ht =>
        ⟨⟨ht.1.spans, ht.1.mixes, ht.1.global, ht.1.voice⟩, ht.2⟩)
    obtain ⟨hall, hcount⟩ := ih hmade hrest
    refine ⟨hall, hcount.trans ?_⟩
    have hsum : ((Program.exprs ⟨line :: rest⟩).map Expr.size).sum =
        (line.statement.exprs.map Expr.size).sum + ((Program.exprs ⟨rest⟩).map Expr.size).sum := by
      simp [Program.exprs]
    omega

/-- What a program has built is made of the program, and has at most one object a node beside the
built-in ones. -/
theorem made_built {program : Program} (h : ∀ e ∈ program.exprs, e.MadeOf m) :
    Made m (built program : State α) ∧ (built program : State α).objects.length ≤
      Builtin.objectCount + (program.exprs.map Expr.size).sum := by
  have hseed : Made m (seed inputClass outputClass : State α) := by
    refine seed_induction _ _ ?_ fun s cls scope name _ hs => ?_
    · constructor <;> simp [State.empty, Table.get?, Table.empty]
    · have hnowhere : ∀ place ∈ (none : Option Span), m.place place := by simp
      have hobject : MadeAtom m (.object (α := α) ⟨s.objects.length, cls⟩ none) := hnowhere
      exact (hs.add cls scope .builtin hnowhere).bind (.singleton hobject) scope name
  rw [built_eq]
  exact made_buildLines _ hseed h

/-- An object in which all constants and places are of the material. -/
structure MadeNode (m : Material) (n : Node α) : Prop where
  span : ∀ place ∈ n.span, m.place place
  mixes : ∀ mix ∈ n.mixes.values, ∀ c ∈ mix, MadeContribution m c

theorem MadeContribution.stripSpan {c : Contribution α} (h : MadeContribution m c) :
    MadeContribution m c.stripSpan := by
  cases c with
  | output id name span => exact fun _ hplace => (by cases hplace)
  | constant value span => exact ⟨h.1, fun _ hplace => (by cases hplace)⟩

theorem Made.finished (h : Made m s) {catalog : Catalog} (hv : Valid catalog s)
    (hk : catalog.Regular) (o : Options) {d : Draft α} (hd : d ∈ s.objects) :
    MadeNode m (d.finished o) := by
  constructor
  · intro place hplace
    rw [Draft.finished] at hplace
    split at hplace
    · cases hplace
    · exact h.spans d hd place hplace
  · intro mix hm c hc
    obtain ⟨mix, hm, c', hc', hstrip⟩ := mem_finished o d hm hc
    have hmem := (mem_values (regular_of_mem hv hk hd) (hv.sockets d hd)).mp hm
    have hmade := h.mixes d hd mix hmem c' hc'
    rcases hstrip with rfl | rfl
    · exact hmade
    · exact hmade.stripSpan

/-- The graph of a program is made of the program, and has at most one object a node beside the
built-in ones. -/
theorem made_of_build {o : Options} {program : Program} {g : Graph α}
    (hp : ∀ e ∈ program.exprs, e.MadeOf m)
    (h : (build Library.standard.catalog o program).graph = some g) :
    (∀ n ∈ g.nodes, MadeNode m n) ∧
      g.nodes.length ≤ Builtin.objectCount + (program.exprs.map Expr.size).sum := by
  obtain ⟨hmade, hlength⟩ := made_built (α := α) hp
  have hvalid := (built_extends (α := α) program).1
  obtain ⟨_, order, _, rfl⟩ := graph_of_build h
  rw [State.nodes_graph, List.length_map]
  exact ⟨List.forall_mem_map.mpr fun d hd => hmade.finished hvalid Library.standard_regular o hd,
    hlength⟩

end Patchbay.Building
