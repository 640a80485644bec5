import Patchbay.Proofs.Building.Built
import Patchbay.Proofs.Building.Export
import Patchbay.Proofs.Building.Frame
import Patchbay.Proofs.Building.WellFormed
import Patchbay.Proofs.Checking.Distinct
import Patchbay.Proofs.Table

/-! What the shared lines of a program bind. Each name that a statement binds gets one value, and
those names whose value is a knob become parameters, in the order of the names. -/
namespace Patchbay.Building
variable {α : Type}

/-- An object that belongs to no voice. -/
def SharedObject (shapes : List Shape) (ref : Ref) : Prop :=
  ∃ x, shapes[ref.id]? = some x ∧ x.cls = ref.cls ∧ x.perVoice = false

/-- All objects that a value consists of belong to no voice. -/
def SharedValue (shapes : List Shape) (v : Value α) : Prop :=
  ∀ ref span, .object ref span ∈ v → SharedObject shapes ref

/-- What the shared lines can name belongs to no voice, and parameters are such knobs. -/
structure State.Shared (s : State α) : Prop where
  global : ∀ name v, s.global.get? name = some v → SharedValue s.shapes v
  parameters : ∀ q ∈ s.parameters, ∃ x, s.shapes[q.object]? = some x ∧
    x.cls.name = Builtin.knob ∧ x.perVoice = false

/-- Names get values one after the other, and become parameters if these are knobs. -/
def Binds (names : List String) (s s' : State α) : Prop :=
  ∃ bindings : List (String × Value α), bindings.map Prod.fst = names ∧
    s'.global = s.global.putAll bindings ∧
    s'.parameters = s.parameters ++ bindings.filterMap fun b => parameterFor? b.1 b.2

/-- A shared state with the objects of an earlier one, and names bound since. -/
structure Grows (names : List String) (s s' : State α) : Prop where
  shared : s'.Shared
  shapes : s.shapes <+: s'.shapes
  binds : Binds names s s'

section Laws
variable {s s' s'' : State α} {first second names : List String} {shapes shapes' : List Shape}

theorem SharedObject.mono {ref : Ref} (h : SharedObject shapes ref) (hs : shapes <+: shapes') :
    SharedObject shapes' ref := by
  obtain ⟨x, hx, hcls, hown⟩ := h
  exact ⟨x, getElem?_mono hs hx, hcls, hown⟩

theorem SharedValue.mono {v : Value α} (h : SharedValue shapes v) (hs : shapes <+: shapes') :
    SharedValue shapes' v := fun ref span hm => (h ref span hm).mono hs

theorem SharedValue.object {ref : Ref} (h : SharedObject shapes ref) (span : Option Span) :
    SharedValue (α := α) shapes [.object ref span] := by
  intro ref' span' hm
  cases List.mem_singleton.mp hm
  exact h

/-- Other parts of a value are no objects. -/
theorem SharedValue.other {atom : Atom α} (h : ∀ ref span, atom ≠ .object ref span) :
    SharedValue shapes [atom] := fun ref span hm => absurd (List.mem_singleton.mp hm).symm (h ref span)

theorem Binds.trans (h : Binds first s s') (h' : Binds second s' s'') :
    Binds (first ++ second) s s'' := by
  obtain ⟨bs, hnames, hglobal, hparameters⟩ := h
  obtain ⟨bs', hnames', hglobal', hparameters'⟩ := h'
  refine ⟨bs ++ bs', ?_, ?_, ?_⟩
  · rw [List.map_append, hnames, hnames']
  · rw [hglobal', hglobal, Table.putAll, Table.putAll, Table.putAll, List.foldl_append]
  · rw [hparameters', hparameters, List.filterMap_append, List.append_assoc]

/-- A state that only has more objects and fuller sockets. -/
theorem Grows.quiet (h : s.Shared) (hs : s.shapes <+: s'.shapes) (hg : s'.global = s.global)
    (hp : s'.parameters = s.parameters) : Grows [] s s' := by
  refine ⟨⟨fun name v hv => ?_, fun q hq => ?_⟩, hs, [], rfl, hg, ?_⟩
  · rw [hg] at hv
    exact (h.global name v hv).mono hs
  · rw [hp] at hq
    obtain ⟨x, hx, hknob⟩ := h.parameters q hq
    exact ⟨x, getElem?_mono hs hx, hknob⟩
  · rw [hp]
    exact (List.append_nil _).symm

theorem Grows.trans (h : Grows first s s') (h' : Grows second s' s'') :
    Grows (first ++ second) s s'' := ⟨h'.shared, h.shapes.trans h'.shapes, h.binds.trans h'.binds⟩

/-- Filling a socket binds nothing. -/
theorem Grows.mix (h : s.Shared) (object socket : Nat) (more : List (Contribution α)) :
    Grows [] s (s.mix object socket more) :=
  .quiet h (s.shapes_mix object socket more ▸ List.prefix_rfl) rfl rfl

/-- An object that shared lines add is shared. -/
theorem Grows.add (h : s.Shared) (cls : UnitClass) (origin : Origin) (span : Option Span) :
    Grows [] s (s.add (.fresh cls .global origin span)) ∧
      SharedObject (s.add (.fresh cls .global origin span)).shapes ⟨s.objects.length, cls⟩ := by
  have hshapes : (s.add (.fresh cls .global origin span)).shapes =
      s.shapes ++ [⟨cls, false, span, origin⟩] := s.shapes_add _
  refine ⟨.quiet h ?_ rfl rfl, ⟨cls, false, span, origin⟩, ?_, rfl, rfl⟩
  · rw [hshapes]
    exact List.prefix_append _ _
  · rw [hshapes, ← s.length_shapes, List.getElem?_concat_length]

/-- A name gets a value, and with a knob it becomes a parameter. -/
theorem Grows.bindings (h : s.Shared) (name : String) {v : Value α}
    (hv : SharedValue s.shapes v) :
    Grows [name] s (s.changeAll (bindings .global name v)) := by
  have hbound : s.changeAll (Building.bindings .global name v) = { s with
      global := s.global.put name v
      parameters := s.parameters ++ (parameterFor? name v).toList } := by
    rw [Building.bindings]
    cases parameterFor? name v with
    | none => simp [State.change, State.bind]
    | some p => rfl
  rw [hbound]
  refine ⟨⟨fun other u hu => ?_, fun q hq => ?_⟩, List.prefix_rfl, [(name, v)], rfl, rfl, ?_⟩
  · rw [Table.get?_put] at hu
    split at hu
    · cases hu
      exact hv
    · exact h.global other u hu
  · rcases List.mem_append.mp hq with hq | hq
    · exact h.parameters q hq
    · obtain ⟨ref, span, rfl, hknob, rfl⟩ := parameterFor?_eq_some.mp (Option.mem_toList.mp hq)
      obtain ⟨x, hx, hsame, hown⟩ := hv ref span (List.mem_singleton_self _)
      exact ⟨x, hx, hsame ▸ hknob, hown⟩
  · dsimp only
    rw [List.filterMap_cons, List.filterMap_nil]
    cases parameterFor? name v <;> rfl

end Laws

variable [Arithmetic α]

/-- What binds names to shared objects only. -/
def entering (catalog : Catalog) : Discipline α catalog .global where
  toAllowance := .all
  holds := State.Shared
  does s changes := Grows (boundNames changes) s (s.changeAll changes)
  atom s a := SharedValue s.shapes [a]
  object s := SharedObject s.shapes
  fills _ _ := True
  does_nil h := .quiet h List.prefix_rfl rfl rfl
  does_append h h' := by
    rw [boundNames_append, State.changeAll_append]
    exact h.trans h'
  holds_later _ h := h.shared
  atom_later h ha := ha.mono h.shapes
  object_later h href := href.mono h.shapes
  place_atom _ := trivial
  atom_find h hv _ ha ref span hm := h.global _ _ hv ref span (List.mem_singleton.mp hm ▸ ha)
  atom_literal _ _ := .other (by simp)
  atom_negated _ _ := .other (by simp)
  atom_scaled _ _ _ := .other (by simp)
  atom_object h span := .object h _
  atom_output _ _ _ _ := .other (by simp)
  atom_side _ _ _ _ := .other (by simp)
  atom_socket _ _ _ _ := .other (by simp)
  does_add origin h _ _ := Grows.add h _ origin _
  fills_object _ := trivial
  does_mix h _ _ := .mix h _ _ _
  does_bind := by
    intro s name v h _ _ hv _
    rw [boundNames_bindings]
    exact .bindings h name.name fun ref span hm => hv _ hm ref span (List.mem_singleton_self _)
  does_warn _ h _ := .quiet h List.prefix_rfl rfl rfl

/-- A statement binds its names, unless it fails. -/
theorem enters_buildStatement (catalog : Catalog) {s : State α} (h : s.Shared)
    (statement : Statement) :
    Leads (buildStatement catalog .global statement) s
      (fun _ s' => Grows (kept statement.bound) s s') Any := by
  have hacts := (entering catalog).acts_buildStatement (fun _ _ => trivial)
    (Allowance.allows_all statement) s
  refine Leads.imp (hacts.leads h) ?_ fun _ _ _ => trivial
  rintro _ _ ⟨⟨changes, hdoes, _, hnames, rfl⟩, _⟩
  exact hnames ▸ hdoes

omit [Arithmetic α] in
/-- Lines of the voice block bind no shared name, and no parameter. -/
private theorem stable_voice : Stable .voice fun s s' : State α =>
    s.shapes <+: s'.shapes ∧ s'.global = s.global ∧ s'.parameters = s.parameters where
  refl := fun _ => ⟨List.prefix_rfl, rfl, rfl⟩
  trans := fun h h' => ⟨h.1.trans h'.1, h'.2.1.trans h.2.1, h'.2.2.trans h.2.2⟩
  add := fun s d => ⟨s.shapes_add d ▸ List.prefix_append _ _, rfl, rfl⟩
  mix := fun s _ _ _ => ⟨s.shapes_mix _ _ _ ▸ List.prefix_rfl, rfl, rfl⟩
  bind := fun _ _ _ => ⟨List.prefix_rfl, rfl, rfl⟩
  parameters := fun hscope => by cases hscope
  warnings := fun _ _ => ⟨List.prefix_rfl, rfl, rfl⟩

/-- A line without a fault binds its shared names. -/
private theorem grows_line (catalog : Catalog) {s : State α} (h : s.Shared) (line : Line)
    (hf : (s.after (buildStatement catalog line.scope line.statement)).faults = []) :
    Grows (kept line.globalBound) s
      (s.after (buildStatement catalog line.scope line.statement)) := by
  have hends : ∀ {w : Work α Unit}, (s.after w).faults = [] →
      Leads w s (fun _ s' => Grows (kept line.globalBound) s s') Any →
        Grows (kept line.globalBound) s (s.after w) := by
    intro w hf hw
    refine Leads.after (fun s' => s'.faults = [] → Grows (kept line.globalBound) s s')
      (Leads.imp hw (fun _ _ hs _ => hs) fun fault s' _ hnil => ?_) hf
    exact absurd (List.append_eq_nil_iff.mp hnil).2 (List.cons_ne_nil _ _)
  refine hends hf ?_
  rw [Line.globalBound]
  cases line.scope with
  | global => exact enters_buildStatement catalog h line.statement
  | voice =>
    have hstatement := stable_voice.moves_buildStatement catalog line.statement s
    refine Leads.imp hstatement (fun _ s' hs => ?_) fun _ _ _ => trivial
    exact .quiet h hs.1 hs.2.1 hs.2.2

theorem grows_buildLines (catalog : Catalog) {s : State α} (h : s.Shared) (lines : List Line)
    (hf : (buildLines catalog s lines).faults = []) :
    Grows (kept (lines.flatMap Line.globalBound)) s (buildLines catalog s lines) := by
  induction lines generalizing s with
  | nil => exact .quiet h List.prefix_rfl rfl rfl
  | cons line rest ih =>
    rw [List.flatMap_cons, kept_append]
    have hline := grows_line catalog h line (faults_buildLines catalog _ rest hf)
    exact hline.trans (ih hline.shared hf)

omit [Arithmetic α] in
private theorem shared_seed (input output : UnitClass) :
    (seed input output : State α).Shared := by
  refine seed_induction input output ⟨fun name v hv => ?_, fun q hq => ?_⟩ ?_
  · cases hv
  · cases hq
  · intro s cls scope name _ h
    have hshapes : (s.add (.fresh cls scope .builtin none)).shapes =
        s.shapes ++ [⟨cls, scope = .voice, none, .builtin⟩] := s.shapes_add _
    have hadd : Grows [] s (s.add (.fresh cls scope .builtin none)) := by
      refine .quiet h ?_ rfl rfl
      rw [hshapes]
      exact List.prefix_append _ _
    cases scope with
    | voice => exact ⟨hadd.shared.global, hadd.shared.parameters⟩
    | global =>
      refine ⟨fun other v hv => ?_, hadd.shared.parameters⟩
      rw [State.withBuiltin, State.shapes_bind]
      rw [State.withBuiltin, State.bind, Table.get?_put] at hv
      split at hv
      · cases hv
        refine .object ⟨⟨cls, false, none, .builtin⟩, ?_, rfl, rfl⟩ none
        rw [hshapes, ← s.length_shapes, List.getElem?_concat_length]
        rfl
      · exact hadd.shared.global other v hv

omit [Arithmetic α] in
private theorem leads_start_shared (catalog : Catalog) :
    Leads (start catalog) (.empty : State α) (fun _ s => s.Shared ∧ s.parameters = []) Any := by
  cases hi : catalog.resolve? Builtin.userInput with
  | none =>
    rw [start, leads_bind, leads_classUnder, hi]
    trivial
  | some input =>
    cases ho : catalog.resolve? Builtin.stereoOutput with
    | none =>
      rw [start, leads_bind, leads_classUnder, hi]
      dsimp only
      rw [leads_bind, leads_classUnder, ho]
      trivial
    | some output => exact (leads_start hi ho).mpr ⟨shared_seed input output, rfl⟩

section Graphs
variable {catalog : Catalog} {o : Options} {program : Program} {g : Graph α}

/-- A graph is made of a state that has grown from one without parameters. -/
private theorem grows_of_build (h : (build catalog o program : Outcome α).graph = some g) :
    ∃ s s' : State α, ((start catalog).run .empty).2 = s ∧ s.parameters = [] ∧
      s' = buildLines catalog s program.lines ∧
      Grows program.globalNames s s' ∧ ∃ order, g = s'.graph o order := by
  have hstart := leads_start_shared (α := α) catalog
  rw [Leads] at hstart
  rw [build] at h
  generalize (start catalog).run (.empty : State α) = started at h hstart ⊢
  rcases started with ⟨fault | _, s⟩
  · cases h
  · obtain ⟨hshared, hnone⟩ := hstart
    obtain ⟨hf, order, _, hg⟩ := State.of_graph_finish h
    exact ⟨s, _, rfl, hnone, rfl, grows_buildLines catalog hshared program.lines hf, order, hg⟩

/-- No parameter of a graph belongs to a voice. All of them are knobs. -/
theorem shared_of_build (h : (build catalog o program : Outcome α).graph = some g) :
    ∀ q ∈ g.parameters, ∃ n, g.nodes[q.object]? = some n ∧ n.className = Builtin.knob ∧
      n.perVoice = false := by
  obtain ⟨_, s, _, _, _, hgrows, order, rfl⟩ := grows_of_build h
  intro q hq
  rw [parameters_graph] at hq
  obtain ⟨x, hx, hknob, hown⟩ := hgrows.shared.parameters q hq
  rw [State.shapes, List.getElem?_map] at hx
  obtain ⟨d, hd, rfl⟩ := Option.map_eq_some_iff.mp hx
  refine ⟨d.finished o, ?_, (className_finished o d).trans hknob, (perVoice_finished o d).trans hown⟩
  rw [State.nodes_graph, List.getElem?_map, hd, Option.map_some]

/-- No parameter of a graph is one of its built-in objects. -/
theorem objectCount_le_of_build
    (h : (build Library.standard.catalog o program : Outcome α).graph = some g) :
    ∀ q ∈ g.parameters, Builtin.objectCount ≤ q.object := by
  intro q hq
  obtain ⟨n, hn, hname, _⟩ := shared_of_build h q hq
  by_contra hlt
  have hkind := congrArg (·[q.object]?) (wellFormed_of_build h).builtins
  rw [List.getElem?_map, List.getElem?_take_of_lt (Nat.lt_of_not_le hlt), hn, Option.map_some,
    hname] at hkind
  have hnone : ∀ kind ∈ builtinKinds, kind.1 ≠ Builtin.knob := by decide
  exact hnone _ (List.mem_of_getElem? hkind.symm) rfl

/-- The parameters are the shared names whose values are knobs, in their order. -/
theorem parameters_of_build
    (hc : (Checking.check Library.standard.catalog program).faults = [])
    (h : (build Library.standard.catalog o program : Outcome α).graph = some g) :
    g.parameters = program.globalNames.filterMap fun name =>
      ((built program : State α).global.get? name).bind (parameterFor? name) := by
  obtain ⟨s, s', rfl, hnone, rfl, ⟨_, _, bindings, hnames, hglobal, hparameters⟩, order, rfl⟩ :=
    grows_of_build h
  have hnodup : (bindings.map Prod.fst).Nodup := hnames ▸ Checking.nodup_globalNames hc
  rw [parameters_graph, hparameters, hnone, List.nil_append, ← hnames, List.filterMap_map]
  refine List.filterMap_congr fun b hb => ?_
  have hvalue : (built program : State α).global.get? b.1 = some b.2 := by
    rw [built, hglobal]
    exact Table.get?_putAll hnodup hb
  show _ = ((built program : State α).global.get? b.1).bind (parameterFor? b.1)
  rw [hvalue, Option.bind_some]

/-- No two parameters have one name. -/
theorem nodup_parameters_of_build
    (hc : (Checking.check Library.standard.catalog program).faults = [])
    (h : (build Library.standard.catalog o program : Outcome α).graph = some g) :
    (g.parameters.map (·.name)).Nodup := by
  rw [parameters_of_build hc h, List.map_filterMap]
  refine (Checking.nodup_globalNames hc).filterMap fun name name' other hname hname' => ?_
  have hsame : ∀ {name : String}, other ∈ (((built program : State α).global.get? name).bind
      (parameterFor? name)).map Parameter.name → other = name := by
    intro name hm
    obtain ⟨q, hq, rfl⟩ := Option.map_eq_some_iff.mp hm
    obtain ⟨v, _, hv⟩ := Option.bind_eq_some_iff.mp hq
    obtain ⟨ref, span, rfl, _, rfl⟩ := parameterFor?_eq_some.mp hv
    rfl
  exact (hsame hname).symm.trans (hsame hname')

end Graphs
end Patchbay.Building
