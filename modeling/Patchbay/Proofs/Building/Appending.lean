import Patchbay.Proofs.Building.Built
import Patchbay.Proofs.Building.Export
import Patchbay.Proofs.Building.Frame
import Patchbay.Proofs.Graph.Schedule

/-! Building only appends. Objects stay where they are, sockets gain summands behind those that they
have, and only names that a line binds change, also where its work breaks off. -/
namespace Patchbay
variable {α β γ : Type}

/-- What stands at a place of a list goes on at the same place of another, which may be longer. -/
def Continues (R : β → β → Prop) (l l' : List β) : Prop :=
  ∀ (i : Nat) (b : β), l[i]? = some b → ∃ b', l'[i]? = some b' ∧ R b b'

namespace Continues
variable {R : β → β → Prop} {l l' l'' : List β}

theorem refl (h : ∀ b, R b b) (l : List β) : Continues R l l := fun _ b hb => ⟨b, hb, h b⟩

theorem trans (ht : ∀ {a b c}, R a b → R b c → R a c) (h : Continues R l l')
    (h' : Continues R l' l'') : Continues R l l'' := by
  intro i b hb
  obtain ⟨b', hb', hr⟩ := h i b hb
  obtain ⟨b'', hb'', hr'⟩ := h' i b' hb'
  exact ⟨b'', hb'', ht hr hr'⟩

theorem map {S : γ → γ → Prop} {f : β → γ} (h : Continues R l l')
    (hf : ∀ {a b}, R a b → S (f a) (f b)) : Continues S (l.map f) (l'.map f) := by
  intro i c hc
  rw [List.getElem?_map] at hc
  obtain ⟨b, hb, rfl⟩ := Option.map_eq_some_iff.mp hc
  obtain ⟨b', hb', hr⟩ := h i b hb
  exact ⟨f b', by rw [List.getElem?_map, hb', Option.map_some], hf hr⟩

theorem of_longer (h : ∀ b, R b b) (hl : l <+: l') : Continues R l l' := by
  obtain ⟨more, rfl⟩ := hl
  intro i b hb
  exact ⟨b, by rw [List.getElem?_append_left (List.getElem?_eq_some_iff.mp hb).1, hb], h b⟩

theorem modify (h : ∀ b, R b b) {f : β → β} (hf : ∀ b, R b (f b)) (l : List β) (place : Nat) :
    Continues R l (l.modify place f) := by
  intro i b hb
  refine ⟨if place = i then f b else b, ?_, ?_⟩
  · rw [List.getElem?_modify, hb]
    rfl
  · split
    · exact hf b
    · exact h b

theorem length_le (h : Continues R l l') : l.length ≤ l'.length := by
  by_contra hlt
  have hlt : l'.length < l.length := Nat.lt_of_not_le hlt
  obtain ⟨b', hb', _⟩ := h l'.length _ (List.getElem?_eq_getElem hlt)
  exact absurd (List.getElem?_eq_some_iff.mp hb').1 (Nat.lt_irrefl _)

end Continues

/-- The same finished object, with each socket receiving what it received before and perhaps more
behind it. -/
structure Node.Fills (n n' : Node α) : Prop where
  className : n'.className = n.className
  perVoice : n'.perVoice = n.perVoice
  span : n'.span = n.span
  mixes : List.Forall₂ (fun e e' => e.1 = e'.1 ∧ e.2 <+: e'.2) n.mixes.entries n'.mixes.entries

theorem Node.Fills.stripSpans {n n' : Node α} (h : n.Fills n') :
    n.stripSpans.Fills n'.stripSpans where
  className := h.className
  perVoice := h.perVoice
  span := rfl
  mixes := by
    have hmixes := h.mixes
    simp only [Node.stripSpans, SortedMap.entries_map]
    rw [List.forall₂_map_left_iff, List.forall₂_map_right_iff]
    exact hmixes.imp fun _ _ he => ⟨he.1, he.2.map _⟩

namespace Building

/-- The same object, with each socket receiving what it received before and perhaps more behind
it. -/
structure Draft.Fills (d d' : Draft α) : Prop where
  shape : d'.shape = d.shape
  mixes : List.Forall₂ (· <+: ·) d.mixes d'.mixes

namespace Draft.Fills
variable {d d' d'' : Draft α}

theorem refl (d : Draft α) : d.Fills d :=
  ⟨rfl, List.forall₂_same.mpr fun _ _ => List.prefix_rfl⟩

theorem trans (h : d.Fills d') (h' : d'.Fills d'') : d.Fills d'' := by
  refine ⟨h'.shape.trans h.shape, ?_⟩
  obtain ⟨_, hfirst⟩ := h
  obtain ⟨_, hsecond⟩ := h'
  generalize d.mixes = first at hfirst
  generalize d'.mixes = second at hfirst hsecond
  generalize d''.mixes = third at hsecond
  induction hfirst generalizing third with
  | nil => exact hsecond
  | cons hmix _ ih =>
    obtain ⟨mix, rest, hmix', hrest, rfl⟩ := List.forall₂_cons_left_iff.mp hsecond
    exact .cons (hmix.trans hmix') (ih rest hrest)

/-- A socket gains summands behind those that it has. -/
theorem mix (d : Draft α) (socket : Nat) (more : List (Contribution α)) :
    d.Fills { d with mixes := d.mixes.modify socket (· ++ more) } := by
  refine ⟨rfl, ?_⟩
  show List.Forall₂ _ d.mixes (d.mixes.modify socket (· ++ more))
  generalize d.mixes = mixes
  induction mixes generalizing socket with
  | nil => rw [List.modify_nil]; exact .nil
  | cons mix rest ih =>
    cases socket with
    | zero =>
      exact .cons (List.prefix_append _ _) (List.forall₂_same.mpr fun _ _ => List.prefix_rfl)
    | succ socket => exact .cons List.prefix_rfl (ih socket)

/-- What is read stays read. -/
theorem dependencies_subset (h : d.Fills d') : d.dependencies ⊆ d'.dependencies := by
  intro id hid
  rw [dependencies, List.mem_filterMap] at hid ⊢
  obtain ⟨c, hc, hobject⟩ := hid
  refine ⟨c, ?_, hobject⟩
  obtain ⟨_, hmixes⟩ := h
  generalize d.mixes = mixes at hc hmixes
  generalize d'.mixes = mixes' at hmixes
  induction hmixes with
  | nil => exact hc
  | cons hmix _ ih =>
    rw [List.flatten_cons, List.mem_append] at hc ⊢
    exact hc.imp (hmix.subset ·) ih

end Draft.Fills

/-- The names that lines of a scope can bind. -/
def State.own (s : State α) : Scope → Table (Value α)
  | .global => s.global
  | .voice => s.voice

/-- A state to which only has been added, but for names in the table of a scope. -/
structure Appends (scope : Scope) (names : List String) (s s' : State α) : Prop where
  objects : Continues Draft.Fills s.objects s'.objects
  parameters : s.parameters <+: s'.parameters
  faults : s.faults <+: s'.faults
  warnings : s.warnings <+: s'.warnings
  others : s'.others scope = s.others scope
  own : ∀ name ∉ names, (s'.own scope).get? name = (s.own scope).get? name

namespace Appends
variable {scope : Scope} {names : List String} {s s' s'' : State α}

theorem of_tables (hglobal : s'.global = s.global) (hvoice : s'.voice = s.voice)
    (objects : Continues Draft.Fills s.objects s'.objects)
    (parameters : s.parameters <+: s'.parameters) (faults : s.faults <+: s'.faults)
    (warnings : s.warnings <+: s'.warnings) : Appends scope names s s' where
  objects := objects
  parameters := parameters
  faults := faults
  warnings := warnings
  others := by
    cases scope with
    | global => exact hvoice
    | voice => exact hglobal
  own := fun name _ => by
    cases scope with
    | global => exact congrArg (·.get? name) hglobal
    | voice => exact congrArg (·.get? name) hvoice

theorem refl (s : State α) : Appends scope names s s :=
  .of_tables rfl rfl (.refl Draft.Fills.refl _) List.prefix_rfl List.prefix_rfl List.prefix_rfl

theorem trans (h : Appends scope names s s') (h' : Appends scope names s' s'') :
    Appends scope names s s'' where
  objects := h.objects.trans Draft.Fills.trans h'.objects
  parameters := h.parameters.trans h'.parameters
  faults := h.faults.trans h'.faults
  warnings := h.warnings.trans h'.warnings
  others := h'.others.trans h.others
  own := fun name hname => (h'.own name hname).trans (h.own name hname)

theorem fault (h : Appends scope names s s') (fault : Located Fault) :
    Appends scope names s { s' with faults := s'.faults ++ [fault] } :=
  h.trans (.of_tables rfl rfl (.refl Draft.Fills.refl _) List.prefix_rfl
    (List.prefix_append _ _) List.prefix_rfl)

end Appends

section Changes
variable {r : Reach} {names : List String} {s s' : State α}

theorem own_bind (s : State α) (scope : Scope) (name : String) (value : Value α) :
    (s.change (.bind scope name value)).own scope = (s.own scope).put name value := by
  cases scope <;> rfl

theorem Reaches.appends (hnames : ∀ name, r.names name → name ∈ names) (h : Reaches r s s') :
    Appends r.scope names s s' := by
  refine h.keeps .refl .trans fun s c hc => ?_
  have hs : Appends r.scope names s s := .refl s
  cases c with
  | add d =>
    exact .of_tables rfl rfl (.of_longer Draft.Fills.refl (List.prefix_append _ _)) hs.parameters
      hs.faults hs.warnings
  | mix object socket more =>
    exact .of_tables rfl rfl (.modify Draft.Fills.refl (fun d => .mix d socket more) _ _)
      hs.parameters hs.faults hs.warnings
  | bind scope bound value =>
    obtain ⟨rfl, hbound⟩ := hc
    have hown : ∀ name ∉ names, ((s.change (.bind r.scope bound value)).own r.scope).get? name =
        (s.own r.scope).get? name := by
      intro name hname
      have hne : name ≠ bound := by
        rintro rfl
        exact hname (hnames _ hbound)
      rw [own_bind, Table.get?_put, if_neg hne]
    generalize r.scope = scope at hs hown ⊢
    cases scope with
    | global => exact { hs with others := rfl, own := hown }
    | voice => exact { hs with others := rfl, own := hown }
  | parameter p =>
    exact .of_tables rfl rfl hs.objects (List.prefix_append _ _) hs.faults hs.warnings
  | warning w =>
    exact .of_tables rfl rfl hs.objects hs.parameters hs.faults (List.prefix_append _ _)

private theorem modify_behind {l more : List β} {place : Nat} (h : l.length ≤ place) (f : β → β) :
    (l ++ more).modify place f = l ++ more.modify (place - l.length) f := by
  induction l generalizing place with
  | nil => rfl
  | cons b rest ih =>
    cases place with
    | zero => exact absurd h (Nat.not_succ_le_zero _)
    | succ place => simp [ih (Nat.le_of_succ_le_succ h)]

/-- Objects in front of the reach stay as they are, with what their sockets receive. -/
theorem Reaches.front {front : List (Draft α)} (hfront : front.length ≤ r.first)
    (hs : front <+: s.objects) (h : Reaches r s s') : front <+: s'.objects := by
  refine h.keeps (R := fun s t => front <+: s.objects → front <+: t.objects) (fun _ => id)
    (fun h h' hs => h' (h hs)) (fun s c hc hs => ?_) hs
  cases c with
  | add d => exact hs.trans (List.prefix_append _ _)
  | mix object socket more =>
    obtain ⟨behind, hbehind⟩ := hs
    refine ⟨behind.modify (object - front.length) fun d =>
      { d with mixes := d.mixes.modify socket (· ++ more) }, ?_⟩
    rw [← modify_behind (Nat.le_trans hfront hc), hbehind]
    rfl
  | bind scope name value =>
    cases scope with
    | global => exact hs
    | voice => exact hs
  | parameter p => exact hs
  | warning w => exact hs

end Changes

section Statements
variable [Arithmetic α]

private theorem mem_kept {names : List String} {name : String} (hm : name ∈ names)
    (hne : name ≠ "_") : name ∈ kept names := List.mem_filter.mpr ⟨hm, bne_iff_ne.mpr hne⟩

theorem appends_buildStatement (catalog : Catalog) (scope : Scope) (statement : Statement)
    (s : State α) :
    Appends scope (kept statement.bound) s (s.after (buildStatement catalog scope statement)) := by
  have hreach := reaches_buildStatement (r := ⟨scope, (· ∈ kept statement.bound), 0⟩) catalog rfl
    (fun _ => mem_kept) s
  refine Leads.after _ (Leads.imp hreach (fun _ _ h => h.appends fun _ => id) fun fault _ h => ?_)
  exact (h.appends fun _ => id).fault fault

theorem appends_buildExpr (catalog : Catalog) (scope : Scope) (e : Expr) (s : State α) :
    let s' := ((buildExpr catalog scope e).run s).2
    Appends scope (kept e.bound) s s' ∧ s.objects <+: s'.objects := by
  have hacts := (permitting (α := α) catalog ⟨scope, (· ∈ kept e.bound), s.objects.length⟩).acts_buildExpr
    e s fun _ => mem_kept
  have hleads := hacts.leads (Nat.le_refl _)
  have hboth : ∀ changes : List (Change α),
      (∀ c ∈ changes, c.Permitted ⟨scope, (· ∈ kept e.bound), s.objects.length⟩) →
      Appends scope (kept e.bound) s (s.changeAll changes) ∧
        s.objects <+: (s.changeAll changes).objects := by
    intro changes hdoes
    have hreaches : Reaches ⟨scope, (· ∈ kept e.bound), s.objects.length⟩ s (s.changeAll changes) :=
      ⟨changes, hdoes, rfl⟩
    exact ⟨hreaches.appends fun _ => id, hreaches.front (Nat.le_refl _) List.prefix_rfl⟩
  dsimp only
  rw [Leads] at hleads
  split at hleads
  · next he =>
    obtain ⟨⟨changes, hdoes, _, _, hs'⟩, _⟩ := hleads
    rw [he, hs']
    exact hboth changes hdoes
  · next he =>
    obtain ⟨⟨changes, hdoes, _, hs'⟩, _⟩ := hleads
    rw [he, hs']
    exact hboth changes hdoes

end Statements

/-- Finished objects keep what the objects under construction keep. -/
theorem Draft.Fills.finished {d d' : Draft α} (h : d.Fills d') (o : Options) :
    (d.finished o).Fills (d'.finished o) := by
  obtain ⟨hshape, hmixes⟩ := h
  have hcls : d'.cls = d.cls := congrArg Shape.cls hshape
  have hnode : (d.node o).Fills (d'.node o) := by
    refine ⟨congrArg UnitClass.name hcls, congrArg Shape.perVoice hshape,
      congrArg Shape.span hshape, ?_⟩
    refine SortedMap.forall₂_ofList ?_
    rw [hcls]
    generalize d.cls.sockets = sockets
    generalize d.mixes = mixes at hmixes
    generalize d'.mixes = mixes' at hmixes
    induction hmixes generalizing sockets with
    | nil => simp
    | cons hmix _ ih =>
      cases sockets with
      | nil => exact .nil
      | cons socket sockets =>
        rw [List.zip_cons_cons, List.zip_cons_cons, List.flatMap_cons, List.flatMap_cons]
        refine List.rel_append ?_ (ih sockets)
        rw [List.forall₂_map_left_iff, List.forall₂_map_right_iff]
        exact List.forall₂_same.mpr fun _ _ => ⟨rfl, hmix⟩
  rw [Draft.finished, Draft.finished]
  split
  · exact hnode.stripSpans
  · exact hnode

/-- An object that depends on itself does so with more summands as well. -/
theorem reads_mono {objects objects' : List (Draft α)} (h : Continues Draft.Fills objects objects')
    {i j : Nat} (hr : Graph.Reads (objects.map Draft.dependencies) i j) :
    Graph.Reads (objects'.map Draft.dependencies) i j := by
  obtain ⟨hj, hlt⟩ := hr
  rw [List.length_map] at hlt
  refine ⟨?_, by rw [List.length_map]; exact Nat.lt_of_lt_of_le hlt h.length_le⟩
  rw [List.getD_eq_getElem?_getD, List.getElem?_map] at hj ⊢
  cases hd : objects[i]? with
  | none => simp [hd] at hj
  | some d =>
    obtain ⟨d', hd', hfills⟩ := h i d hd
    rw [hd, Option.map_some, Option.getD_some] at hj
    rw [hd', Option.map_some, Option.getD_some]
    exact hfills.dependencies_subset hj

/-- Objects that can be put into an order can also be put into one before they got more summands. -/
theorem exists_schedule_of_continues {objects objects' : List (Draft α)}
    (h : Continues Draft.Fills objects objects') {root : Nat} {order' : List Nat}
    (hs : Graph.schedule (objects'.map Draft.dependencies) root = .ok order') :
    ∃ order, Graph.schedule (objects.map Draft.dependencies) root = .ok order := by
  cases hr : Graph.schedule (objects.map Draft.dependencies) root with
  | ok order => exact ⟨order, rfl⟩
  | error cycle =>
    obtain ⟨hreached, hcycle⟩ := Graph.cycle_of_schedule hr
    have hroot : root < (objects.map Draft.dependencies).length := by
      by_contra hnot
      rw [Graph.schedule, if_neg hnot] at hr
      cases hr
    have hroot' : root < (objects'.map Draft.dependencies).length := by
      rw [List.length_map] at hroot ⊢
      exact Nat.lt_of_lt_of_le hroot h.length_le
    have hmore : Graph.Reads (objects.map Draft.dependencies) ≤
        Graph.Reads (objects'.map Draft.dependencies) := fun _ _ => reads_mono h
    obtain ⟨_, herror⟩ := (Graph.schedule_eq_error_iff hroot').mpr
      ⟨cycle.object, Relation.ReflTransGen.mono hmore _ _ hreached,
        Relation.TransGen.mono hmore _ _ hcycle⟩
    rw [hs] at herror
    cases herror

section Lines
variable [Arithmetic α]

/-- Lines keep the objects and parameters that there are, whichever scopes they are of. -/
theorem continues_buildLines (catalog : Catalog) (lines : List Line) (s : State α) :
    Continues Draft.Fills s.objects (buildLines catalog s lines).objects ∧
      s.parameters <+: (buildLines catalog s lines).parameters := by
  induction lines generalizing s with
  | nil => exact ⟨.refl Draft.Fills.refl _, List.prefix_rfl⟩
  | cons line rest ih =>
    have hline := appends_buildStatement catalog line.scope line.statement s
    obtain ⟨hobjects, hparameters⟩ :=
      ih (s.after (buildStatement catalog line.scope line.statement))
    exact ⟨hline.objects.trans Draft.Fills.trans hobjects, hline.parameters.trans hparameters⟩

/-- A program without its last lines has a graph if the whole has one, and the whole only adds to
it. -/
theorem build_continues (catalog : Catalog) (o : Options) (before after : List Line) {g' : Graph α}
    (h : (build catalog o ⟨before ++ after⟩).graph = some g') :
    ∃ g, (build catalog o ⟨before⟩).graph = some g ∧ Continues Node.Fills g.nodes g'.nodes ∧
      g.parameters <+: g'.parameters := by
  rw [build] at h ⊢
  generalize (start catalog).run (.empty : State α) = started at h ⊢
  obtain ⟨_ | _, s⟩ := started
  · cases h
  · have hlines : buildLines catalog s (before ++ after) =
        buildLines catalog (buildLines catalog s before) after := List.foldl_append
    dsimp only at h ⊢
    rw [hlines] at h
    obtain ⟨hfaults, order', hs, rfl⟩ := State.of_graph_finish h
    obtain ⟨hobjects, hparameters⟩ :=
      continues_buildLines catalog after (buildLines catalog s before)
    obtain ⟨order, horder⟩ := exists_schedule_of_continues hobjects hs
    refine ⟨(buildLines catalog s before).graph o order, ?_, ?_, ?_⟩
    · rw [State.finish, faults_buildLines catalog _ after hfaults, horder]
      rfl
    · rw [State.nodes_graph, State.nodes_graph]
      exact hobjects.map fun hd => hd.finished o
    · rw [parameters_graph, parameters_graph]
      exact hparameters

/-- Building only adds. Whatever there is and however the work on a statement ends: objects stay at
their places with their classes, what their sockets receive stays in front of what is added there,
parameters, faults and warnings get longer, and no names change but those that the statement binds
in its own scope. An expression leaves all objects that there were as they are. So what the first
lines of a program make is there in the graph of the whole, with nothing lost and in the same
order. -/
theorem building_appends (catalog : Catalog) (scope : Scope) :
    (∀ (statement : Statement) (s : State α), Appends scope (kept statement.bound) s
      (s.after (buildStatement catalog scope statement))) ∧
    (∀ (e : Expr) (s : State α), let s' := ((buildExpr catalog scope e).run s).2
      Appends scope (kept e.bound) s s' ∧ s.objects <+: s'.objects) ∧
    ∀ (o : Options) (before after : List Line) (g' : Graph α),
      (build catalog o ⟨before ++ after⟩).graph = some g' →
        ∃ g, (build catalog o ⟨before⟩).graph = some g ∧ Continues Node.Fills g.nodes g'.nodes ∧
          g.parameters <+: g'.parameters :=
  ⟨appends_buildStatement catalog scope, appends_buildExpr catalog scope,
    fun o before after _ h => build_continues catalog o before after h⟩

end Lines

/-- The lines `Knob a()` and `a => output`, for a knob of any name. -/
def knobLines (name : String) : List Line :=
  [⟨.global, .construction ⟨⟨"Knob", ⟨0, 4⟩⟩, some ⟨name, ⟨5, 6⟩⟩, [], ⟨0, 8⟩⟩⟩,
    ⟨.global, .chain (.name ⟨name, ⟨9, 10⟩⟩) [] (.name ⟨"output", ⟨14, 20⟩⟩) ⟨9, 20⟩⟩]

/-- A second knob is summed behind the first one. -/
theorem building_appends_knobs : ∃ g g' : Graph Float,
    (build Library.standard.catalog .standard ⟨knobLines "a"⟩).graph = some g ∧
      (build Library.standard.catalog .standard ⟨knobLines "a" ++ knobLines "b"⟩).graph = some g' ∧
      Continues Node.Fills g.nodes g'.nodes ∧ g.parameters <+: g'.parameters := by
  have hfaults : (built ⟨knobLines "a" ++ knobLines "b"⟩ : State Float).faults = [] := by
    rw [built_eq]
    rfl
  have hdependencies : (built ⟨knobLines "a" ++ knobLines "b"⟩ : State Float).objects.map
      Draft.dependencies = [[], [], [], [], [10, 11, 10, 11], [], [], [], [], [], [], []] := by
    rw [built_eq]
    rfl
  have hschedule : Graph.schedule [[], [], [], [], [10, 11, 10, 11], [], [], [], [], [], [], []]
      Builtin.outputObject = .ok [10, 11, 4] := by
    show Graph.schedule _ 4 = _
    simp [Graph.schedule, Graph.scheduleFrom]
  have hgraph : (build Library.standard.catalog .standard
      ⟨knobLines "a" ++ knobLines "b"⟩ : Outcome Float).graph =
        some ((built ⟨knobLines "a" ++ knobLines "b"⟩ : State Float).graph .standard
          [10, 11, 4]) := by
    rw [build_standard, State.finish, hfaults, hdependencies, hschedule]
    rfl
  obtain ⟨g, hg, hnodes, hparameters⟩ :=
    (building_appends Library.standard.catalog .global).2.2 .standard _ _ _ hgraph
  exact ⟨g, _, hg, hgraph, hnodes, hparameters⟩

end Building
end Patchbay
