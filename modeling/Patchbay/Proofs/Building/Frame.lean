import Patchbay.Proofs.Building.Discipline

/-! How far work on a statement reaches, and what no line can change. An expression adds objects, fills
the sockets of objects that it added itself, and binds only names of constructions in it. -/
namespace Patchbay.Building
variable {α β : Type}

/-- Where work may leave its marks: the lines it belongs to, the names it may bind, and the first
object whose sockets it may fill. -/
structure Reach where
  scope : Scope
  names : String → Prop
  first : Nat

/-- A change within reach. Only shared lines have parameters. -/
def Change.Permitted (r : Reach) : Change α → Prop
  | .mix object _ _ => r.first ≤ object
  | .bind scope name _ => scope = r.scope ∧ r.names name
  | .parameter _ => r.scope = .global
  | .add _ | .warning _ => True

/-- Nothing but certain names may be bound. The name `_` is never bound. -/
def Allowance.naming (names : String → Prop) : Allowance where
  permits e := ∀ name ∈ e.bound, name ≠ "_" → names name
  names ident := ident.name ≠ "_" → names ident.name
  place _ := True
  fault _ := True
  part h hpart name hname := h name (Expr.bound_of_part hpart hname)
  names_of := by
    rintro ⟨className, _, args, span⟩ name h rfl
    exact h _ (List.mem_append_right _ (List.mem_singleton_self _))
  place_of _ := trivial
  place_none := trivial
  place_join _ _ := trivial
  fault_of_place _ _ _ := trivial
  fault_of_name _ _ _ := trivial
  fault_of_ident _ _ _ _ _ := trivial

theorem Allowance.allows_naming {names : String → Prop} {statement : Statement}
    (h : ∀ name ∈ statement.bound, name ≠ "_" → names name) :
    (naming names).allows statement := by
  cases statement with
  | error span => trivial
  | definition name value span =>
    rw [Statement.bound, List.forall_mem_append] at h
    exact ⟨h.2 _ (List.mem_singleton_self _), h.1⟩
  | construction c => exact h
  | chain source steps target span =>
    rw [Statement.bound, List.forall_mem_append] at h
    exact ⟨h.1, fun e he name hname => h.2 name (List.mem_flatMap_of_mem he hname)⟩

/-- What keeps within reach. -/
def permitting [Arithmetic α] (catalog : Catalog) (r : Reach) : Discipline α catalog r.scope where
  toAllowance := .naming r.names
  holds s := r.first ≤ s.objects.length
  does _ changes := ∀ c ∈ changes, c.Permitted r
  atom _ _ := True
  object _ ref := r.first ≤ ref.id
  fills _ id := r.first ≤ id
  does_nil _ := List.forall_mem_nil _
  does_append h h' := List.forall_mem_append.mpr ⟨h, h'⟩
  holds_later hs _ := by
    rw [State.length_objects_changeAll]
    exact Nat.le_add_right_of_le hs
  atom_later _ _ := trivial
  object_later _ h := h
  place_atom _ := trivial
  atom_find _ _ _ _ := trivial
  atom_literal _ _ := trivial
  atom_negated _ _ := trivial
  atom_scaled _ _ _ := trivial
  atom_object _ _ := trivial
  atom_output _ _ _ _ := trivial
  atom_side _ _ _ _ := trivial
  atom_socket _ _ _ _ := trivial
  does_add _ hs _ _ := ⟨List.forall_mem_singleton.mpr trivial, hs⟩
  fills_object h := h
  does_mix _ h _ := List.forall_mem_singleton.mpr h
  does_bind := by
    intro s name v _ hname hkept _ hvoice
    refine List.forall_mem_append.mpr ⟨fun c hc => ?_, List.forall_mem_singleton.mpr ⟨rfl, ?_⟩⟩
    · obtain ⟨p, hp, rfl⟩ := List.mem_map.mp hc
      cases hscope : r.scope with
      | global => exact hscope
      | voice =>
        rw [hvoice hscope] at hp
        exact absurd hp List.not_mem_nil
    · exact hname fun h => Bool.eq_false_iff.mp hkept (beq_iff_eq.mpr h)
  does_warn _ _ _ := List.forall_mem_singleton.mpr trivial

/-- What may fill all sockets may send values along chains. -/
theorem routes_permitting [Arithmetic α] (catalog : Catalog) {r : Reach} (hall : r.first = 0) :
    (permitting catalog r : Discipline α catalog r.scope).Routes := fun _ _ => by
  show r.first ≤ _
  rw [hall]
  exact Nat.zero_le _

/-- Permitted changes lead from one state to the other. -/
def Reaches (r : Reach) (s s' : State α) : Prop :=
  ∃ changes : List (Change α), (∀ c ∈ changes, c.Permitted r) ∧ s' = s.changeAll changes

/-- What every permitted change keeps, permitted changes keep. -/
theorem Reaches.keeps {r : Reach} {s s' : State α} {R : State α → State α → Prop}
    (hr : ∀ s, R s s) (ht : ∀ {s t u}, R s t → R t u → R s u)
    (hc : ∀ s (c : Change α), c.Permitted r → R s (s.change c)) (h : Reaches r s s') : R s s' := by
  obtain ⟨changes, hall, rfl⟩ := h
  induction changes generalizing s with
  | nil => exact hr s
  | cons c rest ih =>
    obtain ⟨hfirst, hrest⟩ := List.forall_mem_cons.mp hall
    exact ht (hc s c hfirst) (ih hrest)

/-- Whatever the state, and however the work ends, a statement makes permitted changes only. -/
theorem reaches_buildStatement [Arithmetic α] (catalog : Catalog) {r : Reach} (hfirst : r.first = 0)
    {statement : Statement} (hnames : ∀ name ∈ statement.bound, name ≠ "_" → r.names name)
    (s : State α) : Leads (buildStatement catalog r.scope statement) s (fun _ s' => Reaches r s s')
      fun _ s' => Reaches r s s' := by
  have hacts := (permitting catalog r).acts_buildStatement
    (routes_permitting (α := α) catalog hfirst) (Allowance.allows_naming hnames) s
  have hholds : r.first ≤ s.objects.length := hfirst ▸ Nat.zero_le _
  refine Leads.imp (hacts.leads hholds) ?_ ?_
  · rintro _ _ ⟨⟨changes, hdoes, _, _, rfl⟩, _⟩
    exact ⟨changes, hdoes, rfl⟩
  · rintro _ _ ⟨⟨changes, hdoes, _, rfl⟩, _⟩
    exact ⟨changes, hdoes, rfl⟩

theorem modify_append {l more : List β} {i : Nat} (hi : i < l.length) (f : β → β) :
    (l ++ more).modify i f = l.modify i f ++ more := by
  induction l generalizing i with
  | nil => exact absurd hi (Nat.not_lt_zero i)
  | cons b rest ih =>
    cases i with
    | zero => rfl
    | succ i => simp [ih (Nat.lt_of_succ_lt_succ hi)]

section Outside
variable {r : Reach} {changes : List (Change α)} (h : ∀ c ∈ changes, c.Permitted r)
include h

/-- An object in front of the reach may be given summands before the changes or behind them. -/
theorem mix_changeAll {t : State α} {object : Nat} (hobject : object < r.first)
    (hlt : object < t.objects.length) (socket : Nat) (more : List (Contribution α)) :
    (t.mix object socket more).changeAll changes =
      (t.changeAll changes).mix object socket more := by
  induction changes generalizing t with
  | nil => rfl
  | cons c rest ih =>
    obtain ⟨hc, hrest⟩ := List.forall_mem_cons.mp h
    have hstep : (t.mix object socket more).change c = (t.change c).mix object socket more := by
      cases c with
      | add d =>
        simp only [State.change, State.add, State.mix]
        rw [modify_append hlt]
      | mix other place first =>
        have hne := Nat.ne_of_lt (Nat.lt_of_lt_of_le hobject hc)
        simp only [State.change, State.mix]
        rw [List.modify_modify_ne _ _ _ hne]
      | bind scope name value => cases scope <;> rfl
      | parameter p => rfl
      | warning w => rfl
    rw [State.changeAll_cons, State.changeAll_cons, hstep]
    refine ih hrest ?_
    have hgrown := (t.shapes_change c).length_le
    rw [State.length_shapes, State.length_shapes] at hgrown
    exact Nat.lt_of_lt_of_le hlt hgrown

/-- Names outside the reach keep their values. -/
theorem find?_changeAll {name : String} (hname : ¬ r.names name) (t : State α) (scope : Scope) :
    (t.changeAll changes).find? scope name = t.find? scope name := by
  induction changes generalizing t with
  | nil => rfl
  | cons c rest ih =>
    obtain ⟨hc, hrest⟩ := List.forall_mem_cons.mp h
    rw [State.changeAll_cons, ih hrest]
    cases c with
    | bind own bound value =>
      have hne : name ≠ bound := fun heq => hname (heq ▸ hc.2)
      cases own <;> cases scope <;>
        simp [State.change, State.bind, State.find?, Table.get?_put, hne]
    | _ => cases scope <;> rfl

end Outside

/-- A relation that is kept by all that lines of a scope can do to a state. -/
structure Stable (scope : Scope) (R : State α → State α → Prop) : Prop where
  refl : ∀ s, R s s
  trans : ∀ {s t u}, R s t → R t u → R s u
  add : ∀ s d, R s (s.add d)
  mix : ∀ s object socket more, R s (s.mix object socket more)
  bind : ∀ s name value, R s (s.bind scope name value)
  parameters : scope = .global → ∀ s more, R s { s with parameters := s.parameters ++ more }
  warnings : ∀ s more, R s { s with warnings := s.warnings ++ more }

/-- However work on a statement ends, it leads to a state related to the first. -/
theorem Stable.moves_buildStatement [Arithmetic α] {scope : Scope} {R : State α → State α → Prop}
    (h : Stable scope R) (catalog : Catalog) (statement : Statement) (s : State α) :
    Leads (buildStatement catalog scope statement) s (fun _ s' => R s s') fun _ s' => R s s' := by
  have hkept : ∀ s', Reaches ⟨scope, fun _ => True, 0⟩ s s' → R s s' := by
    intro s' hs
    refine hs.keeps h.refl h.trans fun t c hc => ?_
    cases c with
    | add d => exact h.add t d
    | mix object socket more => exact h.mix t object socket more
    | bind own name value =>
      obtain ⟨rfl, _⟩ := hc
      exact h.bind t name value
    | parameter p => exact h.parameters hc t [p]
    | warning w => exact h.warnings t [w]
  have hreach := reaches_buildStatement (r := ⟨scope, fun _ => True, 0⟩) catalog rfl
    (fun name (_ : name ∈ statement.bound) _ => trivial) s
  exact Leads.imp hreach (fun _ => hkept) fun _ => hkept

/-- The names that lines of a scope cannot bind. -/
def State.others (s : State α) : Scope → Table (Value α)
  | .global => s.voice
  | .voice => s.global

/-- Lines of one scope leave the names of the other alone. A statement reports its fault only at
its end. -/
theorem stable_others (scope : Scope) :
    Stable scope fun s s' : State α => s'.others scope = s.others scope ∧ s'.faults = s.faults where
  refl := fun _ => ⟨rfl, rfl⟩
  trans := fun h h' => ⟨h'.1.trans h.1, h'.2.trans h.2⟩
  add := fun _ _ => by cases scope <;> exact ⟨rfl, rfl⟩
  mix := fun _ _ _ _ => by cases scope <;> exact ⟨rfl, rfl⟩
  bind := fun _ _ _ => by cases scope <;> exact ⟨rfl, rfl⟩
  parameters := fun _ _ _ => by cases scope <;> exact ⟨rfl, rfl⟩
  warnings := fun _ _ => by cases scope <;> exact ⟨rfl, rfl⟩

/-- Faults found are never forgotten. -/
theorem faults_buildLines [Arithmetic α] (catalog : Catalog) (s : State α)
    (lines : List Line) (hf : (buildLines catalog s lines).faults = []) : s.faults = [] := by
  induction lines generalizing s with
  | nil => exact hf
  | cons line rest ih =>
    have hframe := (stable_others line.scope).moves_buildStatement catalog line.statement s
    refine Leads.after (fun s' => s'.faults = [] → s.faults = []) (Leads.imp hframe ?_ ?_) (ih _ hf)
    · rintro _ s' ⟨_, hfaults⟩ hnil
      exact hfaults ▸ hnil
    · intro f s' _ hnil
      exact absurd (List.append_eq_nil_iff.mp hnil).2 (List.cons_ne_nil _ _)

end Patchbay.Building
