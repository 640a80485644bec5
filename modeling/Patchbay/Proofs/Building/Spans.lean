import Patchbay.Proofs.Building.Built
import Patchbay.Proofs.Program.Spans

/-! Places that building gives to faults and warnings. Each is a place of the program, or the join of
places that the parts of one value come from. -/
namespace Patchbay.Building
variable {α β γ : Type} {low high : Nat} {s : State α}

/-- The parts of the value come from places between two offsets. -/
def ValueWithin (low high : Nat) (v : Value α) : Prop := ∀ a ∈ v, PlaceWithin low high a.span

theorem ValueWithin.singleton {a : Atom α} (h : PlaceWithin low high a.span) :
    ValueWithin low high [a] := List.forall_mem_singleton.mpr h

/-- A state in which all places lie between two offsets. -/
structure State.Placed (low high : Nat) (s : State α) : Prop where
  objects : ∀ d ∈ s.objects, PlaceWithin low high d.span
  global : ∀ name v, s.global.get? name = some v → ValueWithin low high v
  voice : ∀ name v, s.voice.get? name = some v → ValueWithin low high v
  faults : ∀ f ∈ s.faults, f.Within low high
  warnings : ∀ w ∈ s.warnings, w.Within low high

namespace State.Placed
variable (h : s.Placed low high)
include h

theorem find? {scope : Scope} {name : String} {v : Value α} (hv : s.find? scope name = some v) :
    ValueWithin low high v := by
  cases scope with
  | global => exact h.global name v hv
  | voice =>
    rcases Option.or_eq_some_iff.mp hv with hv | ⟨_, hv⟩
    · exact h.voice name v hv
    · exact h.global name v hv

theorem add (cls : UnitClass) (scope : Scope) (origin : Origin) {span : Option Span}
    (hspan : PlaceWithin low high span) : (s.add (.fresh cls scope origin span)).Placed low high :=
  ⟨List.forall_mem_append.mpr ⟨h.objects, List.forall_mem_singleton.mpr hspan⟩, h.global, h.voice,
    h.faults, h.warnings⟩

theorem mix (object socket : Nat) (more : List (Contribution α)) :
    (s.mix object socket more).Placed low high := by
  refine ⟨fun d hd => ?_, h.global, h.voice, h.faults, h.warnings⟩
  rcases mem_modify hd with hd | ⟨e, he, rfl⟩
  · exact h.objects d hd
  · exact h.objects e he

theorem bind {v : Value α} (hv : ValueWithin low high v) (scope : Scope) (name : String) :
    (s.bind scope name v).Placed low high := by
  have put : ∀ t : Table (Value α), (∀ n w, t.get? n = some w → ValueWithin low high w) →
      ∀ n w, (t.put name v).get? n = some w → ValueWithin low high w := by
    intro t ht n w hw
    rw [Table.get?_put] at hw
    split at hw
    · exact Option.some.inj hw ▸ hv
    · exact ht n w hw
  cases scope with
  | global => exact ⟨h.objects, put _ h.global, h.voice, h.faults, h.warnings⟩
  | voice => exact ⟨h.objects, h.global, put _ h.voice, h.faults, h.warnings⟩

theorem fault {f : Located Fault} (hf : f.Within low high) :
    ({ s with faults := s.faults ++ [f] } : State α).Placed low high :=
  ⟨h.objects, h.global, h.voice,
    List.forall_mem_append.mpr ⟨h.faults, List.forall_mem_singleton.mpr hf⟩, h.warnings⟩

end State.Placed

/-- An expression gives a place to each of its parts, and so do the parts of the parts. -/
def Allowance.within (low high : Nat) : Allowance where
  permits e := e.Nested low high
  names ident := ident.span.Within low high
  place := PlaceWithin low high
  fault f := f.Within low high
  part := by
    intro e part h hpart
    cases e with
    | unary sign operand span => exact List.mem_singleton.mp hpart ▸ h.2.trans h.1
    | binary op left right span =>
      obtain ⟨hspan, hl, hr⟩ := h
      rcases List.mem_pair.mp hpart with rfl | rfl
      · exact hl.trans hspan
      · exact hr.trans hspan
    | mapping polarity source bottom top span =>
      obtain ⟨hspan, hs, hb, ht⟩ := h
      rcases List.mem_cons.mp hpart with rfl | hpart
      · exact hs.trans hspan
      · rcases List.mem_pair.mp hpart with rfl | rfl
        · exact hb.trans hspan
        · exact ht.trans hspan
    | construction c =>
      obtain ⟨className, name, args, span⟩ := c
      obtain ⟨hspan, _, _, hargs⟩ := h
      obtain ⟨arg, harg, rfl⟩ := List.mem_map.mp hpart
      exact (Construction.argsNested_iff.mp hargs arg harg).value.trans hspan
    | _ => exact absurd hpart List.not_mem_nil
  names_of := by
    rintro ⟨className, _, args, span⟩ name ⟨hspan, _, hname, _⟩ rfl
    exact (hname name rfl).trans hspan
  place_of h := placeWithin_some h.span
  place_none := placeWithin_none
  place_join ha hb := placeWithin_some ((ha _ rfl).join (hb _ rfl))
  fault_of_place _ _ h := h
  fault_of_name _ _ h := placeWithin_some h
  fault_of_ident := by
    intro _ e ident h hident
    refine placeWithin_some ?_
    cases e with
    | construction c =>
      obtain ⟨className, name, args, span⟩ := c
      exact List.mem_singleton.mp hident ▸ h.2.1.trans h.1
    | socket object member span =>
      rcases List.mem_pair.mp hident with rfl | rfl
      · exact h.2.1.trans h.1
      · exact h.2.2.trans h.1
    | output object member span =>
      rcases List.mem_pair.mp hident with rfl | rfl
      · exact h.2.1.trans h.1
      · exact h.2.2.trans h.1
    | name other => exact List.mem_singleton.mp hident ▸ h
    | _ => exact absurd hident List.not_mem_nil

theorem Allowance.allows_within {statement : Statement} (h : statement.Nested low high) :
    (within low high).allows statement := by
  cases statement with
  | error span => exact placeWithin_some h
  | definition name value span => exact ⟨h.2.1.trans h.1, h.2.2.trans h.1⟩
  | construction c => exact h
  | chain source steps target span =>
    obtain ⟨hspan, hsource, hsteps, htarget⟩ := h
    refine ⟨hsource.trans hspan, List.forall_mem_append.mpr ⟨fun e he => ?_, ?_⟩⟩
    · exact (hsteps e he).trans hspan
    · exact List.forall_mem_singleton.mpr (htarget.trans hspan)

section Lines
variable [Arithmetic α]

/-- What gives places between two offsets only. -/
def placing (catalog : Catalog) (scope : Scope) (low high : Nat) : Discipline α catalog scope where
  toAllowance := .within low high
  holds := State.Placed low high
  does s changes := (s.changeAll changes).Placed low high
  atom _ a := PlaceWithin low high a.span
  object _ _ := True
  fills _ _ := True
  does_nil h := h
  does_append _ h := by rwa [State.changeAll_append]
  holds_later _ h := h
  atom_later _ h := h
  object_later _ _ := trivial
  place_atom h := h
  atom_find h hv := h.find? hv
  atom_literal _ h := placeWithin_some h
  atom_negated _ h := h
  atom_scaled _ _ h := h
  atom_object _ h := h
  atom_output _ _ _ h := h
  atom_side _ h _ _ := h
  atom_socket _ _ _ h := h
  does_add origin h _ hspan := ⟨h.add _ scope origin hspan, trivial⟩
  fills_object _ := trivial
  does_mix h _ _ := h.mix _ _ _
  does_bind := by
    intro s name v h _ _ hv _
    rw [bindings]
    cases parameterFor? name.name v with
    | none => exact h.bind hv scope name.name
    | some p =>
      have hparameter : (s.change (.parameter p)).Placed low high :=
        ⟨h.objects, h.global, h.voice, h.faults, h.warnings⟩
      exact hparameter.bind hv scope name.name
  does_warn _ h hspan := ⟨h.objects, h.global, h.voice, h.faults,
    List.forall_mem_append.mpr ⟨h.warnings, List.forall_mem_singleton.mpr hspan⟩⟩

/-- The work leads to a state with places between the offsets, and its faults have such places. -/
theorem places_buildStatement (h : s.Placed low high) (catalog : Catalog) (scope : Scope)
    {statement : Statement} (hs : statement.Nested low high) :
    Leads (buildStatement catalog scope statement) s (fun _ s' => s'.Placed low high)
      fun fault s' => s'.Placed low high ∧ fault.Within low high := by
  have hacts := (placing (α := α) catalog scope low high).acts_buildStatement (fun _ _ => trivial)
    (Allowance.allows_within hs) s
  refine Leads.imp (hacts.leads h) ?_ ?_
  · rintro _ _ ⟨⟨changes, hdoes, _, _, rfl⟩, _⟩
    exact hdoes
  · rintro _ _ ⟨⟨changes, hdoes, _, rfl⟩, hfault⟩
    exact ⟨hdoes, hfault⟩

theorem placed_buildLines (catalog : Catalog) {lines : List Line} (h : s.Placed low high)
    (hl : ∀ line ∈ lines, line.statement.Nested low high) :
    (buildLines catalog s lines).Placed low high := by
  induction lines generalizing s with
  | nil => exact h
  | cons line rest ih =>
    obtain ⟨hline, hrest⟩ := List.forall_mem_cons.mp hl
    have hwork := places_buildStatement h catalog line.scope hline
    refine ih (Leads.after (State.Placed low high) (Leads.imp hwork ?_ ?_)) hrest
    · exact fun _ _ hs => hs
    · exact fun _ _ hf => hf.1.fault hf.2

end Lines

theorem placed_empty : (State.empty : State α).Placed low high := by
  constructor <;> simp [State.empty, Table.get?, Table.empty]

/-- The built-in objects have no place. -/
theorem placed_seed (input output : UnitClass) :
    (seed input output : State α).Placed low high := by
  refine seed_induction input output placed_empty fun s cls scope name _ hs => ?_
  exact (hs.add cls scope .builtin placeWithin_none).bind (.singleton placeWithin_none) scope name

theorem places_start (catalog : Catalog) :
    Leads (start catalog) (.empty : State α) (fun _ s => s.Placed low high)
      fun fault _ => fault.Within low high := by
  cases hi : catalog.resolve? Builtin.userInput with
  | none =>
    rw [start, leads_bind, leads_classUnder, hi]
    exact placeWithin_none
  | some input =>
    cases ho : catalog.resolve? Builtin.stereoOutput with
    | none =>
      rw [start, leads_bind, leads_classUnder, hi]
      dsimp only
      rw [leads_bind, leads_classUnder, ho]
      exact placeWithin_none
    | some output => exact (leads_start hi ho).mpr (placed_seed input output)

/-- All there is to say about a graph is said of places between two offsets. -/
structure Outcome.Placed (low high : Nat) (o : Outcome α) : Prop where
  faults : ∀ f ∈ o.faults, f.Within low high
  warnings : ∀ w ∈ o.warnings, w.Within low high

theorem State.Placed.finish (h : s.Placed low high) (o : Options) :
    (s.finish o).Placed low high := by
  rw [State.finish]
  split
  · split
    · next cycle _ =>
      refine ⟨List.forall_mem_singleton.mpr ?_, h.warnings⟩
      intro span hspan
      obtain ⟨d, hd, hspan⟩ := Option.bind_eq_some_iff.mp hspan
      exact h.objects d (List.mem_of_getElem? hd) span hspan
    · refine ⟨List.forall_mem_nil _, List.forall_mem_append.mpr ⟨h.warnings, fun w hw => ?_⟩⟩
      rw [State.unconnected, List.mem_filterMap] at hw
      obtain ⟨⟨d, id⟩, hd, hw⟩ := hw
      have hmem := List.mem_zipIdx_iff_getElem?.mp (List.mem_of_mem_drop hd)
      dsimp only at hw
      split at hw
      · cases hw
      · cases hw
        exact h.objects d (List.mem_of_getElem? hmem)
  · exact ⟨h.faults, h.warnings⟩

/-- Whatever building tells of a program concerns places in it. -/
theorem placed_build [Arithmetic α] (catalog : Catalog) (o : Options) {program : Program}
    (h : ∀ line ∈ program.lines, line.statement.Nested low high) :
    (build catalog o program : Outcome α).Placed low high := by
  have hstart : Leads (start catalog) (.empty : State α) (fun _ s => s.Placed low high)
      fun fault _ => fault.Within low high := places_start catalog
  rw [Leads] at hstart
  rw [build]
  split
  · next fault _ hrun =>
    rw [hrun] at hstart
    exact ⟨List.forall_mem_singleton.mpr hstart, List.forall_mem_nil _⟩
  · next s hrun =>
    rw [hrun] at hstart
    exact (placed_buildLines catalog hstart h).finish o

end Patchbay.Building
