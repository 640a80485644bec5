import Patchbay.Proofs.Checking.Accord
import Patchbay.Proofs.Program.Parts

/-! Where a check finds nothing wrong, the shared lines bind each name once: every name that is
bound is new. -/
namespace Patchbay

/-- The names that a line binds for all lines to see. -/
def Line.globalBound (line : Line) : List String :=
  match line.scope with
  | .global => line.statement.bound
  | .voice => []

/-- The names that the shared lines of a program bind, in order. -/
def Program.globalNames (program : Program) : List String :=
  kept (program.lines.flatMap Line.globalBound)

/-- A table with some names more, all of them new and none of them twice. -/
structure Table.Gains {α : Type} (t t' : Table α) (names : List String) : Prop where
  nodup : names.Nodup
  new : ∀ name ∈ names, t.contains name = false
  contains : ∀ name, t'.contains name = true ↔ t.contains name = true ∨ name ∈ names

namespace Table.Gains
variable {α : Type} {t t₁ t₂ : Table α} {first second : List String}

theorem refl : t.Gains t [] :=
  ⟨List.nodup_nil, fun _ h => absurd h List.not_mem_nil, fun name => by simp⟩

theorem trans (h : t.Gains t₁ first) (h' : t₁.Gains t₂ second) : t.Gains t₂ (first ++ second) := by
  have hnew : ∀ name ∈ second, name ∉ first ∧ t.contains name = false := by
    intro name hname
    have hnone : ¬ (t.contains name = true ∨ name ∈ first) := by
      rw [← h.contains, h'.new name hname]
      exact Bool.false_ne_true
    exact ⟨fun hm => hnone (.inr hm), Bool.eq_false_iff.mpr fun hm => hnone (.inl hm)⟩
  refine ⟨List.nodup_append.mpr ⟨h.nodup, h'.nodup, ?_⟩, ?_, fun name => ?_⟩
  · rintro name hfirst _ hsecond rfl
    exact (hnew name hsecond).1 hfirst
  · intro name hm
    exact (List.mem_append.mp hm).elim (h.new name) fun hm => (hnew name hm).2
  · rw [h'.contains, h.contains, List.mem_append, or_assoc]

theorem put {name : String} (h : t.contains name = false) (value : α) :
    t.Gains (t.put name value) [name] := by
  refine ⟨List.nodup_singleton name, ?_, fun other => ?_⟩
  · intro other hm
    rwa [List.mem_singleton.mp hm]
  · rw [Table.contains, get?_put, List.mem_singleton]
    by_cases heq : other = name
    · simp [heq]
    · simp [heq, Table.contains]

end Table.Gains

namespace Checking
variable {catalog : Catalog} {scope : Scope}

theorem Names.table_put (names : Names) (scope : Scope) (name : String) (d : Declaration) :
    (names.put scope name d).table scope = (names.table scope).put name d := by
  cases scope <;> rfl

/-- What lines of a scope bind is new in its table, and the other table stays. -/
structure Names.Gains (scope : Scope) (bound : List String) (names names' : Names) : Prop where
  own : (names.table scope).Gains (names'.table scope) (kept bound)
  others : names'.others scope = names.others scope

namespace Names.Gains
variable {names names₁ names₂ : Names} {first second : List String}

theorem refl : names.Gains scope [] names := ⟨.refl, rfl⟩

theorem trans (h : names.Gains scope first names₁) (h' : names₁.Gains scope second names₂) :
    names.Gains scope (first ++ second) names₂ :=
  ⟨kept_append first second ▸ h.own.trans h'.own, h'.others.trans h.others⟩

end Names.Gains

private abbrev FindsNew (catalog : Catalog) (scope : Scope) (e : Expr) : Prop :=
  Finds (checkExpr catalog scope e) fun names _ names' => names.Gains scope e.bound names'

private abbrev FindsNewArgs (catalog : Catalog) (scope : Scope) (args : List (Arg Expr)) : Prop :=
  (∀ c position assigned, Finds (checkArgs catalog scope c position assigned args)
    fun names _ names' => names.Gains scope (Construction.boundArgs args) names') ∧
  Finds (checkValues catalog scope args) fun _ _ _ => True

private theorem new_operand {e : Expr} (h : FindsNew catalog scope e) (fault : Fault)
    (span : Span) :
    Finds (do
      let type ← checkExpr catalog scope e
      require type.direction.output fault span) fun names _ names' =>
        names.Gains scope e.bound names' :=
  h.still fun type => finds_required type.direction.output fault span

/-- A name that is bound without a fault is new. -/
private theorem new_define (name : Ident) (type : ValueType) :
    Finds (define scope name type) fun names _ names' =>
      names.Gains scope [name.name] names' := by
  cases hd : name.isDiscard with
  | true =>
    rw [define, if_pos hd]
    exact (finds_report _ _).imp fun _ _ _ h => h.elim
  | false =>
    refine (finds_define_new scope name type).imp ?_
    rintro names _ _ ⟨hnew, rfl⟩
    rw [Names.settle, hnew, if_neg Bool.false_ne_true]
    refine ⟨?_, Names.others_put ..⟩
    rw [Names.table_put, kept_name, hd, if_neg Bool.false_ne_true]
    exact .put hnew _

private theorem new_defineObject (name : Option Ident) (type : ValueType) :
    Finds (defineObject scope name type) fun names _ names' =>
      names.Gains scope (name.map Ident.name).toList names' := by
  cases name with
  | none =>
    refine (finds_still ()).imp ?_
    rintro names _ _ rfl
    exact .refl
  | some name =>
    rw [defineObject]
    split
    · next hd =>
      refine (finds_still ()).imp ?_
      rintro names _ _ rfl
      refine ⟨?_, rfl⟩
      rw [Option.map_some, Option.toList_some, kept_name, if_pos hd]
      exact .refl
    · exact new_define name type

private theorem new_args {label : Option Label} {value : Expr} {rest : List (Arg Expr)}
    (hv : FindsNew catalog scope value) (hr : FindsNewArgs catalog scope rest) :
    FindsNewArgs catalog scope (⟨label, value⟩ :: rest) := by
  refine ⟨fun c position assigned => ?_, ?_⟩
  · have assigning : ∀ (socket : String) (fault : Fault) (span : Span) (position : Nat),
        Finds (do
          let assigned ← assign assigned socket fault span
          checkArgs catalog scope c position assigned rest) fun names _ names' =>
            names.Gains scope (Construction.boundArgs rest) names' := by
      intro socket fault span position
      refine ((finds_assign assigned socket fault span).seq fun assigned =>
        hr.1 c position assigned).imp ?_
      rintro names _ names' ⟨_, rfl, hrest⟩
      exact hrest
    have joined : ∀ names names' : Names, (∃ names₁, names.Gains scope value.bound names₁ ∧
        ∃ names₂, names₂ = names₁ ∧ names₂.Gains scope (Construction.boundArgs rest) names') →
          names.Gains scope (Construction.boundArgs (⟨label, value⟩ :: rest)) names' := by
      rintro names names' ⟨_, hvalue, _, rfl, hrest⟩
      exact hvalue.trans hrest
    cases label with
    | none =>
      rw [checkArgs]
      refine (hv.seq fun type => (finds_required type.direction.output _ _).seq fun _ =>
        (?_ : Finds _ fun names _ names' =>
          names.Gains scope (Construction.boundArgs rest) names')).imp
            fun names _ names' => joined names names'
      dsimp only
      split
      · exact hr.1 c (position + 1) assigned
      · exact assigning _ _ _ (position + 1)
    | some label =>
      rw [checkArgs]
      refine (hv.seq fun type => (finds_required type.direction.output _ _).seq fun _ =>
        (?_ : Finds _ fun names _ names' =>
          names.Gains scope (Construction.boundArgs rest) names')).imp
            fun names _ names' => joined names names'
      dsimp only
      split
      · refine ((finds_report _ _).seq fun _ => hr.1 c position assigned).imp ?_
        rintro names _ names' ⟨_, hfalse, _⟩
        exact hfalse.elim
      · exact assigning _ _ _ position
  · rw [checkValues]
    exact (hv.bind fun _ => hr.2).imp fun _ _ _ _ => trivial

private theorem new_construction {args : List (Arg Expr)} (h : FindsNewArgs catalog scope args)
    (className : Ident) (name : Option Ident) (span : Span) :
    Finds (checkConstruction catalog scope ⟨className, name, args, span⟩) fun names _ names' =>
      names.Gains scope (Construction.bound ⟨className, name, args, span⟩) names' := by
  rw [checkConstruction]
  -- A class that nobody knows is a fault, so there is nothing to show of its names.
  split
  · refine ((finds_report _ _).bind fun _ => h.2.bind fun _ => finds_pure _).imp ?_
    rintro names _ _ ⟨_, _, hfalse, _⟩
    exact hfalse.elim
  · refine ((finds_required _ _ _).seq fun _ => (h.1 _ 0 []).seq fun _ =>
      (new_defineObject name _).still fun _ => finds_still _).imp ?_
    rintro names _ names' ⟨_, rfl, _, hargs, hname⟩
    exact hargs.trans hname

/-- All names that an expression binds are new. -/
private theorem new_checkExpr (e : Expr) : FindsNew catalog scope e := by
  induction e using Expr.induction (FindsNewArgs catalog scope) with
  | error span =>
    rw [FindsNew, checkExpr]
    refine finds_noted _ ((finds_still _).imp ?_)
    rintro names _ _ rfl
    exact .refl
  | number value unit span =>
    rw [FindsNew, checkExpr]
    refine finds_noted _ ((finds_still _).imp ?_)
    rintro names _ _ rfl
    exact .refl
  | unary sign operand span ih =>
    rw [FindsNew, checkExpr]
    exact finds_noted _ ((new_operand ih _ _).still fun _ => finds_still _)
  | binary op left right span ihl ihr =>
    rw [FindsNew, checkExpr]
    refine finds_noted _ (((new_operand ihl _ _).seq fun _ =>
      (new_operand ihr _ _).still fun _ => finds_still _).imp ?_)
    rintro names _ names' ⟨_, hl, hr⟩
    exact hl.trans hr
  | mapping polarity source low high span ihs ihl ihh =>
    rw [FindsNew, checkExpr]
    refine finds_noted _ (((new_operand ihs _ _).seq fun _ => (new_operand ihl _ _).seq fun _ =>
      (new_operand ihh _ _).still fun _ => finds_still _).imp ?_)
    rintro names _ names' ⟨_, hs, _, hl, hh⟩
    exact hs.trans (hl.trans hh)
  | construction className name values span ih =>
    rw [FindsNew, checkExpr]
    exact finds_noted _ (new_construction ih className name span)
  | socket object socket span =>
    rw [FindsNew, checkExpr]
    refine ((finds_findObject catalog scope .socket object).found (q := fun _ names _ names' =>
      names' = names) ?_ fun c => ?_).imp ?_
    · exact finds_noted span ((finds_pure ValueType.sink).imp fun _ _ _ _ => trivial)
    · exact finds_noted span ((finds_checked (c.hasSocket socket.name) _ _ ValueType.sink).imp
        fun _ _ _ h => h.2.2)
    · rintro names _ _ ⟨_, _, rfl⟩
      exact .refl
  | output object output span =>
    rw [FindsNew, checkExpr]
    refine ((finds_findObject catalog scope .output object).found (q := fun _ names _ names' =>
      names' = names) ?_ fun c => ?_).imp ?_
    · exact finds_noted span ((finds_pure ValueType.source).imp fun _ _ _ _ => trivial)
    · exact finds_noted span ((finds_checked (c.hasOutput output.name) _ _ ValueType.source).imp
        fun _ _ _ h => h.2.2)
    · rintro names _ _ ⟨_, _, rfl⟩
      exact .refl
  | name ident =>
    rw [FindsNew, checkExpr]
    refine ((finds_find scope ident).found (q := fun _ names _ names' => names' = names) ?_
      fun d => ?_).imp ?_
    · exact finds_noted ident.span ((finds_pure ValueType.unknown).imp fun _ _ _ _ => trivial)
    · exact finds_noted ident.span (finds_still d.type)
    · rintro names _ _ ⟨_, _, rfl⟩
      exact .refl
  | nil =>
    refine ⟨fun c position assigned => ?_, ?_⟩
    · rw [checkArgs]
      refine (finds_still ()).imp ?_
      rintro names _ _ rfl
      exact .refl
    · rw [checkValues]
      exact (finds_pure ()).imp fun _ _ _ _ => trivial
  | cons label value rest ihv ihr => exact new_args ihv ihr

private theorem new_checkSteps (steps : List Expr) :
    Finds (checkSteps catalog scope steps) fun names _ names' =>
      names.Gains scope (steps.flatMap Expr.bound) names' := by
  induction steps with
  | nil =>
    refine (finds_still ()).imp ?_
    rintro names _ _ rfl
    exact .refl
  | cons step rest ih =>
    rw [checkSteps]
    refine ((new_checkExpr step).seq fun type =>
      (finds_required type.direction.input _ _).seq fun _ =>
        (finds_required type.direction.output _ _).seq fun _ => ih).imp ?_
    rintro names _ names' ⟨_, hstep, _, rfl, _, rfl, hrest⟩
    exact hstep.trans hrest

theorem new_checkStatement (statement : Statement) :
    Finds (checkStatement catalog scope statement) fun names _ names' =>
      names.Gains scope statement.bound names' := by
  cases statement with
  | error span =>
    refine (finds_still ()).imp ?_
    rintro names _ _ rfl
    exact .refl
  | definition name value span =>
    refine ((new_checkExpr value).seq fun type => new_define name type).imp ?_
    rintro names _ names' ⟨_, hvalue, hname⟩
    exact hvalue.trans hname
  | construction c =>
    have hc : Finds (checkConstruction catalog scope c) fun names _ names' =>
        names.Gains scope c.bound names' := by
      have hnoted : FindsNew catalog scope (.construction c) := new_checkExpr _
      rw [FindsNew, checkExpr] at hnoted
      exact hnoted
    exact hc.still fun _ => finds_still ()
  | chain source steps target span =>
    refine ((new_checkExpr source).seq fun type =>
      (finds_required type.direction.output _ _).seq fun _ =>
        (new_checkSteps steps).seq fun _ => (new_checkExpr target).still fun last =>
          finds_required last.direction.input _ _).imp ?_
    rintro names _ names' ⟨_, hsource, _, rfl, _, hsteps, htarget⟩
    rw [Statement.bound, List.flatMap_append, List.flatMap_singleton]
    exact hsource.trans (hsteps.trans htarget)

/-- The shared names that lines bind are new. Lines of the voice block bind none. -/
private theorem new_checkLines (lines : List Line) :
    Finds (checkLines catalog lines) fun names _ names' =>
      names.global.Gains names'.global (kept (lines.flatMap Line.globalBound)) := by
  induction lines with
  | nil =>
    refine (finds_still ()).imp ?_
    rintro names _ _ rfl
    exact .refl
  | cons line rest ih =>
    have hline : Finds (checkStatement catalog line.scope line.statement) fun names _ names' =>
        names.global.Gains names'.global (kept line.globalBound) := by
      refine (new_checkStatement line.statement).imp fun names _ names' h => ?_
      rw [Line.globalBound]
      cases hscope : line.scope with
      | global =>
        rw [hscope] at h
        exact h.own
      | voice =>
        rw [hscope] at h
        have hsame : names'.global = names.global := h.others
        rw [hsame]
        exact .refl
    rw [checkLines]
    refine (hline.seq fun _ => ih).imp ?_
    rintro names _ names' ⟨_, hfirst, hrest⟩
    rw [List.flatMap_cons, kept_append]
    exact hfirst.trans hrest

/-- A program without faults binds no name twice in its shared lines. -/
theorem nodup_globalNames {program : Program} (h : (check catalog program).faults = []) :
    program.globalNames.Nodup :=
  ((new_checkLines program.lines ⟨.builtin, [], []⟩).2 h).nodup

end Checking
end Patchbay
