import Patchbay.Checking.Run
import Patchbay.Proofs.Program.Layout
import Patchbay.Proofs.Table

/-! Checking does not look at places: of a program whose places are forgotten it finds out the same,
with the places forgotten. -/
namespace Patchbay.Checking
variable {α β γ δ : Type}

def Origin.bare : Origin → Origin
  | builtin => builtin
  | declared span => declared span.bare

def Declaration.bare (d : Declaration) : Declaration := ⟨d.origin.bare, d.type⟩

def Names.bare (n : Names) : Names := ⟨n.global.map Declaration.bare, n.voice.map Declaration.bare⟩

/-- What is known, without places. -/
def State.bare (s : State) : State :=
  ⟨s.names.bare, s.types.map fun e => (e.1.bare, e.2), s.faults.map Located.bare⟩

namespace Names

theorem find?_bare (n : Names) (scope : Scope) (name : String) :
    n.bare.find? scope name = (n.find? scope name).map Declaration.bare := by
  cases scope with
  | global => exact Table.get?_map _ _ _
  | voice =>
    rw [find?, find?]
    dsimp only [bare]
    rw [Table.get?_map, Table.get?_map, Option.map_or]

theorem table_bare (n : Names) (scope : Scope) :
    n.bare.table scope = (n.table scope).map Declaration.bare := by
  cases scope <;> rfl

theorem put_bare (n : Names) (scope : Scope) (name : String) (d : Declaration) :
    (n.put scope name d).bare = n.bare.put scope name d.bare := by
  cases scope with
  | global => exact congrArg (Names.mk · n.bare.voice) (Table.map_put _ _ _ _)
  | voice => exact congrArg (Names.mk n.bare.global) (Table.map_put _ _ _ _)

end Names

/-- The second walk finds out without places what the first finds out with them. -/
def Blind (f : α → β) (w : Walk α) (w' : Walk β) : Prop :=
  ∀ s, w'.run s.bare = (f (w.run s).1, (w.run s).2.bare)

section Steps
variable {f : α → β} {w : Walk α} {w' : Walk β}

theorem Blind.pure (value : α) : Blind f (Pure.pure value) (Pure.pure (f value)) := fun _ => rfl

theorem Blind.bind {g : γ → δ} (h : Blind f w w') {next : α → Walk γ} {next' : β → Walk δ}
    (hn : ∀ value, Blind g (next value) (next' (f value))) :
    Blind g (w >>= next) (w' >>= next') := by
  intro s
  have hrun : (w' >>= next').run s.bare =
      (next' (w'.run s.bare).1).run (w'.run s.bare).2 := rfl
  rw [hrun, h s]
  exact hn (w.run s).1 (w.run s).2

/-- What comes next may depend on what is known. -/
theorem Blind.get {next : State → Walk α} {next' : State → Walk β}
    (h : ∀ s, (next' s.bare).run s.bare = (f ((next s).run s).1, ((next s).run s).2.bare)) :
    Blind f (MonadState.get >>= next) (MonadState.get >>= next') := h

theorem blind_report (fault : Fault) (span : Span) :
    Blind id (report fault span) (report fault ⟨0, 0⟩) := by
  intro s
  have hfaults : (s.faults ++ [(⟨fault, some span⟩ : Located Fault)]).map Located.bare =
      s.bare.faults ++ [⟨fault, some ⟨0, 0⟩⟩] := List.map_append
  exact Prod.ext rfl (congrArg (State.mk s.bare.names s.bare.types) hfaults.symm)

theorem blind_require (condition : Bool) (fault : Fault) (span : Span) :
    Blind id (require condition fault span) (require condition fault ⟨0, 0⟩) := by
  rw [require, require]
  split
  · exact .pure ()
  · exact blind_report fault span

theorem blind_note (span : Span) (type : ValueType) :
    Blind id (note span type) (note ⟨0, 0⟩ type) := fun _ => rfl

theorem blind_find (scope : Scope) (ident : Ident) :
    Blind (Option.map Declaration.bare) (find scope ident) (find scope ident.bare) := by
  have hname : ident.bare.isDiscard = ident.isDiscard := rfl
  rw [find, find, hname]
  split
  · exact (blind_report .discardRead ident.span).bind fun _ => .pure none
  · refine Blind.get fun s => ?_
    have hfind : s.bare.names.find? scope ident.bare.name =
        (s.names.find? scope ident.name).map Declaration.bare := Names.find?_bare _ _ _
    rw [hfind]
    cases s.names.find? scope ident.name with
    | some d => rfl
    | none => exact (blind_report (.undefinedName ident.name) ident.span).bind (fun _ => .pure none) s

theorem blind_findObject (catalog : Catalog) (scope : Scope) (part : Part) (object : Ident) :
    Blind id (findObject catalog scope part object)
      (findObject catalog scope part object.bare) := by
  refine (blind_find scope object).bind fun found => ?_
  cases found with
  | none => exact .pure none
  | some d =>
    dsimp only [Option.map_some, Declaration.bare]
    cases d.type.className.bind catalog.resolve? with
    | some c => exact .pure (some c)
    | none => exact (blind_report (.notAnObject part object.name) object.span).bind fun _ => .pure none

theorem blind_define (scope : Scope) (name : Ident) (type : ValueType) :
    Blind id (define scope name type) (define scope name.bare type) := by
  have hname : name.bare.isDiscard = name.isDiscard := rfl
  rw [define, define, hname]
  split
  · exact blind_report .discardDefined name.span
  · refine Blind.get fun s => ?_
    have hcontains : (s.bare.names.table scope).contains name.bare.name =
        (s.names.table scope).contains name.name := by
      rw [State.bare, Names.table_bare, Table.contains_map]
      rfl
    rw [hcontains]
    split
    · exact blind_report (.definedTwice name.name) name.span s
    · exact Prod.ext rfl (congrArg (State.mk · s.bare.types s.bare.faults)
        (Names.put_bare s.names scope name.name ⟨.declared name.span, type⟩).symm)

theorem blind_defineObject (scope : Scope) (name : Option Ident) (type : ValueType) :
    Blind id (defineObject scope name type) (defineObject scope (name.map Ident.bare) type) := by
  cases name with
  | none => exact .pure ()
  | some name =>
    have hname : name.bare.isDiscard = name.isDiscard := rfl
    rw [Option.map_some, defineObject, defineObject, hname]
    split
    · exact .pure ()
    · exact blind_define scope name type

theorem blind_assign (assigned : List String) (socket : String) (fault : Fault) (span : Span) :
    Blind id (assign assigned socket fault span) (assign assigned socket fault ⟨0, 0⟩) :=
  (blind_require _ fault span).bind fun _ => .pure _

/-- The end of a walk over an expression of a known type. -/
theorem blind_typed (type : ValueType) (span : Span) :
    Blind id (do note span type; return type) (do note ⟨0, 0⟩ type; return type) :=
  (blind_note span type).bind fun _ => .pure type

end Steps

theorem countP_bareArgs (args : List (Arg Expr)) :
    (bareArgs args).countP (·.label.isNone) = args.countP (·.label.isNone) := by
  rw [bareArgs_eq_map, List.countP_map]
  refine List.countP_congr fun arg _ => ?_
  rw [Function.comp_apply, Option.isNone_map]

section Args
variable {catalog : Catalog} {scope : Scope} {value : Expr} {rest : List (Arg Expr)}
  {c : UnitClass} {position : Nat}

private theorem blind_positional
    (hv : Blind id (checkExpr catalog scope value) (checkExpr catalog scope value.bare))
    (hr : ∀ assigned, Blind id (checkArgs catalog scope c (position + 1) assigned rest)
      (checkArgs catalog scope c (position + 1) assigned (bareArgs rest)))
    (assigned : List String) :
    Blind id (checkArgs catalog scope c position assigned (⟨none, value⟩ :: rest))
      (checkArgs catalog scope c position assigned (bareArgs (⟨none, value⟩ :: rest))) := by
  rw [bareArgs, Option.map_none, checkArgs, checkArgs, Expr.span_bare]
  refine hv.bind fun type => (blind_require _ _ value.span).bind fun _ => ?_
  cases c.positionalSocket? position with
  | none => exact hr assigned
  | some socket => exact (blind_assign assigned socket _ value.span).bind fun assigned => hr assigned

private theorem blind_labelled {label : Label}
    (hv : Blind id (checkExpr catalog scope value) (checkExpr catalog scope value.bare))
    (hr : ∀ assigned, Blind id (checkArgs catalog scope c position assigned rest)
      (checkArgs catalog scope c position assigned (bareArgs rest))) (assigned : List String) :
    Blind id (checkArgs catalog scope c position assigned (⟨some label, value⟩ :: rest))
      (checkArgs catalog scope c position assigned (bareArgs (⟨some label, value⟩ :: rest))) := by
  have hname : label.bare.socket.name = label.socket.name := rfl
  rw [bareArgs, Option.map_some, checkArgs, checkArgs, Expr.span_bare, hname]
  refine hv.bind fun type => (blind_require _ _ value.span).bind fun _ => ?_
  cases c.canonicalSocket? label.socket.name with
  | none => exact (blind_report _ label.socket.span).bind fun _ => hr assigned
  | some socket => exact (blind_assign assigned socket _ label.span).bind fun assigned => hr assigned

private theorem blind_construction {args : List (Arg Expr)}
    (hargs : ∀ c position assigned, Blind id (checkArgs catalog scope c position assigned args)
      (checkArgs catalog scope c position assigned (bareArgs args)))
    (hvalues : Blind id (checkValues catalog scope args)
      (checkValues catalog scope (bareArgs args)))
    (className : Ident) (name : Option Ident) (span : Span) :
    Blind id (checkConstruction catalog scope ⟨className, name, args, span⟩)
      (checkConstruction catalog scope
        ⟨className.bare, name.map Ident.bare, bareArgs args, ⟨0, 0⟩⟩) := by
  have hname : className.bare.name = className.name := rfl
  rw [checkConstruction, checkConstruction, hname, countP_bareArgs]
  cases catalog.resolve? className.name with
  | none =>
    exact (blind_report _ className.span).bind fun _ => hvalues.bind fun _ => .pure _
  | some c =>
    exact (blind_require _ _ span).bind fun _ => (hargs c 0 []).bind fun _ =>
      (blind_defineObject scope name _).bind fun _ => .pure _

end Args

/-- The arguments of a construction are checked alike where their values are. -/
private theorem blind_args {catalog : Catalog} {scope : Scope} {args : List (Arg Expr)}
    (h : ∀ arg ∈ args, Blind id (checkExpr catalog scope arg.value)
      (checkExpr catalog scope arg.value.bare)) :
    (∀ c position assigned, Blind id (checkArgs catalog scope c position assigned args)
      (checkArgs catalog scope c position assigned (bareArgs args))) ∧
    Blind id (checkValues catalog scope args) (checkValues catalog scope (bareArgs args)) := by
  induction args with
  | nil =>
    refine ⟨fun c position assigned => ?_, ?_⟩
    · rw [bareArgs, checkArgs]
      exact .pure ()
    · rw [bareArgs, checkValues]
      exact .pure ()
  | cons arg rest ih =>
    obtain ⟨label, value⟩ := arg
    have hv := h _ List.mem_cons_self
    have hr := ih fun arg ha => h arg (List.mem_cons_of_mem _ ha)
    refine ⟨fun c position assigned => ?_, ?_⟩
    · cases label with
      | none => exact blind_positional hv (fun assigned => hr.1 c (position + 1) assigned) assigned
      | some label => exact blind_labelled hv (fun assigned => hr.1 c position assigned) assigned
    · rw [bareArgs, checkValues, checkValues]
      exact hv.bind fun _ => hr.2

theorem blind_checkExpr (catalog : Catalog) (scope : Scope) (e : Expr) :
    Blind id (checkExpr catalog scope e) (checkExpr catalog scope e.bare) := by
  induction e using Expr.induction (fun args => ∀ arg ∈ args,
      Blind id (checkExpr catalog scope arg.value) (checkExpr catalog scope arg.value.bare)) with
  | error span =>
    rw [Expr.bare, checkExpr, checkExpr]
    exact blind_typed _ span
  | number value unit span =>
    rw [Expr.bare, checkExpr, checkExpr]
    exact blind_typed _ span
  | unary sign operand span ih =>
    rw [Expr.bare, checkExpr, checkExpr, Expr.span_bare]
    exact ih.bind fun _ => (blind_require _ _ operand.span).bind fun _ => blind_typed _ span
  | binary op left right span ihl ihr =>
    rw [Expr.bare, checkExpr, checkExpr, Expr.span_bare, Expr.span_bare]
    exact ihl.bind fun _ => (blind_require _ _ left.span).bind fun _ =>
      ihr.bind fun _ => (blind_require _ _ right.span).bind fun _ => blind_typed _ span
  | mapping polarity source low high span ihs ihl ihh =>
    rw [Expr.bare, checkExpr, checkExpr, Expr.span_bare, Expr.span_bare, Expr.span_bare]
    exact ihs.bind fun _ => (blind_require _ _ source.span).bind fun _ =>
      ihl.bind fun _ => (blind_require _ _ low.span).bind fun _ =>
        ihh.bind fun _ => (blind_require _ _ high.span).bind fun _ => blind_typed _ span
  | construction className name values span ih =>
    rw [Expr.bare, Construction.bare, checkExpr, checkExpr]
    refine Blind.bind ?_ fun type => blind_typed type span
    exact blind_construction (blind_args ih).1 (blind_args ih).2 className name span
  | socket object socket span =>
    rw [Expr.bare, checkExpr, checkExpr]
    refine (blind_findObject catalog scope .socket object).bind fun found => ?_
    cases found with
    | none => exact blind_typed _ span
    | some c => exact (blind_require _ _ socket.span).bind fun _ => blind_typed _ span
  | output object output span =>
    rw [Expr.bare, checkExpr, checkExpr]
    refine (blind_findObject catalog scope .output object).bind fun found => ?_
    cases found with
    | none => exact blind_typed _ span
    | some c => exact (blind_require _ _ output.span).bind fun _ => blind_typed _ span
  | name ident =>
    rw [Expr.bare, checkExpr, checkExpr]
    refine (blind_find scope ident).bind fun found => ?_
    cases found with
    | none => exact blind_typed _ ident.span
    | some d => exact blind_typed d.type ident.span
  | nil arg ha => exact absurd ha List.not_mem_nil
  | cons label value rest ihv ihr arg ha =>
    rcases List.mem_cons.mp ha with rfl | ha
    · exact ihv
    · exact ihr arg ha

theorem blind_checkConstruction (catalog : Catalog) (scope : Scope) (c : Construction Expr) :
    Blind id (checkConstruction catalog scope c) (checkConstruction catalog scope c.bare) := by
  obtain ⟨className, name, args, span⟩ := c
  have hvalues : ∀ arg ∈ args, Blind id (checkExpr catalog scope arg.value)
      (checkExpr catalog scope arg.value.bare) := fun arg _ => blind_checkExpr catalog scope arg.value
  exact blind_construction (blind_args hvalues).1 (blind_args hvalues).2 className name span

private theorem blind_checkSteps (catalog : Catalog) (scope : Scope) (steps : List Expr) :
    Blind id (checkSteps catalog scope steps)
      (checkSteps catalog scope (steps.map Expr.bare)) := by
  induction steps with
  | nil => exact .pure ()
  | cons step rest ih =>
    rw [List.map_cons, checkSteps, checkSteps, Expr.span_bare]
    exact (blind_checkExpr catalog scope step).bind fun _ =>
      (blind_require _ _ step.span).bind fun _ => (blind_require _ _ step.span).bind fun _ => ih

theorem blind_checkStatement (catalog : Catalog) (scope : Scope) (statement : Statement) :
    Blind id (checkStatement catalog scope statement)
      (checkStatement catalog scope statement.bare) := by
  cases statement with
  | error span => exact .pure ()
  | definition name value span =>
    exact (blind_checkExpr catalog scope value).bind fun type => blind_define scope name type
  | construction c => exact (blind_checkConstruction catalog scope c).bind fun _ => .pure ()
  | chain source steps target span =>
    rw [Statement.bare, checkStatement, checkStatement, Expr.span_bare, Expr.span_bare]
    exact (blind_checkExpr catalog scope source).bind fun _ =>
      (blind_require _ _ source.span).bind fun _ =>
        (blind_checkSteps catalog scope steps).bind fun _ =>
          (blind_checkExpr catalog scope target).bind fun _ => blind_require _ _ target.span

theorem blind_checkLines (catalog : Catalog) (lines : List Line) :
    Blind id (checkLines catalog lines)
      (checkLines catalog (lines.map fun line => ⟨line.scope, line.statement.bare⟩)) := by
  induction lines with
  | nil => exact .pure ()
  | cons line rest ih =>
    exact (blind_checkStatement catalog line.scope line.statement).bind fun _ => ih

/-- What is found out about a program without places is what is found out about the program. -/
theorem check_bare (catalog : Catalog) (program : Program) :
    check catalog program.bare = (check catalog program).bare := by
  have hstart : (⟨.builtin, [], []⟩ : State).bare = ⟨.builtin, [], []⟩ := by
    rw [State.bare, Names.bare, Names.builtin, Table.map_ofList, Table.map_ofList]
    rfl
  have h := blind_checkLines catalog program.lines ⟨.builtin, [], []⟩
  rw [hstart] at h
  exact congrArg Prod.snd h

end Patchbay.Checking
