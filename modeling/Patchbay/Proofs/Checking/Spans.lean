import Patchbay.Checking.Run
import Patchbay.Proofs.Program.Induction
import Patchbay.Proofs.Program.Spans

/-! Places that a check gives to faults and types. They are places of the program, so that they lie
in the text if those do. -/
namespace Patchbay.Checking
variable {α β : Type} {low high : Nat}

/-- What was found out concerns places between two offsets. -/
structure State.Placed (low high : Nat) (s : State) : Prop where
  faults : ∀ f ∈ s.faults, f.Within low high
  types : ∀ entry ∈ s.types, entry.1.Within low high

/-- The walk adds only places between the offsets. -/
def Keeps (low high : Nat) (w : Walk α) : Prop :=
  ∀ s, s.Placed low high → (w.run s).2.Placed low high

namespace Keeps
variable {w : Walk α}

theorem pure (value : α) : Keeps low high (Pure.pure value : Walk α) := fun _ h => h

theorem bind (h : Keeps low high w) {next : α → Walk β} (hn : ∀ value, Keeps low high (next value)) :
    Keeps low high (w >>= next) := fun s hs => hn (w.run s).1 _ (h s hs)

theorem get {next : State → Walk β} (h : ∀ s, Keeps low high (next s)) :
    Keeps low high (MonadState.get >>= next) := fun s hs => h s s hs

end Keeps

theorem keeps_report (fault : Fault) {span : Span} (h : span.Within low high) :
    Keeps low high (report fault span) := fun _ hs =>
  ⟨List.forall_mem_append.mpr ⟨hs.faults, List.forall_mem_singleton.mpr (placeWithin_some h)⟩,
    hs.types⟩

theorem keeps_require (condition : Bool) (fault : Fault) {span : Span} (h : span.Within low high) :
    Keeps low high (require condition fault span) := by
  rw [require]
  split
  · exact .pure ()
  · exact keeps_report fault h

theorem keeps_note {span : Span} (h : span.Within low high) (type : ValueType) :
    Keeps low high (note span type) := fun _ hs =>
  ⟨hs.faults, List.forall_mem_cons.mpr ⟨h, hs.types⟩⟩

theorem keeps_find (scope : Scope) {ident : Ident} (h : ident.span.Within low high) :
    Keeps low high (find scope ident) := by
  rw [find]
  split
  · exact (keeps_report _ h).bind fun _ => .pure none
  · refine Keeps.get fun s => ?_
    split
    · exact .pure _
    · exact (keeps_report _ h).bind fun _ => .pure none

theorem keeps_findObject (catalog : Catalog) (scope : Scope) (part : Part) {object : Ident}
    (h : object.span.Within low high) : Keeps low high (findObject catalog scope part object) := by
  refine (keeps_find scope h).bind fun found => ?_
  split
  · exact .pure none
  · split
    · exact .pure _
    · exact (keeps_report _ h).bind fun _ => .pure none

theorem keeps_define (scope : Scope) {name : Ident} (h : name.span.Within low high)
    (type : ValueType) : Keeps low high (define scope name type) := by
  rw [define]
  split
  · exact keeps_report _ h
  · refine Keeps.get fun s => ?_
    split
    · exact keeps_report _ h
    · exact fun _ hs => ⟨hs.faults, hs.types⟩

theorem keeps_defineObject (scope : Scope) {name : Option Ident}
    (h : ∀ ident ∈ name, ident.span.Within low high) (type : ValueType) :
    Keeps low high (defineObject scope name type) := by
  cases name with
  | none => exact .pure ()
  | some name =>
    rw [defineObject]
    split
    · exact .pure ()
    · exact keeps_define scope (h name rfl) type

theorem keeps_assign (assigned : List String) (socket : String) (fault : Fault) {span : Span}
    (h : span.Within low high) : Keeps low high (assign assigned socket fault span) :=
  (keeps_require _ fault h).bind fun _ => .pure _

/-- The end of a walk over an expression of a known type. -/
theorem keeps_typed {span : Span} (h : span.Within low high) (type : ValueType) :
    Keeps low high (do note span type; return type) := (keeps_note h type).bind fun _ => .pure type

section Args
variable {catalog : Catalog} {scope : Scope} {value : Expr} {rest : List (Arg Expr)}
  {c : UnitClass} {position : Nat}

private theorem keeps_positional (h : value.Nested low high)
    (hv : Keeps low high (checkExpr catalog scope value))
    (hr : ∀ assigned, Keeps low high (checkArgs catalog scope c (position + 1) assigned rest))
    (assigned : List String) :
    Keeps low high (checkArgs catalog scope c position assigned (⟨none, value⟩ :: rest)) := by
  rw [checkArgs]
  refine hv.bind fun type => (keeps_require _ _ h.span).bind fun _ => ?_
  cases c.positionalSocket? position with
  | none => exact hr assigned
  | some socket => exact (keeps_assign assigned socket _ h.span).bind fun assigned => hr assigned

private theorem keeps_labelled {label : Label} (h : Arg.Nested low high ⟨some label, value⟩)
    (hv : Keeps low high (checkExpr catalog scope value))
    (hr : ∀ assigned, Keeps low high (checkArgs catalog scope c position assigned rest))
    (assigned : List String) :
    Keeps low high (checkArgs catalog scope c position assigned (⟨some label, value⟩ :: rest)) := by
  obtain ⟨hlabel, hsocket, hvalue⟩ := h
  rw [checkArgs]
  refine hv.bind fun type => (keeps_require _ _ (hvalue.trans hlabel).span).bind fun _ => ?_
  cases c.canonicalSocket? label.socket.name with
  | none => exact (keeps_report _ (hsocket.trans hlabel)).bind fun _ => hr assigned
  | some socket => exact (keeps_assign assigned socket _ hlabel).bind fun assigned => hr assigned

end Args

/-- The arguments of a construction are checked in places if their values are. -/
private theorem keeps_args {catalog : Catalog} {scope : Scope} {args : List (Arg Expr)}
    (h : ∀ arg ∈ args, arg.Nested low high)
    (hv : ∀ arg ∈ args, Keeps low high (checkExpr catalog scope arg.value)) :
    (∀ c position assigned, Keeps low high (checkArgs catalog scope c position assigned args)) ∧
      Keeps low high (checkValues catalog scope args) := by
  induction args with
  | nil =>
    refine ⟨fun c position assigned => ?_, ?_⟩
    · rw [checkArgs]
      exact .pure ()
    · rw [checkValues]
      exact .pure ()
  | cons arg rest ih =>
    obtain ⟨label, value⟩ := arg
    obtain ⟨harg, hrest⟩ := List.forall_mem_cons.mp h
    obtain ⟨hvalue, hvalues⟩ := List.forall_mem_cons.mp hv
    obtain ⟨hargs, hall⟩ := ih hrest hvalues
    refine ⟨fun c position assigned => ?_, ?_⟩
    · cases label with
      | none => exact keeps_positional harg hvalue (hargs c (position + 1)) assigned
      | some label => exact keeps_labelled harg hvalue (hargs c position) assigned
    · rw [checkValues]
      exact hvalue.bind fun _ => hall

private theorem keeps_construction {catalog : Catalog} {scope : Scope} {c : Construction Expr}
    (h : c.Nested low high)
    (hv : ∀ arg ∈ c.args, Keeps low high (checkExpr catalog scope arg.value)) :
    Keeps low high (checkConstruction catalog scope c) := by
  obtain ⟨className, name, args, span⟩ := c
  obtain ⟨hspan, hclass, hname, hnested⟩ := h
  obtain ⟨hargs, hvalues⟩ := keeps_args
    (Construction.argsNested_iff.mp (hnested.mono hspan.start hspan.stop)) hv
  rw [checkConstruction]
  cases catalog.resolve? className.name with
  | none =>
    exact (keeps_report _ (hclass.trans hspan)).bind fun _ => hvalues.bind fun _ => .pure _
  | some found =>
    exact (keeps_require _ _ hspan).bind fun _ => (hargs found 0 []).bind fun _ =>
      (keeps_defineObject scope (fun ident hi => (hname ident hi).trans hspan) _).bind fun _ =>
        .pure _

theorem keeps_checkExpr (catalog : Catalog) (scope : Scope) (e : Expr) :
    e.Nested low high → Keeps low high (checkExpr catalog scope e) := by
  induction e using Expr.induction (fun args => ∀ arg ∈ args,
      arg.value.Nested low high → Keeps low high (checkExpr catalog scope arg.value)) with
  | error span =>
    intro h
    rw [checkExpr]
    exact keeps_typed h _
  | number value unit span =>
    intro h
    rw [checkExpr]
    exact keeps_typed h _
  | unary sign operand span ih =>
    rintro ⟨hspan, ho⟩
    have ho := ho.trans hspan
    rw [checkExpr]
    exact (ih ho).bind fun _ => (keeps_require _ _ ho.span).bind fun _ => keeps_typed hspan _
  | binary op left right span ihl ihr =>
    rintro ⟨hspan, hl, hr⟩
    have hl := hl.trans hspan
    have hr := hr.trans hspan
    rw [checkExpr]
    exact (ihl hl).bind fun _ => (keeps_require _ _ hl.span).bind fun _ =>
      (ihr hr).bind fun _ => (keeps_require _ _ hr.span).bind fun _ => keeps_typed hspan _
  | mapping polarity source bottom top span ihs ihb iht =>
    rintro ⟨hspan, hs, hb, ht⟩
    have hs := hs.trans hspan
    have hb := hb.trans hspan
    have ht := ht.trans hspan
    rw [checkExpr]
    exact (ihs hs).bind fun _ => (keeps_require _ _ hs.span).bind fun _ =>
      (ihb hb).bind fun _ => (keeps_require _ _ hb.span).bind fun _ =>
        (iht ht).bind fun _ => (keeps_require _ _ ht.span).bind fun _ => keeps_typed hspan _
  | construction className name args span ih =>
    intro h
    have hargs := Construction.argsNested_iff.mp h.2.2.2
    rw [checkExpr]
    refine Keeps.bind (keeps_construction h fun arg ha => ?_) fun type => keeps_typed h.1 type
    exact ih arg ha ((hargs arg ha).value.trans h.1)
  | socket object socket span =>
    rintro ⟨hspan, ho, hm⟩
    rw [checkExpr]
    refine (keeps_findObject catalog scope .socket (ho.trans hspan)).bind fun found => ?_
    cases found with
    | none => exact keeps_typed hspan _
    | some c => exact (keeps_require _ _ (hm.trans hspan)).bind fun _ => keeps_typed hspan _
  | output object output span =>
    rintro ⟨hspan, ho, hm⟩
    rw [checkExpr]
    refine (keeps_findObject catalog scope .output (ho.trans hspan)).bind fun found => ?_
    cases found with
    | none => exact keeps_typed hspan _
    | some c => exact (keeps_require _ _ (hm.trans hspan)).bind fun _ => keeps_typed hspan _
  | name ident =>
    intro h
    rw [checkExpr]
    refine (keeps_find scope h).bind fun found => ?_
    cases found with
    | none => exact keeps_typed h _
    | some d => exact keeps_typed h d.type
  | nil arg ha => exact absurd ha List.not_mem_nil
  | cons label value rest ihv ihr arg ha h =>
    rcases List.mem_cons.mp ha with rfl | ha
    · exact ihv h
    · exact ihr arg ha h

private theorem keeps_checkSteps (catalog : Catalog) (scope : Scope) {steps : List Expr}
    (h : ∀ step ∈ steps, step.Nested low high) : Keeps low high (checkSteps catalog scope steps) := by
  induction steps with
  | nil => exact .pure ()
  | cons step rest ih =>
    obtain ⟨hstep, hrest⟩ := List.forall_mem_cons.mp h
    rw [checkSteps]
    exact (keeps_checkExpr catalog scope step hstep).bind fun _ =>
      (keeps_require _ _ hstep.span).bind fun _ =>
        (keeps_require _ _ hstep.span).bind fun _ => ih hrest

theorem keeps_checkStatement (catalog : Catalog) (scope : Scope) {statement : Statement}
    (h : statement.Nested low high) : Keeps low high (checkStatement catalog scope statement) := by
  cases statement with
  | error span => exact .pure ()
  | definition name value span =>
    obtain ⟨hspan, hname, hvalue⟩ := h
    exact (keeps_checkExpr catalog scope value (hvalue.trans hspan)).bind fun type =>
      keeps_define scope (hname.trans hspan) type
  | construction c =>
    have hargs : ∀ arg ∈ c.args, arg.value.Nested low high := by
      obtain ⟨className, name, args, span⟩ := c
      exact fun arg ha => (Construction.argsNested_iff.mp h.2.2.2 arg ha).value.trans h.1
    exact (keeps_construction h fun arg ha => keeps_checkExpr catalog scope _ (hargs arg ha)).bind
      fun _ => .pure ()
  | chain source steps target span =>
    obtain ⟨hspan, hsource, hsteps, htarget⟩ := h
    have hsource := hsource.trans hspan
    have htarget := htarget.trans hspan
    exact (keeps_checkExpr catalog scope source hsource).bind fun _ =>
      (keeps_require _ _ hsource.span).bind fun _ =>
        (keeps_checkSteps catalog scope fun step hs => (hsteps step hs).trans hspan).bind fun _ =>
          (keeps_checkExpr catalog scope target htarget).bind fun _ => keeps_require _ _ htarget.span

private theorem keeps_checkLines (catalog : Catalog) {lines : List Line}
    (h : ∀ line ∈ lines, line.statement.Nested low high) :
    Keeps low high (checkLines catalog lines) := by
  induction lines with
  | nil => exact .pure ()
  | cons line rest ih =>
    obtain ⟨hline, hrest⟩ := List.forall_mem_cons.mp h
    exact (keeps_checkStatement catalog line.scope hline).bind fun _ => ih hrest

/-- Whatever is found out about a program concerns places in it. -/
theorem placed_check (catalog : Catalog) {program : Program}
    (h : ∀ line ∈ program.lines, line.statement.Nested low high) :
    (check catalog program).Placed low high :=
  keeps_checkLines catalog h _ ⟨List.forall_mem_nil _, List.forall_mem_nil _⟩

end Patchbay.Checking
