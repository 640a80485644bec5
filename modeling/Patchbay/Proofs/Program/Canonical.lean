import Patchbay.Building.Export
import Patchbay.Checking.Run
import Patchbay.Proofs.Catalog.Regular
import Patchbay.Proofs.Program.Induction

/-! The canonical form of a program: every class, socket and output under its proper name. Whose
part an accessed part is depends on the object under a name, and of that the check and building keep
their own accounts. -/
namespace Patchbay

/-- Whose account of the class of an object counts: that of the check, that of building, or both as
far as they do not contradict each other. -/
inductive Authority where
  | check
  | building
  | both
  deriving Repr, DecidableEq

/-- The proper name of a part of an object, by the class of the object. -/
def Authority.choose (authority : Authority) (proper? : UnitClass → Option String)
    (checked built : Option UnitClass) : Option String :=
  match authority with
  | check => checked.bind proper?
  | building => built.bind proper?
  | both =>
    match checked, built with
    | some c, some d => if proper? c = proper? d then proper? c else none
    | some c, none => proper? c
    | none, some d => proper? d
    | none, none => none

/-- What both choose is the proper name for each of them that knows a class. -/
theorem Authority.choose_both {proper? : UnitClass → Option String}
    {checked built : Option UnitClass} {name : String}
    (h : both.choose proper? checked built = some name) :
    (∀ c, checked = some c → proper? c = some name) ∧
      ∀ d, built = some d → proper? d = some name := by
  rw [choose.eq_def] at h
  rcases checked with _ | c <;> rcases built with _ | d <;> dsimp only at h
  · cases h
  · exact ⟨fun _ hc => (Option.some_ne_none _ hc.symm).elim, fun _ hd => Option.some.inj hd ▸ h⟩
  · exact ⟨fun _ hc => Option.some.inj hc ▸ h, fun _ hd => (Option.some_ne_none _ hd.symm).elim⟩
  · split at h
    · next hsame =>
      exact ⟨fun _ hc => Option.some.inj hc ▸ h, fun _ hd => Option.some.inj hd ▸ hsame ▸ h⟩
    · cases h

/-- The names once one is defined. The first definition in a scope counts. -/
def Checking.Names.settle (names : Checking.Names) (scope : Scope) (name : Ident)
    (type : Checking.ValueType) : Checking.Names :=
  if (names.table scope).contains name.name then names
  else names.put scope name.name ⟨.declared name.span, type⟩

/-- The class of a value that is an object. -/
def Building.classOf {α : Type} : Building.Value α → Option UnitClass
  | [.object ref _] => some ref.cls
  | _ => none

/-- The class of the object under a name. -/
def Building.State.class? {α : Type} (s : Building.State α) (scope : Scope) (name : String) :
    Option UnitClass :=
  (s.find? scope name).bind Building.classOf

/-- What is known at some place in a line: the names, by the check, and the classes of the objects
under names, by building. -/
structure Sight where
  names : Checking.Names
  classes : String → Option UnitClass

namespace Sight

/-- The class of the object under a name, by the check. -/
def checked (sight : Sight) (catalog : Catalog) (scope : Scope) (name : String) :
    Option UnitClass :=
  (sight.names.find? scope name).bind fun d => d.type.className.bind catalog.resolve?

/-- One object more. Building lets a name stand for the last object it is given to. -/
def declare (scope : Scope) (sight : Sight) (object : Ident × UnitClass) : Sight :=
  if object.1.isDiscard then sight
  else {
    names := sight.names.settle scope object.1 (.object object.2)
    classes := fun name => if name = object.1.name then some object.2 else sight.classes name }

theorem classes_declare (scope : Scope) (sight : Sight) (name : Ident) (c : UnitClass) :
    (sight.declare scope (name, c)).classes =
      if name.isDiscard then sight.classes
      else fun other => if other = name.name then some c else sight.classes other := by
  rw [declare]
  split <;> rfl

end Sight

/-- A new object, if its class is known and it has a name. -/
def declared (c : Option UnitClass) (name : Option Ident) : List (Ident × UnitClass) :=
  match c, name with
  | some c, some name => [(name, c)]
  | _, _ => []

mutual

/-- The objects with names that an expression makes, in the order in which they are named. -/
def Expr.declares (catalog : Catalog) (e : Expr) : List (Ident × UnitClass) :=
  match e with
  | .error _ | .number _ _ _ | .socket _ _ _ | .output _ _ _ | .name _ => []
  | .unary _ operand _ => operand.declares catalog
  | .binary _ left right _ => left.declares catalog ++ right.declares catalog
  | .mapping _ source low high _ =>
    source.declares catalog ++ low.declares catalog ++ high.declares catalog
  | .construction c => Construction.declares catalog c
termination_by structural e

def Construction.declares (catalog : Catalog) (c : Construction Expr) : List (Ident × UnitClass) :=
  match c with
  | ⟨className, name, args, _⟩ =>
    argsDeclare catalog args ++ declared (catalog.resolve? className.name) name
termination_by structural c

def argsDeclare (catalog : Catalog) (args : List (Arg Expr)) : List (Ident × UnitClass) :=
  match args with
  | [] => []
  | ⟨_, value⟩ :: rest => value.declares catalog ++ argsDeclare catalog rest
termination_by structural args

end

/-- What is known behind some objects. -/
def Sight.declareAll (sight : Sight) (scope : Scope) (objects : List (Ident × UnitClass)) : Sight :=
  objects.foldl (declare scope) sight

theorem Sight.declareAll_append (sight : Sight) (scope : Scope)
    (first second : List (Ident × UnitClass)) :
    sight.declareAll scope (first ++ second) =
      (sight.declareAll scope first).declareAll scope second := List.foldl_append

/-- What is known behind an expression. -/
def Sight.behind (sight : Sight) (catalog : Catalog) (scope : Scope) (e : Expr) : Sight :=
  sight.declareAll scope (e.declares catalog)

theorem Sight.behind_binary (sight : Sight) (catalog : Catalog) (scope : Scope) (op : BinaryOp)
    (left right : Expr) (span : Span) :
    sight.behind catalog scope (.binary op left right span) =
      (sight.behind catalog scope left).behind catalog scope right := by
  rw [behind, Expr.declares, declareAll_append]
  rfl

theorem Sight.behind_mapping (sight : Sight) (catalog : Catalog) (scope : Scope)
    (polarity : Polarity) (source low high : Expr) (span : Span) :
    sight.behind catalog scope (.mapping polarity source low high span) =
      ((sight.behind catalog scope source).behind catalog scope low).behind catalog scope high := by
  rw [behind, Expr.declares, declareAll_append, declareAll_append]
  rfl

/-- All objects that are named are of classes of the catalog. -/
theorem Expr.regular_declares {catalog : Catalog} (hk : catalog.Regular) (e : Expr) :
    ∀ object ∈ e.declares catalog, object.2.Regular := by
  induction e using Expr.induction
    (fun args => ∀ object ∈ argsDeclare catalog args, object.2.Regular) with
  | error | number | socket | output | name => exact fun _ hm => absurd hm List.not_mem_nil
  | unary sign operand span ih => exact ih
  | binary op left right span ihl ihr =>
    rw [declares]
    exact fun object hm => (List.mem_append.mp hm).elim (ihl object) (ihr object)
  | mapping polarity source low high span ihs ihl ihh =>
    rw [declares]
    intro object hm
    rcases List.mem_append.mp hm with hm | hm
    · exact (List.mem_append.mp hm).elim (ihs object) (ihl object)
    · exact ihh object hm
  | construction className name values span ih =>
    rw [declares, Construction.declares]
    intro object hm
    rcases List.mem_append.mp hm with hm | hm
    · exact ih object hm
    · cases hc : catalog.resolve? className.name with
      | none =>
        rw [hc] at hm
        exact absurd hm List.not_mem_nil
      | some c =>
        rw [hc] at hm
        cases name with
        | none => exact absurd hm List.not_mem_nil
        | some name =>
          rw [List.mem_singleton.mp hm]
          exact (hk _ _ hc).1
  | nil object hm => exact absurd hm List.not_mem_nil
  | cons label value rest ihv ihr object hm =>
    rw [argsDeclare] at hm
    exact (List.mem_append.mp hm).elim (ihv object) (ihr object)

/-- All objects under names are of regular classes. -/
def Sight.Regular (sight : Sight) : Prop := ∀ name c, sight.classes name = some c → c.Regular

theorem Sight.Regular.declareAll {sight : Sight} (h : sight.Regular) (scope : Scope)
    {objects : List (Ident × UnitClass)} (ho : ∀ object ∈ objects, object.2.Regular) :
    (sight.declareAll scope objects).Regular := by
  induction objects generalizing sight with
  | nil => exact h
  | cons object rest ih =>
    obtain ⟨name, c⟩ := object
    refine ih (fun other d hd => ?_) fun object hm => ho object (List.mem_cons_of_mem _ hm)
    rw [classes_declare] at hd
    split at hd
    · exact h other d hd
    · dsimp only at hd
      split at hd
      · exact Option.some.inj hd ▸ ho _ List.mem_cons_self
      · exact h other d hd

theorem Sight.Regular.behind {sight : Sight} (h : sight.Regular) {catalog : Catalog}
    (hk : catalog.Regular) (scope : Scope) (e : Expr) : (sight.behind catalog scope e).Regular :=
  h.declareAll scope (e.regular_declares hk)

/-- Another name at the same place, if there is one. -/
def Ident.renamed (i : Ident) (name : Option String) : Ident := { i with name := name.getD i.name }

/-- The name of a class, or another name for it, becomes the name of the class. -/
def Ident.canonicalClass (i : Ident) (catalog : Catalog) : Ident :=
  i.renamed ((catalog.resolve? i.name).map UnitClass.name)

/-- The socket in front of an argument for an object of a class, if the class is known. -/
def Label.canonical (label : Label) (c : Option UnitClass) : Label :=
  ⟨label.socket.renamed (c.bind (·.canonicalSocket? label.socket.name)), label.span⟩

/-- A part of the object under a name. -/
def Ident.canonicalPart (part : Ident) (authority : Authority) (catalog : Catalog) (scope : Scope)
    (sight : Sight) (proper? : UnitClass → String → Option String) (object : Ident) : Ident :=
  part.renamed (authority.choose (proper? · part.name) (sight.checked catalog scope object.name)
    (sight.classes object.name))

/-- A part is left alone, or its new name is its proper one for each class that is known. -/
theorem Ident.canonicalPart_name (part : Ident) (catalog : Catalog) (scope : Scope) (sight : Sight)
    (proper? : UnitClass → String → Option String) (object : Ident) :
    let name := (part.canonicalPart .both catalog scope sight proper? object).name
    name = part.name ∨
      (∀ c, sight.checked catalog scope object.name = some c → proper? c part.name = some name) ∧
        ∀ d, sight.classes object.name = some d → proper? d part.name = some name := by
  dsimp only [canonicalPart, renamed]
  cases h : Authority.choose .both (proper? · part.name) (sight.checked catalog scope object.name)
    (sight.classes object.name) with
  | none => exact .inl rfl
  | some name => exact .inr (Authority.choose_both h)

mutual

/-- An expression with proper names, read from left to right. -/
def Expr.canonical (authority : Authority) (catalog : Catalog) (scope : Scope) (sight : Sight)
    (e : Expr) : Expr :=
  match e with
  | .error span => .error span
  | .number value unit span => .number value unit span
  | .unary sign operand span => .unary sign (operand.canonical authority catalog scope sight) span
  | .binary op left right span =>
    .binary op (left.canonical authority catalog scope sight)
      (right.canonical authority catalog scope (sight.behind catalog scope left)) span
  | .mapping polarity source low high span =>
    let first := sight.behind catalog scope source
    .mapping polarity (source.canonical authority catalog scope sight)
      (low.canonical authority catalog scope first)
      (high.canonical authority catalog scope (first.behind catalog scope low)) span
  | .construction c => .construction (Construction.canonical authority catalog scope sight c)
  | .socket object socket span =>
    .socket object
      (socket.canonicalPart authority catalog scope sight UnitClass.canonicalSocket? object) span
  | .output object output span =>
    .output object
      (output.canonicalPart authority catalog scope sight UnitClass.canonicalOutput? object) span
  | .name ident => .name ident
termination_by structural e

def Construction.canonical (authority : Authority) (catalog : Catalog) (scope : Scope)
    (sight : Sight) (c : Construction Expr) : Construction Expr :=
  match c with
  | ⟨className, name, args, span⟩ =>
    ⟨className.canonicalClass catalog, name,
      canonicalArgs authority catalog scope (catalog.resolve? className.name) sight args, span⟩
termination_by structural c

def canonicalArgs (authority : Authority) (catalog : Catalog) (scope : Scope)
    (c : Option UnitClass) (sight : Sight) (args : List (Arg Expr)) : List (Arg Expr) :=
  match args with
  | [] => []
  | ⟨label, value⟩ :: rest =>
    ⟨label.map (Label.canonical · c), value.canonical authority catalog scope sight⟩ ::
      canonicalArgs authority catalog scope c (sight.behind catalog scope value) rest
termination_by structural args

end

theorem span_canonical (authority : Authority) (catalog : Catalog) (scope : Scope) (sight : Sight)
    (e : Expr) : (e.canonical authority catalog scope sight).span = e.span := by
  cases e with
  | construction c =>
    obtain ⟨className, name, args, span⟩ := c
    rfl
  | _ => rfl

/-- The canonical form of a label leads to the same socket. -/
theorem canonicalSocket?_label {c : UnitClass} (hc : c.Regular) (label : Label) :
    c.canonicalSocket? (label.canonical (some c)).socket.name =
      c.canonicalSocket? label.socket.name := by
  have hname : (label.canonical (some c)).socket.name =
      (c.canonicalSocket? label.socket.name).getD label.socket.name := rfl
  rw [hname]
  cases hs : c.canonicalSocket? label.socket.name with
  | none => exact hs
  | some socket => exact hc.canonicalSocket?_canonicalSocket? hs

theorem resolve?_canonicalClass {catalog : Catalog} (hk : catalog.Regular) (className : Ident) :
    catalog.resolve? (className.canonicalClass catalog).name = catalog.resolve? className.name := by
  have hname : (className.canonicalClass catalog).name =
      ((catalog.resolve? className.name).map UnitClass.name).getD className.name := rfl
  rw [hname]
  cases hc : catalog.resolve? className.name with
  | none => exact hc
  | some c => exact (hk _ _ hc).2

/-- The links of a chain, each behind the one before. -/
def canonicalLinks (authority : Authority) (catalog : Catalog) (scope : Scope) (sight : Sight) :
    List Expr → List Expr
  | [] => []
  | link :: rest =>
    link.canonical authority catalog scope sight ::
      canonicalLinks authority catalog scope (sight.behind catalog scope link) rest

def Statement.canonical (authority : Authority) (catalog : Catalog) (scope : Scope)
    (sight : Sight) : Statement → Statement
  | .error span => .error span
  | .definition name value span =>
    .definition name (value.canonical authority catalog scope sight) span
  | .construction c => .construction (Construction.canonical authority catalog scope sight c)
  | .chain source steps target span =>
    let first := sight.behind catalog scope source
    let last := steps.foldl (Sight.behind · catalog scope) first
    .chain (source.canonical authority catalog scope sight)
      (canonicalLinks authority catalog scope first steps)
      (target.canonical authority catalog scope last) span

variable {α : Type} [Arithmetic α]

/-- Lines with proper names. What is known in front of a line is what the check found and what
building built by then. -/
def canonicalLines (authority : Authority) (catalog : Catalog) (found : Checking.State)
    (s : Building.State α) : List Line → List Line
  | [] => []
  | line :: rest =>
    let found' := ((Checking.checkStatement catalog line.scope line.statement).run found).2
    let s' := s.after (Building.buildStatement catalog line.scope line.statement)
    ⟨line.scope, line.statement.canonical authority catalog line.scope
      ⟨found.names, s.class? line.scope⟩⟩ :: canonicalLines authority catalog found' s' rest

variable (α)

/-- A program with proper names. -/
def Program.canonical (authority : Authority) (catalog : Catalog) (program : Program) : Program :=
  ⟨canonicalLines authority catalog ⟨.builtin, [], []⟩
    ((Building.start catalog).run (.empty : Building.State α)).2 program.lines⟩

end Patchbay
