import Patchbay.Proofs.Checking.Typing
import Patchbay.Proofs.Program.Canonical

/-! A check as a row of visits: it comes to each expression once its parts are done, and to each
name once its value is known. What it finds out about names follows from the visits alone. -/
namespace Patchbay
variable {β γ : Type}

namespace Checking

/-- What a check comes to: an expression whose parts are done, or a name that is given a value. -/
inductive Visit where
  | expr (e : Expr)
  | definition (name : Ident) (value : Expr)

/-- What a name stands for in a line of a scope. The name `_` stands for nothing. -/
def Names.meaning? (names : Names) (scope : Scope) (ident : Ident) : Option Declaration :=
  if ident.isDiscard then none else names.find? scope ident.name

/-- The class of the object that a name stands for. -/
def Names.classOf? (names : Names) (catalog : Catalog) (scope : Scope) (object : Ident) :
    Option UnitClass :=
  (names.meaning? scope object).bind fun d => d.type.className.bind catalog.resolve?

/-- The type of an expression once its parts are done. -/
def Names.typeOf (names : Names) (catalog : Catalog) (scope : Scope) : Expr → ValueType
  | .error _ => .unknown
  | .number _ _ _ | .unary _ _ _ | .binary _ _ _ _ | .mapping _ _ _ _ _ | .output _ _ _ => .source
  | .socket _ _ _ => .sink
  | .construction c =>
    match catalog.resolve? c.className.name with
    | none => .unknown
    | some c => .object c
  | .name ident =>
    match names.meaning? scope ident with
    | none => .unknown
    | some d => d.type

/-- What is wrong with the use of a name, or of a part of the object under it. -/
def Fault.concernsNames : Fault → Bool
  | undefinedName _ | discardRead | definedTwice _ | discardDefined | notAnObject _ _
  | undefinedSocket _ _ | undefinedOutput _ _ => true
  | _ => false

/-- What is wrong with the use of a name. -/
def Names.useFaults (names : Names) (scope : Scope) (ident : Ident) : List (Located Fault) :=
  if ident.isDiscard then [⟨.discardRead, some ident.span⟩]
  else if (names.find? scope ident.name).isSome then []
  else [⟨.undefinedName ident.name, some ident.span⟩]

/-- What is wrong with the use of a name whose object is to have parts. -/
def Names.objectFaults (names : Names) (catalog : Catalog) (scope : Scope) (part : Part)
    (object : Ident) : List (Located Fault) :=
  match names.meaning? scope object with
  | none => names.useFaults scope object
  | some d =>
    if (d.type.className.bind catalog.resolve?).isSome then []
    else [⟨.notAnObject part object.name, some object.span⟩]

/-- What is wrong with the use of a part of the object under a name. -/
def Names.partFaults (names : Names) (catalog : Catalog) (scope : Scope) (part : Part)
    (object member : Ident) (has : UnitClass → String → Bool)
    (undefined : String → String → Fault) : List (Located Fault) :=
  names.objectFaults catalog scope part object ++
    match names.classOf? catalog scope object with
    | none => []
    | some c => if has c member.name then [] else [⟨undefined member.name c.name, some member.span⟩]

/-- A visit in a line of a scope, with the names that there are by then. -/
structure Point where
  names : Names
  scope : Scope
  visit : Visit

namespace Point

/-- The binding that a visit asks for. The name `_` is never bound. -/
def binding? (catalog : Catalog) (p : Point) : Option (String × Declaration) :=
  match p.visit with
  | .expr _ => none
  | .definition name value =>
    if name.isDiscard then none
    else some (name.name, ⟨.declared name.span, p.names.typeOf catalog p.scope value⟩)

/-- The names behind a visit. A name that is bound in its scope keeps its first meaning. -/
def after (catalog : Catalog) (p : Point) : Names :=
  match p.binding? catalog with
  | none => p.names
  | some (name, d) =>
    if (p.names.table p.scope).contains name then p.names else p.names.put p.scope name d

/-- What is wrong with the names of a visit. -/
def faults (catalog : Catalog) (p : Point) : List (Located Fault) :=
  match p.visit with
  | .expr (.name ident) => p.names.useFaults p.scope ident
  | .expr (.socket object socket _) =>
    p.names.partFaults catalog p.scope .socket object socket UnitClass.hasSocket .undefinedSocket
  | .expr (.output object output _) =>
    p.names.partFaults catalog p.scope .output object output UnitClass.hasOutput .undefinedOutput
  | .expr _ => []
  | .definition name _ =>
    if name.isDiscard then [⟨.discardDefined, some name.span⟩]
    else if (p.names.table p.scope).contains name.name then
      [⟨.definedTwice name.name, some name.span⟩]
    else []

/-- The type that a visit of an expression notes. -/
def noted (catalog : Catalog) (p : Point) : List (Span × ValueType) :=
  match p.visit with
  | .expr e => [(e.span, p.names.typeOf catalog p.scope e)]
  | .definition _ _ => []

end Point

/-- What is known once a visit in a line of a scope is done. -/
def State.visit (catalog : Catalog) (scope : Scope) (s : State) (v : Visit) : State :=
  let p : Point := ⟨s.names, scope, v⟩
  ⟨p.after catalog, p.noted catalog ++ s.types, s.faults ++ p.faults catalog⟩

end Checking

open Checking

/-- The visit of the name of a new object. -/
def objectVisits (c : Construction Expr) : List Visit :=
  match c.name with
  | none => []
  | some name => if name.isDiscard then [] else [.definition name (.construction c)]

mutual

/-- What a check comes to in an expression: what stands left first, arguments in front of the name
of their object, and the whole behind its parts. -/
def Expr.visits (catalog : Catalog) (e : Expr) : List Visit :=
  match e with
  | .error _ | .number _ _ _ | .socket _ _ _ | .output _ _ _ | .name _ => [.expr e]
  | .unary _ operand _ => operand.visits catalog ++ [.expr e]
  | .binary _ left right _ => left.visits catalog ++ right.visits catalog ++ [.expr e]
  | .mapping _ source low high _ =>
    source.visits catalog ++ low.visits catalog ++ high.visits catalog ++ [.expr e]
  | .construction c => Construction.visits catalog c ++ [.expr e]
termination_by structural e

/-- Objects of classes that nobody knows get no name. -/
def Construction.visits (catalog : Catalog) (c : Construction Expr) : List Visit :=
  match c with
  | ⟨className, name, args, span⟩ =>
    argsVisits catalog args ++
      if (catalog.resolve? className.name).isSome then objectVisits ⟨className, name, args, span⟩
      else []
termination_by structural c

def argsVisits (catalog : Catalog) (args : List (Arg Expr)) : List Visit :=
  match args with
  | [] => []
  | ⟨_, value⟩ :: rest => value.visits catalog ++ argsVisits catalog rest
termination_by structural args

end

def Statement.visits (catalog : Catalog) : Statement → List Visit
  | .error _ => []
  | .definition name value _ => value.visits catalog ++ [.definition name value]
  | .construction c => Construction.visits catalog c
  | .chain source steps target _ =>
    source.visits catalog ++ steps.flatMap (Expr.visits catalog) ++ target.visits catalog

namespace Checking
variable {catalog : Catalog} {scope : Scope} {s : State}

/-- What is known of names. Faults of all other kinds are left out. -/
def State.named (s : State) : State :=
  { s with faults := s.faults.filter (·.fault.concernsNames) }

/-- A walk finds out about names what visits of a scope find out. -/
def Comes (catalog : Catalog) (scope : Scope) (w : Walk β) (visits : List Visit) : Prop :=
  ∀ s, (w.run s).2.named = visits.foldl (State.visit catalog scope) s.named

section Walks
variable {w : Walk β} {visits more : List Visit} {next : β → Walk γ}

theorem run_step (w : Walk β) (next : β → Walk γ) (s : State) :
    (w >>= next).run s = (next (w.run s).1).run (w.run s).2 := rfl

/-- What comes second may count on the value that comes first. -/
theorem Comes.follow (h : Comes catalog scope w visits)
    (hn : ∀ s, ((next (w.run s).1).run (w.run s).2).2.named =
      more.foldl (State.visit catalog scope) (w.run s).2.named) :
    Comes catalog scope (w >>= next) (visits ++ more) := by
  intro s
  rw [run_step, hn, h, List.foldl_append]

theorem Comes.bind (h : Comes catalog scope w visits)
    (hn : ∀ value, Comes catalog scope (next value) more) :
    Comes catalog scope (w >>= next) (visits ++ more) := h.follow fun _ => hn _ _

/-- What is done in addition comes to nothing. -/
theorem Comes.quiet (h : Comes catalog scope w visits)
    (hn : ∀ value, Comes catalog scope (next value) []) :
    Comes catalog scope (w >>= next) visits := by
  have hbind := h.bind hn
  rwa [List.append_nil] at hbind

theorem Comes.behind (h : Comes catalog scope w [])
    (hn : ∀ value, Comes catalog scope (next value) visits) :
    Comes catalog scope (w >>= next) visits := h.bind hn

end Walks

end Checking
end Patchbay
