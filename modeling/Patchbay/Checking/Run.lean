import Patchbay.Checking.Basic

/-! Checking a program against a catalog: one walk through its lines, in order. Nothing stops the
walk, and faults and types are only ever added. -/
namespace Patchbay.Checking

structure State where
  names : Names
  types : List (Span × ValueType)
  faults : List (Located Fault)

abbrev Walk := StateM State

def report (fault : Fault) (span : Span) : Walk Unit :=
  modify fun s => { s with faults := s.faults ++ [⟨fault, some span⟩] }

def require (condition : Bool) (fault : Fault) (span : Span) : Walk Unit :=
  if condition then pure () else report fault span

/-- What a name stands for in a line of the given scope. -/
def find (scope : Scope) (ident : Ident) : Walk (Option Declaration) := do
  if ident.isDiscard then
    report .discardRead ident.span
    return none
  match (← get).names.find? scope ident.name with
  | some d => return some d
  | none =>
    report (.undefinedName ident.name) ident.span
    return none

/-- The class of the object under a name, whose parts are to be used. -/
def findObject (catalog : Catalog) (scope : Scope) (part : Part) (object : Ident) :
    Walk (Option UnitClass) := do
  match ← find scope object with
  | none => return none
  | some d =>
    match d.type.className.bind catalog.resolve? with
    | some c => return some c
    | none =>
      report (.notAnObject part object.name) object.span
      return none

/-- Bind a name. The first binding in a scope counts. -/
def define (scope : Scope) (name : Ident) (type : ValueType) : Walk Unit := do
  if name.isDiscard then report .discardDefined name.span
  else if ((← get).names.table scope).contains name.name then
    report (.definedTwice name.name) name.span
  else
    modify fun s => { s with names := s.names.put scope name.name ⟨.declared name.span, type⟩ }

def defineObject (scope : Scope) (name : Option Ident) (type : ValueType) : Walk Unit :=
  match name with
  | none => pure ()
  | some name => if name.isDiscard then pure () else define scope name type

def note (span : Span) (type : ValueType) : Walk Unit :=
  modify fun s => { s with types := (span, type) :: s.types }

/-- Whether a socket is given a value for the first time. The sockets that have one are passed
on. -/
def assign (assigned : List String) (socket : String) (fault : Fault) (span : Span) :
    Walk (List String) := do
  require (!assigned.contains socket) fault span
  return socket :: assigned

mutual

def checkExpr (catalog : Catalog) (scope : Scope) (e : Expr) : Walk ValueType := do
  let type ← match e with
    | .error _ => pure .unknown
    | .number _ _ _ => pure .source
    | .unary _ operand _ => do
      let type ← checkExpr catalog scope operand
      require type.direction.output .unreadableOperand operand.span
      pure .source
    | .binary op left right _ => do
      let type ← checkExpr catalog scope left
      require type.direction.output (.unreadableLeft op) left.span
      let type ← checkExpr catalog scope right
      require type.direction.output (.unreadableRight op) right.span
      pure .source
    | .mapping _ source low high _ => do
      let type ← checkExpr catalog scope source
      require type.direction.output .unreadableMappingSource source.span
      let type ← checkExpr catalog scope low
      require type.direction.output .unreadableMappingStart low.span
      let type ← checkExpr catalog scope high
      require type.direction.output .unreadableMappingEnd high.span
      pure .source
    | .construction c => checkConstruction catalog scope c
    | .socket object socket _ => do
      match ← findObject catalog scope .socket object with
      | none => pure ()
      | some c =>
        require (c.hasSocket socket.name) (.undefinedSocket socket.name c.name) socket.span
      pure .sink
    | .output object output _ => do
      match ← findObject catalog scope .output object with
      | none => pure ()
      | some c =>
        require (c.hasOutput output.name) (.undefinedOutput output.name c.name) output.span
      pure .source
    | .name ident => do
      match ← find scope ident with
      | none => pure .unknown
      | some d => pure d.type
  note e.span type
  return type
termination_by structural e

/-- The type of a new object. Its name is bound once its arguments are checked. -/
def checkConstruction (catalog : Catalog) (scope : Scope) (c : Construction Expr) :
    Walk ValueType := do
  match c with
  | ⟨className, name, args, span⟩ =>
    match catalog.resolve? className.name with
    | none =>
      report (.undefinedClass className.name) className.span
      checkValues catalog scope args
      return .unknown
    | some found =>
      let count := args.countP (·.label.isNone)
      require (count ≤ found.positional.length)
        (.tooManyPositional found.name found.positional.length count) span
      checkArgs catalog scope found 0 [] args
      defineObject scope name (.object found)
      return .object found
termination_by structural c

def checkValues (catalog : Catalog) (scope : Scope) (args : List (Arg Expr)) : Walk Unit := do
  match args with
  | [] => return ()
  | ⟨_, value⟩ :: rest =>
    let _ ← checkExpr catalog scope value
    checkValues catalog scope rest
termination_by structural args

/-- Check the arguments from the given place on. Each socket is given one value. -/
def checkArgs (catalog : Catalog) (scope : Scope) (c : UnitClass) (position : Nat)
    (assigned : List String) (args : List (Arg Expr)) : Walk Unit := do
  match args with
  | [] => return ()
  | ⟨none, value⟩ :: rest =>
    let type ← checkExpr catalog scope value
    require type.direction.output (.unreadableArgument (position + 1) c.name) value.span
    let assigned ← match c.positionalSocket? position with
      | none => pure assigned
      | some socket => assign assigned socket (.assignedTwice socket c.name) value.span
    checkArgs catalog scope c (position + 1) assigned rest
  | ⟨some label, value⟩ :: rest =>
    let type ← checkExpr catalog scope value
    require type.direction.output (.unreadableLabelled label.socket.name c.name) value.span
    let assigned ← match c.canonicalSocket? label.socket.name with
      | none => do
        report (.noSuchSocket c.name label.socket.name) label.socket.span
        pure assigned
      | some socket =>
        assign assigned socket (.assignedTwice label.socket.name c.name) label.span
    checkArgs catalog scope c position assigned rest
termination_by structural args

end

def checkSteps (catalog : Catalog) (scope : Scope) : List Expr → Walk Unit
  | [] => return ()
  | step :: rest => do
    let type ← checkExpr catalog scope step
    require type.direction.input .unwritableChainStep step.span
    require type.direction.output .unreadableChainStep step.span
    checkSteps catalog scope rest

def checkStatement (catalog : Catalog) (scope : Scope) : Statement → Walk Unit
  | .error _ => return ()
  | .definition name value _ => do
    let type ← checkExpr catalog scope value
    define scope name type
  | .construction c => do
    let _ ← checkConstruction catalog scope c
  | .chain source steps target _ => do
    let type ← checkExpr catalog scope source
    require type.direction.output .unreadableChainSource source.span
    checkSteps catalog scope steps
    let type ← checkExpr catalog scope target
    require type.direction.input .unwritableChainTarget target.span

def checkLines (catalog : Catalog) : List Line → Walk Unit
  | [] => return ()
  | line :: rest => do
    checkStatement catalog line.scope line.statement
    checkLines catalog rest

def check (catalog : Catalog) (program : Program) : State :=
  ((checkLines catalog program.lines).run ⟨.builtin, [], []⟩).2

/-- Whether a place comes before another: by its start, then by its end. -/
def Before (a b : Span) : Prop := a.start < b.start ∨ (a.start = b.start ∧ a.stop < b.stop)

instance (a b : Span) : Decidable (Before a b) := inferInstanceAs (Decidable (_ ∨ _))

/-- Put a type at its place among others in ascending order, unless the place is taken. -/
def insertType (entry : Span × ValueType) : List (Span × ValueType) → List (Span × ValueType)
  | [] => [entry]
  | other :: rest =>
    if Before entry.1 other.1 then entry :: other :: rest
    else if entry.1 = other.1 then other :: rest
    else other :: insertType entry rest

/-- The types of all expressions by their places, in ascending order. Of two expressions at one
place the one checked later counts. -/
def State.typeTable (s : State) : List (Span × ValueType) :=
  s.types.foldl (fun table entry => insertType entry table) []

end Patchbay.Checking
