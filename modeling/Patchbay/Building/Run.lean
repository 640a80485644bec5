import Patchbay.Building.Basic
import Patchbay.Quantity

/-! Building the objects and connections that a program describes, line by line. A fault ends its
statement; what the statement has built by then stays. -/
namespace Patchbay.Building

abbrev Work (α : Type) := ExceptT (Located Fault) (StateM (State α))

variable {α : Type}

def fail (fault : Fault) (span : Option Span) : Work α β := throw ⟨fault, span⟩

def warn (warning : Warning) (span : Option Span) : Work α Unit :=
  modify fun s => { s with warnings := s.warnings ++ [⟨warning, span⟩] }

def classUnder (catalog : Catalog) (name : String) (span : Option Span) : Work α UnitClass :=
  match catalog.resolve? name with
  | some c => pure c
  | none => fail (.undefinedClass name) span

/-- A new object with nothing connected to it. Objects of the voice block belong to each voice. -/
def addObject (cls : UnitClass) (scope : Scope) (origin : Origin) (span : Option Span) :
    Work α Ref :=
  modifyGet fun s =>
    (⟨s.objects.length, cls⟩,
      { s with objects := s.objects ++
          [⟨cls, scope = .voice, List.replicate cls.sockets.length [], span, origin⟩] })

def find (scope : Scope) (ident : Ident) : Work α (Value α) := do
  match (← get).find? scope ident.name with
  | some value => return value
  | none => fail (.undefinedName ident.name) (some ident.span)

/-- The object under a name, of which a part is to be used. -/
def findObject (scope : Scope) (part : Part) (ident : Ident) : Work α Ref := do
  match ← find scope ident with
  | [.object ref _] => return ref
  | _ => fail (.notAnObject part ident.name) (some ident.span)

/-- What an atom adds to a socket. A whole object gives its output, or both sides if it has
none. -/
def contributions : Atom α → Except (Located Fault) (List (Contribution α))
  | .constant value span => .ok [.constant value span]
  | .output id name span => .ok [.output id name span]
  | .socket _ _ span => .error ⟨.incompatible, span⟩
  | .object ref span =>
    match ref.cls.canonicalOutput? "output" with
    | some name => .ok [.output ref.id name span]
    | none =>
      if ref.cls.isStereoSource then
        .ok [.output ref.id "left" span, .output ref.id "right" span]
      else .error ⟨.incompatible, span⟩

def mixInto (id socket : Nat) : Value α → Work α Unit
  | [] => return ()
  | atom :: rest => do
    match contributions atom with
    | .error f => throw f
    | .ok more =>
      modify fun s => s.mix id socket more
      mixInto id socket rest

def plug (target : Ref) (socket : String) (value : Value α) : Work α Unit :=
  match target.cls.socketIndex? socket with
  | some index => mixInto target.id index value
  | none => fail (.noSuchSocket target.cls.name socket) (spanOf value)

/-- Send a value to both sides of an object. A stereo object sends each side to its own, all else
goes to both. -/
def connectSides (source : Value α) (target : Ref) (left right : Nat) : Work α Unit := do
  match source with
  | [.object ref span] =>
    if ref.cls.isStereoSource then
      modify fun s => (s.mix target.id left [.output ref.id "left" span]).mix target.id right
        [.output ref.id "right" span]
    else
      mixInto target.id left source
      mixInto target.id right source
  | _ =>
    mixInto target.id left source
    mixInto target.id right source

/-- Send a value to the next link of a chain: to the input of an object or both its sides, or to a
single socket. -/
def connect (source target : Value α) (span : Span) : Work α Unit :=
  match target with
  | [.object ref _] =>
    match ref.cls.socketIndex? "input", ref.cls.socketIndex? "left",
      ref.cls.socketIndex? "right" with
    | some input, _, _ => mixInto ref.id input source
    | none, some left, some right => connectSides source ref left right
    | _, _, _ => fail .incompatible (some span)
  | [.socket id index _] => mixInto id index source
  | _ => fail .incompatible (some span)

def operatorObject (catalog : Catalog) (scope : Scope) (className : String) (span : Span) :
    Work α Ref := do
  addObject (← classUnder catalog className (some span)) scope .operator (some span)

/-- Let a name bound to a knob stand for a parameter. Voices have none. -/
def addParameter (scope : Scope) (name : Ident) (value : Value α) : Work α Unit :=
  match value with
  | [.object ref _] =>
    if name.isDiscard || ref.cls.name != Builtin.knob then pure ()
    else
      match scope with
      | .voice => fail .voiceParameter (some name.span)
      | .global => modify fun s => { s with parameters := s.parameters ++ [⟨name.name, ref.id⟩] }
  | _ => pure ()

def define (scope : Scope) (name : Ident) (value : Value α) : Work α Unit := do
  addParameter scope name value
  if name.isDiscard then pure () else modify fun s => s.bind scope name.name value

variable [Arithmetic α]

/-- The negative of a value. Of a constant it is computed at once. -/
def negate (catalog : Catalog) (scope : Scope) (value : Value α) (span : Span) :
    Work α (Value α) :=
  match value with
  | [.constant x _] => return [.constant (-x) (some span)]
  | value => do
    let object ← operatorObject catalog scope Builtin.inverter span
    plug object "input" value
    return [.object object (some span)]

/-- The product of two values. Of two constants it is computed at once. -/
def scale (catalog : Catalog) (scope : Scope) (left right : Value α) (span : Span) :
    Work α (Value α) :=
  match left, right with
  | [.constant a _], [.constant b _] => return [.constant (a * b) (some span)]
  | left, right => do
    let object ← operatorObject catalog scope Builtin.attenuator span
    plug object "input" left
    plug object "amount" right
    return [.object object (some span)]

def mappingClass : Polarity → String
  | .unipolar => Builtin.mapping
  | .bipolar => Builtin.bipolarMapping

/-- A literal on the scale of signals. With an unknown unit it is taken as it stands. -/
def literal (value : Float) (unit : String) (span : Span) : Work α (Value α) :=
  match Quantity.ofLiteral? (Arithmetic.ofFloat value) unit with
  | some x => return [.constant x (some span)]
  | none => do
    warn (.unknownUnit unit) (some span)
    return [.constant (Arithmetic.ofFloat value) (some span)]

mutual

def buildExpr (catalog : Catalog) (scope : Scope) (e : Expr) : Work α (Value α) := do
  match e with
  | .error span => fail .malformedExpression (some span)
  | .number value unit span => literal value unit span
  | .unary sign operand span =>
    let value ← buildExpr catalog scope operand
    match sign with
    | .plus => return value
    | .minus => negate catalog scope value span
  | .binary op left right span =>
    let left ← buildExpr catalog scope left
    let right ← buildExpr catalog scope right
    match op with
    | .add => return left ++ right
    | .subtract =>
      let negative ← negate catalog scope right span
      return left ++ negative
    | .multiply => scale catalog scope left right span
  | .mapping polarity source low high span =>
    let source ← buildExpr catalog scope source
    let low ← buildExpr catalog scope low
    let high ← buildExpr catalog scope high
    let object ← operatorObject catalog scope (mappingClass polarity) span
    plug object "source" source
    plug object "from" low
    plug object "to" high
    return [.object object (some span)]
  | .construction c => buildConstruction catalog scope c
  | .socket object socket span =>
    let ref ← findObject scope .socket object
    match ref.cls.socketIndex? socket.name with
    | some index => return [.socket ref.id index (some span)]
    | none => fail (.undefinedSocket socket.name ref.cls.name) (some socket.span)
  | .output object output span =>
    let ref ← findObject scope .output object
    match ref.cls.canonicalOutput? output.name with
    | some name => return [.output ref.id name (some span)]
    | none => fail (.undefinedOutput output.name ref.cls.name) (some output.span)
  | .name ident => find scope ident
termination_by structural e

/-- A new object with its arguments. Its name is bound at the end. -/
def buildConstruction (catalog : Catalog) (scope : Scope) (c : Construction Expr) :
    Work α (Value α) := do
  match c with
  | ⟨className, name, args, span⟩ =>
    let cls ← classUnder catalog className.name (some className.span)
    let object ← addObject cls scope .written (some span)
    buildArgs catalog scope object 0 args
    let value := [.object object (some span)]
    match name with
    | none => return value
    | some name =>
      define scope name value
      return value
termination_by structural c

def buildArgs (catalog : Catalog) (scope : Scope) (object : Ref) (position : Nat)
    (args : List (Arg Expr)) : Work α Unit := do
  match args with
  | [] => return ()
  | ⟨none, value⟩ :: rest =>
    match object.cls.positionalSocket? position with
    | none => fail (.tooManyArguments object.cls.name) (some value.span)
    | some socket =>
      let built ← buildExpr catalog scope value
      plug object socket built
      buildArgs catalog scope object (position + 1) rest
  | ⟨some label, value⟩ :: rest =>
    match object.cls.canonicalSocket? label.socket.name with
    | none => fail (.tooManyArguments object.cls.name) (some value.span)
    | some socket =>
      let built ← buildExpr catalog scope value
      plug object socket built
      buildArgs catalog scope object position rest
termination_by structural args

end

/-- Send a value along the links of a chain, each to the next. -/
def buildLinks (catalog : Catalog) (scope : Scope) (previous : Value α) :
    List Expr → Work α Unit
  | [] => return ()
  | link :: rest => do
    let next ← buildExpr catalog scope link
    connect previous next link.span
    buildLinks catalog scope next rest

def buildStatement (catalog : Catalog) (scope : Scope) : Statement → Work α Unit
  | .error span => fail .malformedStatement (some span)
  | .definition name value _ => do
    let built ← buildExpr catalog scope value
    define scope name built
  | .construction c => do
    let _ ← buildConstruction catalog scope c
  | .chain source steps target _ => do
    let first ← buildExpr catalog scope source
    buildLinks catalog scope first (steps ++ [target])

/-- Everything built once a piece of work is done. A fault that ended it is added to the others. -/
def State.after (s : State α) (work : Work α Unit) : State α :=
  match work.run s with
  | (.ok _, s) => s
  | (.error fault, s) => { s with faults := s.faults ++ [fault] }

def buildLines (catalog : Catalog) (s : State α) (lines : List Line) : State α :=
  lines.foldl (fun s line => s.after (buildStatement catalog line.scope line.statement)) s

def addBuiltin (cls : UnitClass) (scope : Scope) (name : String) : Work α Unit := do
  let object ← addObject cls scope .builtin none
  modify fun s => s.bind scope name [.object object none]

def addBuiltins (cls : UnitClass) (scope : Scope) : List String → Work α Unit
  | [] => return ()
  | name :: rest => do
    addBuiltin cls scope name
    addBuiltins cls scope rest

def start (catalog : Catalog) : Work α Unit := do
  let input ← classUnder catalog Builtin.userInput none
  let output ← classUnder catalog Builtin.stereoOutput none
  addBuiltins input .global Builtin.globalInputs
  addBuiltin output .global Builtin.output
  addBuiltins input .voice Builtin.voiceInputs

end Patchbay.Building
