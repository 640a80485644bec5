import Patchbay.Proofs.Program.Grammar
import Patchbay.Proofs.Program.Induction

/-! Programs printed as tokens, and programs apart from the places they were read from. -/
namespace Patchbay
open Token (Kind)

def Ident.bare (i : Ident) : Ident := ⟨i.name, ⟨0, 0⟩⟩

def Label.bare (l : Label) : Label := ⟨l.socket.bare, ⟨0, 0⟩⟩

mutual

/-- The expression with all its places forgotten. -/
def Expr.bare (e : Expr) : Expr :=
  match e with
  | .error _ => .error ⟨0, 0⟩
  | .number value unit _ => .number value unit ⟨0, 0⟩
  | .unary sign operand _ => .unary sign operand.bare ⟨0, 0⟩
  | .binary op left right _ => .binary op left.bare right.bare ⟨0, 0⟩
  | .mapping polarity source low high _ =>
    .mapping polarity source.bare low.bare high.bare ⟨0, 0⟩
  | .construction c => .construction (Construction.bare c)
  | .socket object socket _ => .socket object.bare socket.bare ⟨0, 0⟩
  | .output object output _ => .output object.bare output.bare ⟨0, 0⟩
  | .name ident => .name ident.bare
termination_by structural e

def Construction.bare (c : Construction Expr) : Construction Expr :=
  match c with
  | ⟨className, name, args, _⟩ => ⟨className.bare, name.map Ident.bare, bareArgs args, ⟨0, 0⟩⟩
termination_by structural c

def bareArgs (args : List (Arg Expr)) : List (Arg Expr) :=
  match args with
  | [] => []
  | ⟨label, value⟩ :: rest => ⟨label.map Label.bare, value.bare⟩ :: bareArgs rest
termination_by structural args

end

theorem bareArgs_eq_map (args : List (Arg Expr)) :
    bareArgs args = args.map fun arg => ⟨arg.label.map Label.bare, arg.value.bare⟩ := by
  induction args with
  | nil => rfl
  | cons arg args ih =>
    rw [bareArgs, ih]
    rfl

def Statement.bare : Statement → Statement
  | .error _ => .error ⟨0, 0⟩
  | .definition name value _ => .definition name.bare value.bare ⟨0, 0⟩
  | .construction c => .construction c.bare
  | .chain source steps target _ =>
    .chain source.bare (steps.map Expr.bare) target.bare ⟨0, 0⟩

/-- The program with all its places forgotten. -/
def Program.bare (p : Program) : Program :=
  ⟨p.lines.map fun line => ⟨line.scope, line.statement.bare⟩⟩

@[simp] theorem Expr.bare_withSpan (e : Expr) (span : Span) : (e.withSpan span).bare = e.bare := by
  cases e with
  | construction c =>
    obtain ⟨className, name, args, _⟩ := c
    rfl
  | _ => rfl

theorem Expr.isReadable_bare (e : Expr) : e.bare.isReadable = e.isReadable := by
  cases e <;> rfl

theorem Expr.isWritable_bare (e : Expr) : e.bare.isWritable = e.isWritable := by
  cases e <;> rfl

theorem Expr.exists_of_bare_construction {e : Expr} {c : Construction Expr}
    (h : e.bare = (construction c).bare) : ∃ c', e = construction c' ∧ c'.bare = c.bare := by
  cases e with
  | construction c' => exact ⟨c', rfl, Expr.construction.inj h⟩
  | _ => cases h

/-- Whether links are connected as their places ask for does not depend on where they stand in the
text. -/
theorem Grammar.Connected.of_bare {es es' : List Expr} (h : es'.map Expr.bare = es.map Expr.bare)
    (hc : Connected es) : Connected es' := by
  rw [connected_iff] at hc ⊢
  intro i e' he'
  have hlen : es'.length = es.length := by simpa using congrArg List.length h
  have hbare : (es.map Expr.bare)[i]? = some e'.bare := by
    rw [← h, List.getElem?_map, he']
    rfl
  rw [List.getElem?_map] at hbare
  obtain ⟨e, he, hsame⟩ := Option.map_eq_some_iff.mp hbare
  rw [hlen, ← e'.isReadable_bare, ← hsame, e.isReadable_bare, ← e'.isWritable_bare, ← hsame,
    e.isWritable_bare]
  exact hc i e he

/-- Whether an expression is put in parentheses where it is an operand. -/
def Expr.isCompound : Expr → Bool
  | unary .. | binary .. | mapping .. => true
  | error _ | number .. | construction _ | socket .. | output .. | name _ => false

/-- The tokens of an expression as those of an operand. -/
def grouped (e : Expr) (kinds : List Kind) : List Kind :=
  if e.isCompound then .mark .openParen :: kinds ++ [.mark .closeParen] else kinds

def BinaryOp.kind : BinaryOp → Kind
  | add => .operator .plus
  | subtract => .operator .minus
  | multiply => .operator .star

def Polarity.kinds : Polarity → List Kind
  | unipolar => [.mark .openBracket]
  | bipolar => [.keyword .bi, .mark .openBracket]

def Label.kinds (l : Label) : List Kind := [.mark .dot, .name l.socket.name, .operator .assign]

/-- The tokens in front of the arguments of a construction. -/
def headKinds (className : Ident) : Option Ident → List Kind
  | none => [.keyword .new, .name className.name]
  | some name => [.name className.name, .name name.name]

mutual

/-- The tokens of an expression. Signs, operations and mappings are put in parentheses where they
are operands. -/
def Expr.kinds (e : Expr) : List Kind :=
  match e with
  | .error _ => []
  | .number value unit _ => [.number value unit]
  | .unary sign operand _ => sign.kind :: grouped operand operand.kinds
  | .binary op left right _ => grouped left left.kinds ++ op.kind :: grouped right right.kinds
  | .mapping polarity source low high _ =>
    grouped source source.kinds ++ polarity.kinds ++ low.kinds ++ .mark .comma :: high.kinds ++
      [.mark .closeBracket]
  | .construction c => Construction.kinds c
  | .socket object socket _ => [.name object.name, .mark .dot, .name socket.name]
  | .output object output _ => [.name object.name, .mark .colon, .name output.name]
  | .name ident => [.name ident.name]
termination_by structural e

def Construction.kinds (c : Construction Expr) : List Kind :=
  match c with
  | ⟨className, name, args, _⟩ =>
    headKinds className name ++ .mark .openParen :: (argKinds args).tail ++ [.mark .closeParen]
termination_by structural c

/-- The tokens of arguments, each behind a comma. -/
def argKinds (args : List (Arg Expr)) : List Kind :=
  match args with
  | [] => []
  | ⟨label, value⟩ :: rest =>
    .mark .comma :: ((label.map Label.kinds).getD [] ++ value.kinds ++ argKinds rest)
termination_by structural args

end

/-- The tokens of an expression where it is an operand. -/
def Expr.operandKinds (e : Expr) : List Kind := grouped e e.kinds

theorem kinds_unary (sign : Sign) (operand : Expr) (span : Span) :
    (Expr.unary sign operand span).kinds = sign.kind :: operand.operandKinds := rfl

theorem kinds_binary (op : BinaryOp) (left right : Expr) (span : Span) :
    (Expr.binary op left right span).kinds =
      left.operandKinds ++ op.kind :: right.operandKinds := rfl

theorem kinds_mapping (polarity : Polarity) (source low high : Expr) (span : Span) :
    (Expr.mapping polarity source low high span).kinds =
      source.operandKinds ++ polarity.kinds ++ low.kinds ++ .mark .comma :: high.kinds ++
        [.mark .closeBracket] := rfl

/-- The tokens of links, each behind an arrow. -/
def linkKinds (es : List Expr) : List Kind :=
  es.flatMap fun e => .operator .arrow :: e.operandKinds

theorem linkKinds_eq_cons (steps : List Expr) (target : Expr) :
    ∃ kinds, linkKinds (steps ++ [target]) = .operator .arrow :: kinds := by
  cases steps with
  | nil => exact ⟨_, rfl⟩
  | cons step steps => exact ⟨_, rfl⟩

def Statement.kinds : Statement → List Kind
  | .error _ => []
  | .definition name value _ => .name name.name :: .operator .assign :: value.kinds
  | .construction c => c.kinds
  | .chain source steps target _ => source.operandKinds ++ linkKinds (steps ++ [target])

/-- The token between lines of two scopes. -/
def Scope.change : Scope → Scope → List Kind
  | global, voice => [.keyword .startVoice]
  | voice, global => [.keyword .endVoice]
  | global, global | voice, voice => []

/-- The tokens of lines behind one of the given scope. -/
def kindsBehind (scope : Scope) : List Line → List Kind
  | [] => scope.change .global
  | line :: rest => scope.change line.scope ++ line.statement.kinds ++ kindsBehind line.scope rest

theorem kindsBehind_self (line : Line) (lines : List Line) :
    kindsBehind line.scope (line :: lines) =
      line.statement.kinds ++ kindsBehind line.scope lines := by
  rw [kindsBehind]
  cases line.scope <;> simp [Scope.change]

theorem kindsBehind_cons (scope : Scope) (line : Line) (lines : List Line) :
    kindsBehind scope (line :: lines) =
      scope.change line.scope ++ kindsBehind line.scope (line :: lines) := by
  rw [kindsBehind_self, kindsBehind, List.append_assoc]

/-- The tokens of a program. Lines of the voice block stand between its keywords. -/
def Program.kinds (p : Program) : List Kind := kindsBehind .global p.lines

/-- The nesting of an expression where it is an operand. -/
def deepened (e : Expr) (nesting : Nat) : Nat := if e.isCompound then nesting + 1 else nesting

mutual

/-- How deep the tokens of an expression nest parentheses, signs and arguments. -/
def Expr.nesting (e : Expr) : Nat :=
  match e with
  | .error _ | .number .. | .socket .. | .output .. | .name _ => 0
  | .unary _ operand _ => deepened operand operand.nesting + 1
  | .binary _ left right _ => max (deepened left left.nesting) (deepened right right.nesting)
  | .mapping _ source low high _ =>
    max (deepened source source.nesting) (max low.nesting high.nesting)
  | .construction c => Construction.nesting c
termination_by structural e

def Construction.nesting (c : Construction Expr) : Nat :=
  match c with
  | ⟨_, _, args, _⟩ => argNesting args
termination_by structural c

def argNesting (args : List (Arg Expr)) : Nat :=
  match args with
  | [] => 0
  | ⟨_, value⟩ :: rest => max (value.nesting + 1) (argNesting rest)
termination_by structural args

end

def Expr.operandNesting (e : Expr) : Nat := deepened e e.nesting

theorem operandNesting_of_isCompound {e : Expr} (h : e.isCompound = true) :
    e.operandNesting = e.nesting + 1 := if_pos h

theorem operandNesting_of_not_isCompound {e : Expr} (h : e.isCompound = false) :
    e.operandNesting = e.nesting := if_neg (Bool.eq_false_iff.mp h)

theorem nesting_unary (sign : Sign) (operand : Expr) (span : Span) :
    (Expr.unary sign operand span).nesting = operand.operandNesting + 1 := rfl

theorem nesting_binary (op : BinaryOp) (left right : Expr) (span : Span) :
    (Expr.binary op left right span).nesting = max left.operandNesting right.operandNesting := rfl

theorem nesting_mapping (polarity : Polarity) (source low high : Expr) (span : Span) :
    (Expr.mapping polarity source low high span).nesting =
      max source.operandNesting (max low.nesting high.nesting) := rfl

def Statement.nesting : Statement → Nat
  | .error _ => 0
  | .definition _ value _ => value.nesting
  | .construction c => c.nesting
  | .chain source steps target _ =>
    ((source :: steps ++ [target]).map Expr.operandNesting).foldr max 0

theorem operandNesting_le_nesting {source target e : Expr} {steps : List Expr} (span : Span)
    (h : e ∈ source :: steps ++ [target]) :
    e.operandNesting ≤ (Statement.chain source steps target span).nesting := by
  rw [Statement.nesting]
  generalize source :: steps ++ [target] = es at h
  induction es with
  | nil => cases h
  | cons first es ih =>
    rw [List.map_cons, List.foldr_cons]
    cases h with
    | head => exact Nat.le_max_left _ _
    | tail _ h => exact Nat.le_trans (ih h) (Nat.le_max_right _ _)

/-- No part is an error node, and signals are read only from what gives them. -/
inductive Expr.Proper : Expr → Prop where
  | number (value unit span) : Proper (.number value unit span)
  | unary (sign span) {operand} (h : Proper operand) (hr : operand.isReadable = true) :
    Proper (.unary sign operand span)
  | binary (op span) {left right} (hl : Proper left) (hr : Proper right) :
    Proper (.binary op left right span)
  | mapping (polarity span) {source low high} (hs : Proper source)
    (hr : source.isReadable = true) (hl : Proper low) (hh : Proper high) :
    Proper (.mapping polarity source low high span)
  | construction (className name span) {args : List (Arg Expr)}
    (h : ∀ arg ∈ args, Proper arg.value) (hr : ∀ arg ∈ args, arg.value.isReadable = true) :
    Proper (.construction ⟨className, name, args, span⟩)
  | socket (object socket span) : Proper (.socket object socket span)
  | output (object output span) : Proper (.output object output span)
  | name (ident) : Proper (.name ident)

/-- The links of a chain are connected as their places ask for. -/
def Statement.Proper : Statement → Prop
  | .error _ => False
  | .definition _ value _ => value.Proper
  | .construction c => (Expr.construction c).Proper
  | .chain source steps target _ =>
    (∀ e ∈ source :: steps ++ [target], e.Proper) ∧
      Grammar.Connected (source :: steps ++ [target])

/-- The lines of the voice block follow one another. -/
def Program.HasOneBlock (p : Program) : Prop :=
  ∃ before inside after, p.lines = before ++ inside ++ after ∧
    (∀ line ∈ before, line.scope = .global) ∧ (∀ line ∈ inside, line.scope = .voice) ∧
    ∀ line ∈ after, line.scope = .global

/-- Tokens at which a new operand starts, whatever stands in front of them. -/
inductive Begins : List Kind → Prop
  | number (value unit kinds) : Begins (.number value unit :: kinds)
  | group (kinds) : Begins (.mark .openParen :: kinds)
  | new (kinds) : Begins (.keyword .new :: kinds)
  | name (name kinds) {kind : Kind} (h : kind ≠ .mark .openParen) :
    Begins (.name name :: kind :: kinds)

theorem Begins.ne_nil {kinds : List Kind} (h : Begins kinds) : kinds ≠ [] := by
  cases h <;> simp

theorem operandKinds_of_isCompound {e : Expr} (h : e.isCompound = true) :
    e.operandKinds = .mark .openParen :: e.kinds ++ [.mark .closeParen] := if_pos h

theorem operandKinds_of_not_isCompound {e : Expr} (h : e.isCompound = false) :
    e.operandKinds = e.kinds := if_neg (Bool.eq_false_iff.mp h)

theorem begins_construction (c : Construction Expr) (kinds : List Kind) :
    Begins (c.kinds ++ kinds) := by
  obtain ⟨className, name, args, span⟩ := c
  cases name with
  | none => exact .new _
  | some name => exact .name _ _ (by simp)

theorem Expr.Proper.begins {e : Expr} (h : e.Proper) {kind : Kind}
    (hk : kind ≠ .mark .openParen) (kinds : List Kind) :
    Begins (e.operandKinds ++ kind :: kinds) := by
  cases h with
  | number value unit span => exact .number _ _ _
  | unary sign span h hr => exact .group _
  | binary op span hl hr => exact .group _
  | mapping polarity span hs hr hl hh => exact .group _
  | construction className name span h hr => exact begins_construction _ _
  | socket object socket span => exact .name _ _ (by simp)
  | output object output span => exact .name _ _ (by simp)
  | name ident => exact .name _ _ hk

/-- Nothing is written behind a statement to tell where it ends: the next one has to begin where
the tokens could not go on. -/
theorem Statement.Proper.begins {s : Statement} (h : s.Proper) (kinds : List Kind) :
    Begins (s.kinds ++ kinds) := by
  cases s with
  | error span => exact h.elim
  | definition name value span => exact .name _ _ (by simp)
  | construction c => exact begins_construction c kinds
  | chain source steps target span =>
    obtain ⟨more, hmore⟩ := linkKinds_eq_cons steps target
    rw [Statement.kinds, hmore, List.append_assoc, List.cons_append]
    exact (h.1 source List.mem_cons_self).begins (by simp) _

/-- Tokens that start neither with a label nor with the end of arguments. -/
inductive BeginsArg : List Kind → Prop
  | cons {kind : Kind} (kinds) (hd : kind ≠ .mark .dot) (hc : kind ≠ .mark .closeParen) :
    BeginsArg (kind :: kinds)

theorem BeginsArg.append {kinds : List Kind} (h : BeginsArg kinds) (more : List Kind) :
    BeginsArg (kinds ++ more) := by
  obtain ⟨kinds, hd, hc⟩ := h
  exact .cons _ hd hc

private theorem Expr.Proper.beginsArg_operand {e : Expr} (h : e.Proper) :
    BeginsArg e.operandKinds := by
  cases h with
  | construction className name span h hr =>
    cases name with
    | none => exact .cons _ (by simp) (by simp)
    | some name => exact .cons _ (by simp) (by simp)
  | _ => exact .cons _ (by simp) (by simp)

theorem Expr.Proper.beginsArg {e : Expr} (h : e.Proper) : BeginsArg e.kinds := by
  have hoperand := h.beginsArg_operand
  cases h with
  | unary sign span h hr => cases sign <;> exact .cons _ (by simp [Sign.kind]) (by simp [Sign.kind])
  | binary op span hl hr =>
    rw [kinds_binary]
    exact hl.beginsArg_operand.append _
  | mapping polarity span hs hr hl hh =>
    simp only [kinds_mapping, List.append_assoc]
    exact hs.beginsArg_operand.append _
  | _ => exact hoperand

end Patchbay
