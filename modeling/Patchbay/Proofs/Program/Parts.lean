import Mathlib.Data.List.Basic
import Patchbay.Program.Basic

/-! What expressions and statements consist of: their parts, the names they look up and bind, and how
many nodes they have. -/
namespace Patchbay

/-- The expressions right below an expression. -/
def Expr.parts : Expr → List Expr
  | .unary _ operand _ => [operand]
  | .binary _ left right _ => [left, right]
  | .mapping _ source low high _ => [source, low, high]
  | .construction c => c.args.map Arg.value
  | .error _ | .number _ _ _ | .socket _ _ _ | .output _ _ _ | .name _ => []

/-- The names that an expression looks up itself. -/
def Expr.idents : Expr → List Ident
  | .construction c => [c.className]
  | .socket object member _ | .output object member _ => [object, member]
  | .name ident => [ident]
  | .error _ | .number _ _ _ | .unary _ _ _ | .binary _ _ _ _ | .mapping _ _ _ _ _ => []

mutual

/-- The names of the constructions in an expression. -/
def Expr.bound : Expr → List String
  | .unary _ operand _ => operand.bound
  | .binary _ left right _ => left.bound ++ right.bound
  | .mapping _ source low high _ => source.bound ++ (low.bound ++ high.bound)
  | .construction c => c.bound
  | .error _ | .number _ _ _ | .socket _ _ _ | .output _ _ _ | .name _ => []

def Construction.bound : Construction Expr → List String
  | ⟨_, name, args, _⟩ => Construction.boundArgs args ++ (name.map Ident.name).toList

def Construction.boundArgs : List (Arg Expr) → List String
  | [] => []
  | ⟨_, value⟩ :: rest => value.bound ++ Construction.boundArgs rest

end

mutual

/-- How many nodes an expression has. -/
def Expr.size : Expr → Nat
  | .unary _ operand _ => operand.size + 1
  | .binary _ left right _ => left.size + right.size + 1
  | .mapping _ source low high _ => source.size + low.size + high.size + 1
  | .construction c => c.size
  | .error _ | .number _ _ _ | .socket _ _ _ | .output _ _ _ | .name _ => 1

def Construction.size : Construction Expr → Nat
  | ⟨_, _, args, _⟩ => Construction.argsSize args + 1

def Construction.argsSize : List (Arg Expr) → Nat
  | [] => 0
  | ⟨_, value⟩ :: rest => value.size + Construction.argsSize rest

end

/-- The expressions of a statement, from the source of a chain to its target. -/
def Statement.exprs : Statement → List Expr
  | .error _ => []
  | .definition _ value _ => [value]
  | .construction c => [.construction c]
  | .chain source steps target _ => source :: steps ++ [target]

/-- The names that a statement binds, in order, with those of the constructions in it. -/
def Statement.bound : Statement → List String
  | .error _ => []
  | .definition name value _ => value.bound ++ [name.name]
  | .construction c => c.bound
  | .chain source steps target _ => source.bound ++ (steps ++ [target]).flatMap Expr.bound

theorem Construction.bound_of_arg {args : List (Arg Expr)} {arg : Arg Expr} (h : arg ∈ args) :
    arg.value.bound ⊆ Construction.boundArgs args := by
  induction args with
  | nil => exact absurd h List.not_mem_nil
  | cons first rest ih =>
    intro name hname
    rw [Construction.boundArgs, List.mem_append]
    rcases List.mem_cons.mp h with rfl | h
    · exact .inl hname
    · exact .inr (ih h hname)

/-- An expression binds what its parts bind. -/
theorem Expr.bound_of_part {e part : Expr} (h : part ∈ e.parts) : part.bound ⊆ e.bound := by
  cases e with
  | unary sign operand span =>
    rw [List.mem_singleton.mp h]
    exact fun _ => id
  | binary op left right span =>
    rw [Expr.bound]
    rcases List.mem_pair.mp h with rfl | rfl
    · exact List.subset_append_left _ _
    · exact List.subset_append_right _ _
  | mapping polarity source low high span =>
    rw [Expr.bound]
    rcases List.mem_cons.mp h with rfl | h
    · exact List.subset_append_left _ _
    · refine fun name hname => List.mem_append_right _ ?_
      rcases List.mem_pair.mp h with rfl | rfl
      · exact List.mem_append_left _ hname
      · exact List.mem_append_right _ hname
  | construction c =>
    obtain ⟨className, name, args, span⟩ := c
    obtain ⟨arg, harg, rfl⟩ := List.mem_map.mp h
    rw [Expr.bound, Construction.bound]
    exact fun name hname => List.mem_append_left _ (Construction.bound_of_arg harg hname)
  | _ => exact absurd h List.not_mem_nil

/-- All names but `_`, which is never bound. -/
def kept (names : List String) : List String := names.filter (· != "_")

theorem kept_append (first second : List String) :
    kept (first ++ second) = kept first ++ kept second := List.filter_append ..

theorem kept_name (name : Ident) :
    kept [name.name] = if name.isDiscard then [] else [name.name] := by
  rw [kept, List.filter_cons, List.filter_nil, Ident.isDiscard, bne]
  cases name.name == "_" <;> rfl

end Patchbay
