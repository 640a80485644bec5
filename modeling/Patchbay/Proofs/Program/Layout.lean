import Patchbay.Program.Reader
import Patchbay.Proofs.Program.Printing

/-! Tokens, links, chains and blocks apart from the places they were read from. -/
namespace Patchbay

/-- The place that stands for any place. -/
def Span.bare (_ : Span) : Span := ⟨0, 0⟩

/-- A finding of which only is known whether it has a place. -/
def Located.bare {ε : Type} (l : Located ε) : Located ε := ⟨l.fault, l.span.map Span.bare⟩

def Token.bare (t : Token) : Token := ⟨t.kind, ⟨0, 0⟩⟩

@[simp] theorem Expr.span_bare (e : Expr) : e.bare.span = ⟨0, 0⟩ := by
  cases e with
  | construction c =>
    obtain ⟨className, name, args, _⟩ := c
    rfl
  | _ => rfl

theorem Expr.withSpan_bare (e : Expr) (span : Span) :
    e.bare.withSpan ⟨0, 0⟩ = (e.withSpan span).bare := by
  cases e with
  | construction c =>
    obtain ⟨className, name, args, _⟩ := c
    rfl
  | _ => rfl

namespace Program
variable {ts : List Token}

def Link.bare (l : Link) : Link := ⟨l.expr.bare, l.direction⟩

@[simp] theorem Link.span_bare (l : Link) : l.bare.expr.span = ⟨0, 0⟩ := l.expr.span_bare

theorem Link.unreadable_bare (l : Link) : l.bare.unreadable = l.unreadable.map Located.bare := by
  rw [unreadable, unreadable, bare]
  split
  · rfl
  · rw [Expr.span_bare]
    rfl

theorem Link.unwritable_bare (l : Link) : l.bare.unwritable = l.unwritable.map Located.bare := by
  rw [unwritable, unwritable, bare]
  split
  · rfl
  · rw [Expr.span_bare]
    rfl

/-- Behind the place of a token nothing is hidden but its place. -/
theorem exists_of_bare_cons {kind : Token.Kind} {span : Span} {rest : List Token}
    (h : ts.map Token.bare = ⟨kind, span⟩ :: rest) :
    ∃ span' tail, ts = ⟨kind, span'⟩ :: tail ∧ tail.map Token.bare = rest := by
  cases ts with
  | nil => cases h
  | cons t tail =>
    obtain ⟨kind', span'⟩ := t
    cases h
    exact ⟨span', tail, rfl, rfl⟩

theorem Link.binary_bare (op : BinaryOp) (left right : Link) :
    Link.binary op left.bare right.bare = (Link.binary op left right).bare := by
  simp only [Link.binary, Link.bare, Expr.bare, Expr.span_bare]
  rfl

theorem linkFaults_bare (links : List Link) :
    linkFaults (links.map Link.bare) = (linkFaults links).map Located.bare := by
  rw [linkFaults, linkFaults, List.zipIdx_map, List.flatMap_map, List.map_flatMap, List.length_map]
  congr 1
  funext x
  obtain ⟨l, i⟩ := x
  dsimp only [Prod.map]
  rw [List.map_append, l.unreadable_bare, l.unwritable_bare, apply_ite (List.map Located.bare),
    apply_ite (List.map Located.bare)]
  rfl

theorem bare_chainOf (backward : Bool) (first second : Link) (more : List Link) :
    chainOf backward first.bare second.bare (more.map Link.bare) =
      ((chainOf backward first second more).1.bare,
        (chainOf backward first second more).2.map Located.bare) := by
  have hspan : ∀ links : List Link, (links.map Link.bare).foldl
      (fun (span : Span) link => span.join link.expr.span) ⟨0, 0⟩ = ⟨0, 0⟩ := by
    intro links
    induction links with
    | nil => rfl
    | cons l rest ih =>
      rw [List.map_cons, List.foldl_cons, Link.bare, Expr.span_bare]
      exact ih
  have hothers : second.bare :: more.map Link.bare = (second :: more).map Link.bare := rfl
  have hbetween : ((second :: more).map Link.bare).dropLast.map Link.expr =
      ((second :: more).dropLast.map Link.expr).map Expr.bare := by
    rw [← List.map_dropLast, List.map_map, List.map_map]
    rfl
  have hall : first.bare :: (second :: more).map Link.bare =
      (first :: second :: more).map Link.bare := rfl
  simp only [chainOf, hothers, List.getLast_map, hbetween, hall, ← List.map_reverse,
    linkFaults_bare]
  rw [Link.span_bare, hspan]
  cases backward <;> rfl

def Block.bare (b : Block) : Block := ⟨b.opened.map Span.bare, b.seen⟩

theorem scope_bare (b : Block) : b.bare.scope = b.scope := by
  rw [Block.scope, Block.scope, Block.bare, Option.isSome_map]

theorem start_bare (b : Block) (span : Span) :
    b.bare.start ⟨0, 0⟩ = ((b.start span).1.bare, (b.start span).2.map Located.bare) := by
  obtain ⟨_ | opened, _ | _⟩ := b <;> rfl

theorem close_bare (b : Block) (span : Span) :
    b.bare.close ⟨0, 0⟩ = ((b.close span).1.bare, (b.close span).2.map Located.bare) := by
  obtain ⟨_ | opened, seen⟩ := b <;> rfl

/-- A reading without places. -/
def Reading.bare (r : Reading) : Reading := ⟨r.program.bare, r.faults.map Located.bare⟩

theorem behind_bare (r : Reading) (lines : List Line) (faults : List (Located Fault)) :
    (r.behind lines faults).bare =
      r.bare.behind (lines.map fun line => ⟨line.scope, line.statement.bare⟩)
        (faults.map Located.bare) := by
  simp only [Reading.bare, Reading.behind, Program.bare, List.map_append]

/-- What stands for a statement, read or not. -/
def statementOf (result : Except Span Statement) : Statement :=
  match result with
  | .ok statement => statement
  | .error span => .error span

end Patchbay.Program
