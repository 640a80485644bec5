import Patchbay.Proofs.Program.Valuation

/-! A text read without faults has no error nodes in its program: whatever could not be read has
been reported. -/
namespace Patchbay

/-- Every part of the expression could be read. -/
inductive Expr.ErrorFree : Expr → Prop where
  | number (value unit span) : ErrorFree (.number value unit span)
  | unary (sign span) {operand} : ErrorFree operand → ErrorFree (.unary sign operand span)
  | binary (op span) {left right} : ErrorFree left → ErrorFree right →
      ErrorFree (.binary op left right span)
  | mapping (polarity span) {source low high} : ErrorFree source → ErrorFree low →
      ErrorFree high → ErrorFree (.mapping polarity source low high span)
  | construction (className name span) {args} : (∀ arg ∈ args, ErrorFree arg.value) →
      ErrorFree (.construction ⟨className, name, args, span⟩)
  | socket (object socket span) : ErrorFree (.socket object socket span)
  | output (object output span) : ErrorFree (.output object output span)
  | name (ident) : ErrorFree (.name ident)

theorem Expr.ErrorFree.withSpan {e : Expr} (h : e.ErrorFree) (span : Span) :
    (e.withSpan span).ErrorFree := by
  cases h with
  | number value unit _ => exact .number value unit span
  | unary sign _ h => exact .unary sign span h
  | binary op _ hl hr => exact .binary op span hl hr
  | mapping polarity _ hs hl hh => exact .mapping polarity span hs hl hh
  | construction className name _ h => exact .construction className name span h
  | socket object socket _ => exact .socket object socket span
  | output object output _ => exact .output object output span
  | name ident => exact .name _

def Statement.ErrorFree : Statement → Prop
  | .error _ => False
  | .definition _ value _ => value.ErrorFree
  | .construction c => (Expr.construction c).ErrorFree
  | .chain source steps target _ =>
    source.ErrorFree ∧ (∀ e ∈ steps, e.ErrorFree) ∧ target.ErrorFree

def Program.ErrorFree (p : Program) : Prop := ∀ line ∈ p.lines, line.statement.ErrorFree

namespace Program
variable {α : Type} {ts : List Token} {stop : Span}

/-- A step that reports no fault reads something, and something good. -/
def Clean (good : α → Prop) (s : Step ts α) : Prop :=
  s.faults = [] → ∃ value, s.result = .ok value ∧ good value

abbrev GoodLink : Link → Prop := fun l => l.expr.ErrorFree

abbrev GoodArg : Arg Expr → Prop := fun a => a.value.ErrorFree

abbrev GoodArgs : List (Arg Expr) × Span → Prop := fun as => ∀ a ∈ as.1, a.value.ErrorFree

abbrev GoodInterval : Expr × Expr × Span → Prop := fun i => i.1.ErrorFree ∧ i.2.1.ErrorFree

abbrev GoodLinks : List Link → Prop := fun ls => ∀ l ∈ ls, GoodLink l

theorem errorFree_chainOf (backward : Bool) {first second : Link} {more : List Link}
    (hf : GoodLink first) (hs : GoodLink second) (hm : GoodLinks more) :
    (chainOf backward first second more).1.ErrorFree := by
  have hothers : GoodLinks (second :: more) := List.forall_mem_cons.mpr ⟨hs, hm⟩
  have hlast : GoodLink ((second :: more).getLast (List.cons_ne_nil _ _)) :=
    hothers _ (List.getLast_mem _)
  have hbetween : ∀ e ∈ (second :: more).dropLast.map Link.expr, e.ErrorFree := by
    intro e he
    obtain ⟨l, hl, rfl⟩ := List.mem_map.mp he
    exact hothers l (List.dropLast_subset _ hl)
  rw [chainOf]
  cases backward with
  | true => exact ⟨hlast, fun e he => hbetween e (List.mem_reverse.mp he), hf⟩
  | false => exact ⟨hf, hbetween, hlast⟩

/-- What is read without faults is free of errors. -/
def errorless : Valuation where
  recovers := False
  link _ _ := GoodLink
  atom _ _ := GoodLink
  interval _ _ i := i.1.ErrorFree ∧ i.2.ErrorFree
  args _ _ as := ∀ a ∈ as, a.value.ErrorFree
  arg _ _ := GoodArg
  links _ := GoodLinks
  statement _ := Statement.ErrorFree
  lines _ ls := ∀ line ∈ ls, line.statement.ErrorFree
  ofAtom _ h := h
  binary op hl hr := .binary op _ hl hr
  mapping polarity span hs hi := .mapping polarity span hs hi.1 hi.2
  ends hl hh := ⟨hl, hh⟩
  ends_lost _ _ _ h := h.elim
  number _ value unit span := .number value unit span
  name _ ident := .name ident
  socket _ object socket span := .socket object socket span
  output _ object output span := .output object output span
  signed sign _ h := .unary sign _ h
  parens span h := h.withSpan span
  parens_lost _ _ _ h := h.elim
  construction className name span h := .construction className name span h
  args_nil _ := List.forall_mem_nil _
  args_cons h hs := List.forall_mem_cons.mpr ⟨h, hs⟩
  args_unclosed _ _ h := h.elim
  arg_lost _ _ _ h := h.elim
  argument _ h := h
  links_nil := List.forall_mem_nil _
  links_cons h hs := List.forall_mem_cons.mpr ⟨h, hs⟩
  definition _ _ h := h
  construct {_ _ c} h hc := show (Expr.construction c).ErrorFree from hc ▸ h
  unexpressed _ _ h := h.elim
  chain backward h := by
    obtain ⟨hfirst, hothers⟩ := List.forall_mem_cons.mp h
    obtain ⟨hsecond, hmore⟩ := List.forall_mem_cons.mp hothers
    exact errorFree_chainOf backward hfirst hsecond hmore
  lines_nil := List.forall_mem_nil _
  lines_cons _ hs hl := List.forall_mem_cons.mpr ⟨hs, hl⟩
  unclosed _ h := h.elim
  start _ _ h := h.elim
  close _ _ h := h.elim

theorem clean_of_account {good : α → Prop} {s : Step ts α}
    (h : (errorless.survey stop).Says (fun _ _ => good) s) : Clean good s := by
  intro hf
  obtain ⟨-, -, hresult⟩ := h trivial (.inr hf)
  cases hs : s.result with
  | ok value =>
    rw [hs] at hresult
    exact ⟨value, rfl, hresult⟩
  | error span =>
    rw [hs] at hresult
    exact hresult.1.elim

/-- A text read without faults gives a program without error nodes. -/
theorem errorFree_ofTokens {ts : List Token} (h : (ofTokens ts).faults = []) :
    (ofTokens ts).program.ErrorFree := errorless.lines_ofTokens ts (.inr h)

end Program
end Patchbay
