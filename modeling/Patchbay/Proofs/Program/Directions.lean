import Patchbay.Proofs.Program.Faithful

/-! Faults of direction show in the tree. Where a program has all its parts, and each is of a form
that fits its place, reading it has reported none of them. -/
namespace Patchbay

/-- Every part could be read, and what signals are read from is of a form that gives some. -/
inductive Expr.Directed : Expr → Prop where
  | number (value unit span) : Directed (.number value unit span)
  | unary (sign span) {operand} : Directed operand → operand.isReadable = true →
      Directed (.unary sign operand span)
  | binary (op span) {left right} : Directed left → Directed right →
      Directed (.binary op left right span)
  | mapping (polarity span) {source low high} : Directed source → source.isReadable = true →
      Directed low → Directed high → Directed (.mapping polarity source low high span)
  | construction (className name span) {args} : (∀ arg ∈ args, Directed arg.value) →
      (∀ arg ∈ args, arg.value.isReadable = true) →
      Directed (.construction ⟨className, name, args, span⟩)
  | socket (object socket span) : Directed (.socket object socket span)
  | output (object output span) : Directed (.output object output span)
  | name (ident) : Directed (.name ident)

theorem Expr.Directed.of_withSpan {e : Expr} {span : Span} (h : (e.withSpan span).Directed) :
    e.Directed := by
  cases e with
  | error _ => cases h
  | number value unit own => exact .number value unit own
  | unary sign operand own =>
    cases h with
    | unary _ _ h hr => exact .unary sign own h hr
  | binary op left right own =>
    cases h with
    | binary _ _ hl hr => exact .binary op own hl hr
  | mapping polarity source low high own =>
    cases h with
    | mapping _ _ hs hr hl hh => exact .mapping polarity own hs hr hl hh
  | construction c =>
    obtain ⟨className, name, args, own⟩ := c
    cases h with
    | construction _ _ _ h hr => exact .construction className name own h hr
  | socket object socket own => exact .socket object socket own
  | output object output own => exact .output object output own
  | name ident => exact .name ident

def Statement.Directed : Statement → Prop
  | .error _ => False
  | .definition _ value _ => value.Directed
  | .construction c => (Expr.construction c).Directed
  | .chain source steps target _ =>
    (∀ e ∈ source :: steps ++ [target], e.Directed) ∧
      Grammar.Connected (source :: steps ++ [target])

def Program.Directed (p : Program) : Prop := ∀ line ∈ p.lines, line.statement.Directed

namespace Program

/-- A signal that is read where none is given, or sent where none is taken. -/
def Fault.isDirection : Fault → Bool
  | unreadable | unwritable => true
  | _ => false

/-- No fault of direction is among these. -/
def Quiet (faults : List (Located Fault)) : Prop := ∀ f ∈ faults, f.fault.isDirection = false

variable {α : Type} {ts : List Token} {f : List (Located Fault)}

theorem quiet_nil : Quiet [] := fun _ h => absurd h List.not_mem_nil

theorem Quiet.append {first second : List (Located Fault)} (h : Quiet first) (h' : Quiet second) :
    Quiet (first ++ second) := List.forall_mem_append.mpr ⟨h, h'⟩

theorem quiet_unexpected (stop : Span) (ts : List Token) :
    Quiet (unexpected stop ts : Step ts α).faults := by
  cases ts with
  | nil => exact List.forall_mem_singleton.mpr rfl
  | cons t rest => exact List.forall_mem_singleton.mpr rfl

private abbrev Sound : Link → Prop := fun l => l.expr.Directed

private abbrev SoundArg : Arg Expr → Prop := fun a => a.value.Directed ∧ a.value.isReadable = true

private abbrev SoundLinks : List Link → Prop := fun ls => ∀ l ∈ ls, Sound l

/-- A link tells its form; if it is good then no fault of direction has been reported for it. -/
private abbrev Tells (faults : List (Located Fault)) (l : Link) : Prop :=
  l.Honest ∧ (Sound l → Quiet faults)

private theorem quiet_unreadable {l : Link} (h : l.Honest) (hr : l.expr.isReadable = true) :
    Quiet l.unreadable := by
  rw [h.unreadable_eq_nil_iff.mpr hr]
  exact quiet_nil

private theorem not_directed_error {span : Span} : ¬(Expr.error span).Directed := by
  intro h
  cases h

private theorem soundArgs_of_construction {className : Ident} {name : Option Ident}
    {args : List (Arg Expr)} {span : Span}
    (h : (Expr.construction ⟨className, name, args, span⟩).Directed) : ∀ a ∈ args, SoundArg a := by
  cases h with
  | construction _ _ _ h hr => exact fun a ha => ⟨h a ha, hr a ha⟩

/-- The links of a chain whose forms fit their places are good and without faults. -/
private theorem sound_chainOf (backward : Bool) {first second : Link} {more : List Link}
    (hh : ∀ l ∈ first :: second :: more, l.Honest)
    (h : (chainOf backward first second more).1.Directed) :
    SoundLinks (first :: second :: more) ∧ Quiet (chainOf backward first second more).2 := by
  have sound : ∀ links : List Link, (∀ l ∈ links, l.Honest) →
      ((∀ e ∈ links.map Link.expr, e.Directed) ∧ Grammar.Connected (links.map Link.expr)) →
        SoundLinks links ∧ Quiet (linkFaults links) := by
    intro links hhonest hlinks
    refine ⟨fun l hl => hlinks.1 l.expr (List.mem_map_of_mem hl), ?_⟩
    rw [(linkFaults_eq_nil_iff hhonest).mpr hlinks.2]
    exact quiet_nil
  cases backward with
  | false =>
    rw [chainOf, if_neg Bool.false_ne_true] at h ⊢
    refine sound (first :: second :: more) hh ?_
    rw [List.map_cons, map_expr_others]
    exact h
  | true =>
    rw [chainOf, if_pos rfl] at h ⊢
    have hreverse := sound (first :: second :: more).reverse
      (fun l hl => hh l (List.mem_reverse.mp hl))
    rw [List.map_reverse, List.map_cons, map_expr_others, List.reverse_cons, List.reverse_append]
      at hreverse
    obtain ⟨hsound, hquiet⟩ := hreverse h
    exact ⟨fun l hl => hsound l (List.mem_reverse.mpr hl), hquiet⟩

private theorem quiet_start (block : Block) (span : Span) : Quiet (block.start span).2 := by
  rw [Block.start]
  split
  · exact List.forall_mem_singleton.mpr rfl
  · dsimp only
    split
    · exact List.forall_mem_singleton.mpr rfl
    · exact quiet_nil

private theorem quiet_close (block : Block) (span : Span) : Quiet (block.close span).2 := by
  rw [Block.close]
  dsimp only
  split
  · exact quiet_nil
  · exact List.forall_mem_singleton.mpr rfl

/-- Faults of direction are reported only for what does not fit its place. -/
def directing : Valuation where
  recovers := True
  link _ := Tells
  atom _ := Tells
  interval _ faults i := i.1.Directed → i.2.Directed → Quiet faults
  args _ faults as := (∀ a ∈ as, SoundArg a) → Quiet faults
  arg _ faults a := SoundArg a → Quiet faults
  links faults ls := (∀ l ∈ ls, l.Honest) ∧ (SoundLinks ls → Quiet faults)
  statement faults s := s.Directed → Quiet faults
  lines faults ls := (∀ line ∈ ls, line.statement.Directed) → Quiet faults
  ofAtom _ h := h
  binary _ hl hr := by
    refine ⟨rfl, fun h => ?_⟩
    cases h with
    | binary _ _ hleft hright => exact (hl.2 hleft).append (hr.2 hright)
  mapping _ _ hs hi := by
    refine ⟨rfl, fun h => ?_⟩
    cases h with
    | mapping _ _ hsource hr hlow hhigh =>
      exact (hs.2 hsource).append ((quiet_unreadable hs.1 hr).append (hi hlow hhigh))
  ends hl hh hlow hhigh := (hl.2 hlow).append (hh.2 hhigh)
  ends_lost _ _ _ _ h := (not_directed_error h).elim
  number _ _ _ _ := ⟨rfl, fun _ => quiet_nil⟩
  name _ _ := ⟨rfl, fun _ => quiet_nil⟩
  socket _ _ _ _ := ⟨rfl, fun _ => quiet_nil⟩
  output _ _ _ _ := ⟨rfl, fun _ => quiet_nil⟩
  signed _ _ ho := by
    refine ⟨rfl, fun h => ?_⟩
    cases h with
    | unary _ _ hoperand hr => exact (ho.2 hoperand).append (quiet_unreadable ho.1 hr)
  parens span h := ⟨h.1.withSpan span, fun hs => h.2 hs.of_withSpan⟩
  parens_lost _ _ _ _ := ⟨rfl, fun h => (not_directed_error h).elim⟩
  construction _ _ _ ha := ⟨rfl, fun h => ha (soundArgs_of_construction h)⟩
  args_nil _ _ := quiet_nil
  args_cons h hs hall := by
    obtain ⟨harg, hargs⟩ := List.forall_mem_cons.mp hall
    exact (h harg).append (hs hargs)
  args_unclosed stop ts _ h hall := (h hall).append (quiet_unexpected stop ts)
  arg_lost _ _ _ _ h := (not_directed_error h.1).elim
  argument _ h hs := (h.2 hs.1).append (quiet_unreadable h.1 hs.2)
  links_nil := ⟨List.forall_mem_nil _, fun _ => quiet_nil⟩
  links_cons h hs := by
    refine ⟨List.forall_mem_cons.mpr ⟨h.1, hs.1⟩, fun hall => ?_⟩
    obtain ⟨hlink, hlinks⟩ := List.forall_mem_cons.mp hall
    exact (h.2 hlink).append (hs.2 hlinks)
  definition _ _ h := h.2
  construct {_ l _} h hc hs := h.2 (show l.expr.Directed from hc ▸ hs)
  unexpressed _ _ _ h := h.elim
  chain backward h hs := by
    obtain ⟨hlinks, hquiet⟩ := sound_chainOf backward h.1 hs
    exact (h.2 hlinks).append hquiet
  lines_nil _ := quiet_nil
  lines_cons _ hs hl hall := by
    obtain ⟨hline, hlines⟩ := List.forall_mem_cons.mp hall
    exact (hs hline).append (hl hlines)
  unclosed _ _ _ := List.forall_mem_singleton.mpr rfl
  start block span _ hl hall := (quiet_start block span).append (hl hall)
  close block span _ hl hall := (quiet_close block span).append (hl hall)

/-- No fault of direction is reported for a program whose parts are there and fit their places. -/
theorem quiet_ofTokens {ts : List Token} (h : (ofTokens ts).program.Directed) :
    Quiet (ofTokens ts).faults := directing.lines_ofTokens ts (.inl trivial) h

end Program
end Patchbay
