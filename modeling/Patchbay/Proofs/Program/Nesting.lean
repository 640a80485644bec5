import Patchbay.Proofs.Program.Levels
import Patchbay.Proofs.Program.Origin
import Patchbay.Proofs.Program.RoundTrip

/-! How deep the tree of a text can go, and how deeply readers are entered again for it. Signs,
parentheses and arguments are counted against the limit, whatever the tokens are; the ends of an
interval are not, so that mappings nest without end. -/
namespace Patchbay
open Program (nestingLimit)

/-- A step from an expression into one that it was read around. -/
inductive Descent where
  | operand
  | argument
  | bound
  deriving DecidableEq

/-- `leaf` lies below the expression, behind the steps of the path. The sides of an operation and
the source of a mapping are on the level of the whole. -/
inductive Expr.Path : Expr → List Descent → Expr → Prop where
  | here (e) : Path e [] e
  | operand (sign span) {operand leaf path} (h : Path operand path leaf) :
    Path (.unary sign operand span) (.operand :: path) leaf
  | left (op right span) {left leaf path} (h : Path left path leaf) :
    Path (.binary op left right span) path leaf
  | right (op left span) {right leaf path} (h : Path right path leaf) :
    Path (.binary op left right span) path leaf
  | source (polarity low high span) {source leaf path} (h : Path source path leaf) :
    Path (.mapping polarity source low high span) path leaf
  | low (polarity source high span) {low leaf path} (h : Path low path leaf) :
    Path (.mapping polarity source low high span) (.bound :: path) leaf
  | high (polarity source low span) {high leaf path} (h : Path high path leaf) :
    Path (.mapping polarity source low high span) (.bound :: path) leaf
  | argument {c arg leaf path} (ha : arg ∈ c.args) (h : Path arg.value path leaf) :
    Path (.construction c) (.argument :: path) leaf

/-- How many levels deeper a path ends, as the limit counts them. -/
def Descent.levels (path : List Descent) : Nat := path.countP (· ≠ .bound)

namespace Expr
open Descent (levels)
variable {depth : Nat} {e : Expr}

/-- Behind the steps of a path from the given depth, all levels of `leaf` are below the limit; or it
is the error node that an argument at the limit became. -/
def Fits (depth : Nat) (path : List Descent) (leaf : Expr) : Prop :=
  depth + levels path < nestingLimit ∨
    depth + levels path = nestingLimit ∧ path.getLast? = some .argument ∧ ∃ span, leaf = .error span

/-- What can be read at the given depth. -/
def Within (depth : Nat) (e : Expr) : Prop := ∀ path leaf, e.Path path leaf → Fits depth path leaf

theorem Within.lt (h : e.Within depth) : depth < nestingLimit := by
  obtain h | ⟨_, h, _⟩ := h [] e (.here e)
  · exact h
  · cases h

/-- One level further up there is one more below. -/
theorem Within.pred (h : e.Within (depth + 1)) : e.Within depth := by
  intro path leaf hp
  left
  obtain h | ⟨h, _, _⟩ := h path leaf hp
  · omega
  · omega

private theorem Fits.cons {path : List Descent} {leaf : Expr} {step : Descent}
    (h : Fits (depth + levels [step]) path leaf) : Fits depth (step :: path) leaf := by
  have hlevels : levels (step :: path) = levels [step] + levels path := by
    rw [← List.singleton_append]
    exact List.countP_append
  rw [Fits, hlevels, ← Nat.add_assoc]
  obtain h | ⟨h, hlast, hleaf⟩ := h
  · exact .inl h
  · refine .inr ⟨h, ?_, hleaf⟩
    rw [List.getLast?_cons, hlast]
    rfl

theorem within_error (h : depth < nestingLimit) (span : Span) : (error span).Within depth := by
  rintro path leaf ⟨⟩
  exact .inl h

theorem within_number (h : depth < nestingLimit) (value : Float) (unit : String) (span : Span) :
    (number value unit span).Within depth := by
  rintro path leaf ⟨⟩
  exact .inl h

theorem within_socket (h : depth < nestingLimit) (object member : Ident) (span : Span) :
    (socket object member span).Within depth := by
  rintro path leaf ⟨⟩
  exact .inl h

theorem within_output (h : depth < nestingLimit) (object member : Ident) (span : Span) :
    (output object member span).Within depth := by
  rintro path leaf ⟨⟩
  exact .inl h

theorem within_name (h : depth < nestingLimit) (ident : Ident) : (name ident).Within depth := by
  rintro path leaf ⟨⟩
  exact .inl h

theorem Within.unary (h : e.Within (depth + 1)) (sign : Sign) (span : Span) :
    (unary sign e span).Within depth := by
  intro path leaf hp
  cases hp with
  | here => exact .inl h.pred.lt
  | operand _ _ hp => exact Fits.cons (h _ _ hp)

theorem Within.binary {left right : Expr} (hl : left.Within depth) (hr : right.Within depth)
    (op : BinaryOp) (span : Span) : (binary op left right span).Within depth := by
  intro path leaf hp
  cases hp with
  | here => exact .inl hl.lt
  | left _ _ _ hp => exact hl _ _ hp
  | right _ _ _ hp => exact hr _ _ hp

theorem Within.mapping {source low high : Expr} (hs : source.Within depth)
    (hl : low.Within depth) (hh : high.Within depth) (polarity : Polarity) (span : Span) :
    (mapping polarity source low high span).Within depth := by
  intro path leaf hp
  cases hp with
  | here => exact .inl hs.lt
  | source _ _ _ _ hp => exact hs _ _ hp
  | low _ _ _ _ hp => exact Fits.cons (hl _ _ hp)
  | high _ _ _ _ hp => exact Fits.cons (hh _ _ hp)

/-- What can stand in an argument at the given depth. At the limit nothing could be read. -/
def WithinArgument (depth : Nat) (e : Expr) : Prop := e.Within depth ∨ ∃ span, e = .error span

theorem within_construction (hd : depth < nestingLimit) {c : Construction Expr}
    (h : ∀ arg ∈ c.args, arg.value.WithinArgument (depth + 1)) :
    (construction c).Within depth := by
  intro path leaf hp
  cases hp with
  | here => exact .inl hd
  | @argument _ arg _ path ha hp =>
    obtain h | ⟨span, hspan⟩ := h arg ha
    · exact Fits.cons (h _ _ hp)
    · rw [hspan] at hp
      cases hp
      rcases Nat.lt_or_eq_of_le (Nat.succ_le_of_lt hd) with hlt | heq
      · exact .inl hlt
      · exact .inr ⟨heq, rfl, span, rfl⟩

/-- A path does not depend on the place of the whole. -/
theorem Path.of_withSpan {span : Span} {path : List Descent} {leaf : Expr}
    (h : (e.withSpan span).Path path leaf) : path = [] ∨ e.Path path leaf := by
  cases e with
  | error _ | number _ _ _ | socket _ _ _ | output _ _ _ | name _ =>
    cases h
    exact .inl rfl
  | unary sign operand place =>
    cases h with
    | here => exact .inl rfl
    | operand _ _ h => exact .inr (.operand sign place h)
  | binary op left right place =>
    cases h with
    | here => exact .inl rfl
    | left _ _ _ h => exact .inr (.left op right place h)
    | right _ _ _ h => exact .inr (.right op left place h)
  | mapping polarity source low high place =>
    cases h with
    | here => exact .inl rfl
    | source _ _ _ _ h => exact .inr (.source polarity low high place h)
    | low _ _ _ _ h => exact .inr (.low polarity source high place h)
    | high _ _ _ _ h => exact .inr (.high polarity source low place h)
  | construction c =>
    obtain ⟨className, name, args, place⟩ := c
    cases h with
    | here => exact .inl rfl
    | argument ha h => exact .inr (.argument ha h)

theorem Within.withSpan (h : e.Within depth) (span : Span) : (e.withSpan span).Within depth := by
  intro path leaf hp
  obtain rfl | hp := hp.of_withSpan
  · exact .inl h.lt
  · exact h path leaf hp

end Expr

namespace Program
variable {α β : Type} {ts us : List Token}

private abbrev LinkWithin (depth : Nat) : Link → Prop := fun l => l.expr.Within depth

private abbrev ArgWithin (depth : Nat) : Arg Expr → Prop := fun a => a.value.WithinArgument depth

/-- All expressions of the statement were read at the top. -/
private abbrev StatementWithin : Statement → Prop := fun s => ∀ e ∈ s.exprs, e.Within 0

private theorem within_chainOf (backward : Bool) {first second : Link} {more : List Link}
    (h : ∀ l ∈ first :: second :: more, LinkWithin 0 l) :
    StatementWithin (chainOf backward first second more).1 := by
  obtain ⟨hf, hothers⟩ := List.forall_mem_cons.mp h
  have hexprs : ∀ e ∈ (second :: more).map Link.expr, e.Within 0 := by
    intro e he
    obtain ⟨l, hl, rfl⟩ := List.mem_map.mp he
    exact hothers l hl
  rw [map_expr_others] at hexprs
  obtain ⟨hbetween, hlast⟩ := List.forall_mem_append.mp hexprs
  rw [chainOf]
  cases backward with
  | true =>
    refine List.forall_mem_append.mpr ⟨List.forall_mem_cons.mpr ⟨?_, ?_⟩, ?_⟩
    · exact List.forall_mem_singleton.mp hlast
    · exact fun e he => hbetween e (List.mem_reverse.mp he)
    · exact List.forall_mem_singleton.mpr hf
  | false =>
    exact List.forall_mem_append.mpr ⟨List.forall_mem_cons.mpr ⟨hf, hbetween⟩, hlast⟩

/-- What is read keeps within the limit, whatever it is and wherever there are faults. The ends of an
interval are read at the depth of the source: there nothing is counted. -/
def fitting : Valuation where
  recovers := True
  link depth _ := LinkWithin depth
  atom depth _ l := ∀ upper, depth = upper + 1 → upper < nestingLimit → LinkWithin upper l
  interval depth _ i := depth < nestingLimit → i.1.Within depth ∧ i.2.Within depth
  args depth _ as := ∀ a ∈ as, ArgWithin depth a
  arg depth _ := ArgWithin depth
  links _ ls := ∀ l ∈ ls, LinkWithin 0 l
  statement _ := StatementWithin
  lines _ ls := ∀ line ∈ ls, StatementWithin line.statement
  ofAtom hd h := h _ rfl hd
  binary op hl hr := hl.binary hr op _
  mapping polarity span hs hi := hs.mapping (hi hs.lt).1 (hi hs.lt).2 polarity span
  ends hl hh _ := ⟨hl, hh⟩
  ends_lost _ _ span _ hd := ⟨Expr.within_error hd span, Expr.within_error hd span⟩
  number _ value unit span _ _ hd := Expr.within_number hd value unit span
  name _ ident _ _ hd := Expr.within_name hd ident
  socket _ object socket span _ _ hd := Expr.within_socket hd object socket span
  output _ object output span _ _ hd := Expr.within_output hd object output span
  signed sign _ h upper hupper _ := by
    subst hupper
    exact h.unary sign _
  parens span h upper hupper _ := by
    subst hupper
    exact h.pred.withSpan span
  parens_lost _ _ span _ _ _ hd := Expr.within_error hd span
  construction _ _ _ h upper hupper hd := by
    subst hupper
    exact Expr.within_construction hd h
  args_nil _ := List.forall_mem_nil _
  args_cons h hs := List.forall_mem_cons.mpr ⟨h, hs⟩
  args_unclosed _ _ _ h := h
  arg_lost _ _ span _ := .inr ⟨span, rfl⟩
  argument _ h := .inl h
  links_nil := List.forall_mem_nil _
  links_cons h hs := List.forall_mem_cons.mpr ⟨h, hs⟩
  definition _ _ h := List.forall_mem_singleton.mpr h
  construct h hc := List.forall_mem_singleton.mpr (hc ▸ h)
  unexpressed _ _ _ := List.forall_mem_nil _
  chain backward h := within_chainOf backward h
  lines_nil := List.forall_mem_nil _
  lines_cons _ hs hl := List.forall_mem_cons.mpr ⟨hs, hl⟩
  unclosed _ _ := List.forall_mem_nil _
  start _ _ _ h := h
  close _ _ _ h := h

/-- A step that reads something good and leaves nothing, whether or not it reports faults. -/
private def Exhausts (good : α → Prop) (s : Step ts α) : Prop :=
  s.rest = [] ∧ ∃ value, s.result = .ok value ∧ good value

section Exhausting
variable {good : α → Prop} {good' : β → Prop} {s : Step ts α} {mid : List Token}
  {next : α → (rest : List Token) → rest.length ≤ ts.length → Step rest β}
  {failed : Span → (rest : List Token) → rest.length ≤ ts.length → Step rest β}

private theorem Exhausts.either_ok {value : α} (hv : s.result = .ok value) (hr : s.rest = mid)
    (hn : ∀ le, Exhausts good' (next value mid le)) : Exhausts good' (s.either next failed) := by
  obtain ⟨result, faults, rest, le⟩ := s
  obtain rfl : result = .ok value := hv
  obtain rfl : rest = mid := hr
  exact hn le

private theorem Exhausts.either_error {span : Span} (he : s.result = .error span)
    (hr : s.rest = mid) (hn : ∀ le, Exhausts good' (failed span mid le)) :
    Exhausts good' (s.either next failed) := by
  obtain ⟨result, faults, rest, le⟩ := s
  obtain rfl : result = .error span := he
  obtain rfl : rest = mid := hr
  exact hn le

private theorem Exhausts.andThen (h : Exhausts good s)
    (hn : ∀ value le, good value → Exhausts good' (next value [] le)) :
    Exhausts good' (s.andThen next) := by
  obtain ⟨hrest, value, hvalue, hgood⟩ := h
  exact .either_ok hvalue hrest fun le => hn value le hgood

private theorem Exhausts.map (h : Exhausts good s) {f : α → β}
    (hf : ∀ value, good value → good' (f value)) : Exhausts good' (s.map f) := by
  obtain ⟨hrest, value, hvalue, hgood⟩ := h
  exact ⟨hrest, f value, by rw [Step.map, hvalue]; rfl, hf value hgood⟩

private theorem Exhausts.behind (h : Exhausts good s) {le : ts.length ≤ us.length} :
    Exhausts good (s.behind le : Step us α) := h

end Exhausting

/-- An operand that uses up the text is a whole expression. -/
private theorem exhausts_readExpr {good : Link → Prop} {stop : Span} {depth : Nat}
    (hd : depth < nestingLimit) (h : Exhausts good (readAtom stop (depth + 1) ts)) :
    Exhausts good (readExpr stop depth ts) := by
  have hoperand : Exhausts good (readOperand stop depth ts) := by
    rw [readOperand, if_neg (Nat.not_le_of_lt hd)]
    exact h
  have hfactor : Exhausts good (readFactor stop depth ts) := by
    rw [readFactor]
    refine hoperand.andThen fun source le hs => ?_
    rw [readMappings.eq_def]
    exact ⟨rfl, source, rfl, hs⟩
  have hproduct : Exhausts good (readProduct stop depth ts) := by
    rw [readProduct]
    refine hfactor.andThen fun left le hl => ?_
    rw [readFactors.eq_def]
    exact ⟨rfl, left, rfl, hl⟩
  rw [readExpr]
  refine hproduct.andThen fun left le hl => ?_
  rw [readTerms.eq_def]
  exact ⟨rfl, left, rfl, hl⟩

/-- At the limit nothing is read. -/
private theorem readExpr_limit (stop : Span) (ts : List Token) :
    ∃ span, (readExpr stop nestingLimit ts).result = .error span ∧
      (readExpr stop nestingLimit ts).rest = ts := by
  refine ⟨(ts.head?.map Token.span).getD stop, ?_⟩
  rw [readExpr, readProduct, readFactor, readOperand, if_pos (Nat.le_refl _)]
  exact ⟨rfl, rfl⟩

/-- Constructions opened one inside the other, and never closed. -/
def openings : Nat → List Token
  | 0 => []
  | n + 1 =>
    ⟨.keyword .new, ⟨0, 0⟩⟩ :: ⟨.name "Sine", ⟨0, 0⟩⟩ :: ⟨.mark .openParen, ⟨0, 0⟩⟩ :: openings n

/-- Arguments one inside the other, down to an error node. -/
private def Deep (n : Nat) (e : Expr) : Prop :=
  ∃ span, e.Path (List.replicate n .argument) (.error span)

private theorem andThen_error {s : Step ts α} {span : Span} (h : s.result = .error span)
    (next : α → (rest : List Token) → rest.length ≤ ts.length → Step rest β) :
    (s.andThen next).result = .error span ∧ (s.andThen next).rest = s.rest := by
  simp only [Step.andThen, Step.either, h]
  exact ⟨rfl, rfl⟩

/-- Behind an opening parenthesis the error node of the limit, or the constructions left. -/
private theorem exhausts_readArgList (stop : Span) {depth n : Nat} (hn : depth + n = nestingLimit)
    (h : n ≠ 0 → Exhausts (fun l => Deep n l.expr) (readExpr stop depth (openings n))) :
    Exhausts (fun as => ∃ arg, as.1 = [arg] ∧ Deep n arg.value)
      (readArgList stop depth [] (openings n)) := by
  rw [readArgList]
  cases n with
  | zero =>
    obtain rfl : depth = nestingLimit := hn
    obtain ⟨span, hresult, hrest⟩ := readExpr_limit stop []
    have harg : (readArg stop nestingLimit []).result = .error span ∧
        (readArg stop nestingLimit []).rest = [] := by
      rw [readArg.eq_def]
      obtain ⟨herror, hleft⟩ := andThen_error hresult _
      exact ⟨herror, hleft.trans hrest⟩
    refine .either_error harg.1 harg.2 fun le => ?_
    exact ⟨rfl, _, rfl, ⟨none, .error span⟩, rfl, span, .here _⟩
  | succ n =>
    have harg : Exhausts (fun arg => Deep (n + 1) arg.value)
        (readArg stop depth (openings (n + 1))) := by
      rw [readArg.eq_def]
      exact (h (Nat.succ_ne_zero n)).andThen fun l le hl => ⟨rfl, _, rfl, hl⟩
    obtain ⟨hrest, arg, hresult, hdeep⟩ := harg
    refine .either_ok hresult hrest fun le => ?_
    exact ⟨rfl, _, rfl, arg, rfl, hdeep⟩

private theorem exhausts_openings (stop : Span) {depth n : Nat} (hn : depth + n = nestingLimit)
    (hpos : n ≠ 0) : Exhausts (fun l => Deep n l.expr) (readExpr stop depth (openings n)) := by
  induction n generalizing depth with
  | zero => exact absurd rfl hpos
  | succ n ih =>
    have hlist := exhausts_readArgList stop (by omega : depth + 1 + n = nestingLimit)
      fun h => ih (by omega) h
    have hopen : Exhausts (fun as => ∃ arg, as.1 = [arg] ∧ Deep n arg.value)
        (readOpenArgs stop (depth + 1) (openings n)) := by
      rw [readOpenArgs.eq_def]
      cases n with
      | zero => exact hlist
      | succ n => exact hlist
    have hargs : Exhausts (fun as => ∃ arg, as.1 = [arg] ∧ Deep n arg.value)
        (readArgs stop (depth + 1) (⟨.mark .openParen, ⟨0, 0⟩⟩ :: openings n)) := by
      rw [readArgs]
      exact .either_ok rfl rfl fun le => hopen
    have hname : (readIdent stop (⟨.name "Sine", ⟨0, 0⟩⟩ :: ⟨.mark .openParen, ⟨0, 0⟩⟩ ::
        openings n)).rest = ⟨.mark .openParen, ⟨0, 0⟩⟩ :: openings n := rfl
    refine exhausts_readExpr (by omega) ?_
    rw [openings, readAtom.eq_def]
    refine Exhausts.behind (Exhausts.either_ok rfl hname fun le => hargs.map fun as has => ?_)
    obtain ⟨arg, hargs, span, hpath⟩ := has
    exact ⟨span, .argument (hargs ▸ List.mem_singleton_self arg) hpath⟩

/-- The tokens of a definition of a name by the given ones. -/
def defining (ts : List Token) : List Token :=
  ⟨.name "x", ⟨0, 0⟩⟩ :: ⟨.operator .assign, ⟨0, 0⟩⟩ :: ts

private theorem exhausts_readStatement {stop : Span} {good : Expr → Prop}
    (h : Exhausts (fun l => good l.expr) (readExpr stop 0 ts)) :
    Exhausts (fun s => ∃ e ∈ s.exprs, good e) (readStatement stop (defining ts)) := by
  rw [defining, readStatement.eq_def]
  exact h.map fun l hl => ⟨l.expr, List.mem_singleton_self _, hl⟩

private theorem exists_deep : ∃ e ∈ (ofTokens (defining (openings nestingLimit))).program.exprs,
    Deep nestingLimit e := by
  have hread := fun stop =>
    exhausts_readStatement (exhausts_openings stop (Nat.zero_add nestingLimit) (by decide))
  generalize openings nestingLimit = ts at hread
  rw [ofTokens]
  generalize (((defining ts).getLast?.map fun t => t.span.stop).getD 0) = stop
  obtain ⟨hrest, statement, hresult, e, he, hdeep⟩ := hread ⟨stop, stop⟩
  rw [readLines.eq_def, defining]
  dsimp only
  rw [defining] at hrest hresult
  rw [dif_pos (by rw [hrest]; exact Nat.zero_le _), hresult]
  exact ⟨e, List.mem_flatMap.mpr ⟨_, List.mem_cons_self, he⟩, hdeep⟩

private def gate : Expr := .name ⟨"gate", ⟨0, 0⟩⟩

/-- Mappings of a signal, each the first end of the interval of the next. -/
def ladder : Nat → Expr
  | 0 => gate
  | n + 1 => .mapping .unipolar gate (ladder n) gate ⟨0, 0⟩

/-- The program that gives a name to such mappings. -/
def ladderProgram (n : Nat) : Program :=
  ⟨[⟨.global, .definition ⟨"x", ⟨0, 0⟩⟩ (ladder n) ⟨0, 0⟩⟩]⟩

private theorem proper_ladder (n : Nat) : (ladder n).Proper := by
  induction n with
  | zero => exact .name _
  | succ n ih => exact .mapping _ _ (.name _) rfl ih (.name _)

/-- Brackets are no nesting. -/
private theorem nesting_ladder (n : Nat) : (ladder n).nesting = 0 := by
  induction n with
  | zero => rfl
  | succ n ih =>
    rw [ladder, nesting_mapping, ih]
    rfl

private theorem exists_path_of_bare_ladder {n : Nat} {e : Expr} (h : e.bare = (ladder n).bare) :
    ∃ leaf, e.Path (List.replicate n .bound) leaf := by
  induction n generalizing e with
  | zero => exact ⟨e, .here e⟩
  | succ n ih =>
    cases e with
    | mapping polarity source low high span =>
      obtain ⟨leaf, hpath⟩ := ih (Expr.mapping.inj h).2.2.1
      exact ⟨leaf, .low polarity source high span hpath⟩
    | _ => cases h

/-- The tokens of the mappings are read without faults, however many there are. -/
private theorem exists_ladder {n : Nat} {ts : List Token}
    (hts : ts.map Token.kind = (ladderProgram n).kinds) : (ofTokens ts).faults = [] ∧
    ∃ e ∈ (ofTokens ts).program.exprs, ∃ leaf, e.Path (List.replicate n .bound) leaf := by
  have hproper : ∀ line ∈ (ladderProgram n).lines, line.statement.Proper :=
    List.forall_mem_singleton.mpr (proper_ladder n)
  have hblock : (ladderProgram n).HasOneBlock :=
    ⟨(ladderProgram n).lines, [], [], rfl, by simp [ladderProgram], by simp, by simp⟩
  have hnesting : ∀ line ∈ (ladderProgram n).lines, line.statement.nesting < nestingLimit := by
    refine List.forall_mem_singleton.mpr ?_
    rw [Statement.nesting, nesting_ladder]
    decide
  obtain ⟨hfaults, hbare⟩ := ofTokens_of_kinds hproper hblock hnesting hts
  refine ⟨hfaults, ?_⟩
  generalize (ofTokens ts).program = p at hbare
  obtain ⟨lines⟩ := p
  obtain ⟨⟨scope, statement⟩, rfl, hline⟩ := List.map_eq_singleton_iff.mp (Program.mk.inj hbare)
  cases statement with
  | definition name value span =>
    obtain ⟨leaf, hpath⟩ := exists_path_of_bare_ladder
      (Statement.definition.inj (Line.mk.inj hline).2).2.1
    exact ⟨value, List.mem_singleton_self value, leaf, hpath⟩
  | _ => cases (Line.mk.inj hline).2

/-- Whatever the tokens are, reading them enters no reader again from within parentheses, behind
signs and in arguments more often at a time than the limit allows. A path through an expression that
is read takes fewer steps into operands and arguments than the limit; only the error node that an
argument became lies at the limit itself. -/
theorem nesting_within_limit (ts : List Token) :
    (Leveled.ofTokens ts).1 = ofTokens ts ∧ (Leveled.ofTokens ts).2 ≤ nestingLimit ∧
      ∀ e ∈ (ofTokens ts).program.exprs, ∀ path leaf, e.Path path leaf →
        Descent.levels path < nestingLimit ∨
          Descent.levels path = nestingLimit ∧ path.getLast? = some .argument ∧
            ∃ span, leaf = .error span := by
  obtain ⟨hreading, hlevels⟩ := leveled_ofTokens ts
  refine ⟨hreading, hlevels, fun e he path leaf hp => ?_⟩
  obtain ⟨line, hline, he⟩ := List.mem_flatMap.mp he
  have hfits := fitting.lines_ofTokens ts (.inl trivial) line hline e he path leaf hp
  rwa [Expr.Fits, Nat.zero_add] at hfits

theorem nesting_within_limit_openings : ∃ e path leaf,
    e ∈ (ofTokens (defining (openings nestingLimit))).program.exprs ∧ e.Path path leaf ∧
      path.length = nestingLimit ∧
      (Descent.levels path < nestingLimit ∨
        Descent.levels path = nestingLimit ∧ path.getLast? = some .argument ∧
          ∃ span, leaf = .error span) := by
  obtain ⟨e, he, span, hp⟩ := exists_deep
  exact ⟨e, _, _, he, hp, List.length_replicate, (nesting_within_limit _).2.2 e he _ _ hp⟩

/-- The limit itself is reached, at the error node of an argument. And no limit holds for the ends
of intervals, of which a text without faults has any number one inside the other. -/
theorem exists_path_nestingLimit :
    (∃ e ∈ (ofTokens (defining (openings nestingLimit))).program.exprs, ∃ span,
      e.Path (List.replicate nestingLimit .argument) (.error span)) ∧
    ∀ n, ∃ ts, ts.map Token.kind = (ladderProgram n).kinds ∧ (ofTokens ts).faults = [] ∧
      ∃ e ∈ (ofTokens ts).program.exprs, ∃ leaf, e.Path (List.replicate n .bound) leaf := by
  refine ⟨exists_deep, fun n => ?_⟩
  have hts : ((ladderProgram n).kinds.map fun kind => (⟨kind, ⟨0, 0⟩⟩ : Token)).map Token.kind =
      (ladderProgram n).kinds := by
    rw [List.map_map]
    exact List.map_id _
  exact ⟨_, hts, exists_ladder hts⟩

end Program
end Patchbay
