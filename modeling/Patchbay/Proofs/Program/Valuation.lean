import Patchbay.Proofs.Program.Survey

/-! Surveys of values, whichever tokens they are read from. -/
namespace Patchbay.Program

/-- What may hold of a value in view of the faults reported for it. -/
abbrev Valued (α : Type) := List (Located Fault) → α → Prop

/-- The laws that begin with `recovers` are about what is behind a fault. -/
structure Valuation where
  recovers : Prop
  link : Nat → Valued Link
  /-- An operand, where readers have gone one level down for it. -/
  atom : Nat → Valued Link
  interval : Nat → Valued (Expr × Expr)
  args : Nat → Valued (List (Arg Expr))
  arg : Nat → Valued (Arg Expr)
  links : Valued (List Link)
  statement : Valued Statement
  lines : Valued (List Line)
  ofAtom {d f l} : d < nestingLimit → atom (d + 1) f l → link d f l
  binary {d f g left right} (op) : link d f left → link d g right →
    link d (f ++ g) (.binary op left right)
  mapping {d f g source low high} (polarity span) : link d f source → interval d g (low, high) →
    link d (f ++ (source.unreadable ++ g)) ⟨.mapping polarity source.expr low high span, .source⟩
  ends {d f g low high} : link d f low → link d g high → interval d (f ++ g) (low.expr, high.expr)
  ends_lost (d f span) : recovers → interval d f (.error span, .error span)
  number (d value unit span) : atom d [] ⟨.number value unit span, .source⟩
  name (d ident) : atom d [] ⟨.name ident, .both⟩
  socket (d object socket span) : atom d [] ⟨.socket object socket span, .sink⟩
  output (d object output span) : atom d [] ⟨.output object output span, .source⟩
  signed {d f operand} (sign span) : link d f operand →
    atom d (f ++ operand.unreadable) (.signed sign span operand)
  parens {d f inner} (span) : link d f inner → atom d f ⟨inner.expr.withSpan span, inner.direction⟩
  parens_lost (d f span) : recovers → atom d f (.error span)
  construction {d f as} (className name span) : args d f as →
    atom d f ⟨.construction ⟨className, name, as, span⟩, .both⟩
  args_nil (d) : args d [] []
  args_cons {d f g a as} : arg d f a → args d g as → args d (f ++ g) (a :: as)
  args_unclosed {d f as} (stop ts) : recovers → args d f as →
    args d (f ++ (unexpected stop ts : Step ts (List (Arg Expr) × Span)).faults) as
  arg_lost (d f span) : recovers → arg d f ⟨none, .error span⟩
  argument {d f value} (label) : link d f value → arg d (f ++ value.unreadable) ⟨label, value.expr⟩
  links_nil : links [] []
  links_cons {f g l ls} : link 0 f l → links g ls → links (f ++ g) (l :: ls)
  definition {f value} (name span) : link 0 f value → statement f (.definition name value.expr span)
  construct {f l c} : link 0 f l → l.expr = .construction c → statement f (.construction c)
  unexpressed (f span) : recovers → statement f (.error span)
  chain {f first second more} (backward) : links f (first :: second :: more) →
    statement (f ++ (chainOf backward first second more).2) (chainOf backward first second more).1
  lines_nil : lines [] []
  lines_cons {f g s ls} (scope) : statement f s → lines g ls → lines (f ++ g) (⟨scope, s⟩ :: ls)
  unclosed (span) : recovers → lines [⟨.unclosedVoiceBlock, some span⟩] []
  start {f ls} (block span) : recovers → lines f ls → lines ((Block.start block span).2 ++ f) ls
  close {f ls} (block span) : recovers → lines f ls → lines ((Block.close block span).2 ++ f) ls

namespace Valuation
variable (V : Valuation)

/-- Faults of blocks, if there are any. -/
private theorem lines_behind {faults f : List (Located Fault)} {ls : List Line}
    (h : V.recovers ∨ faults = []) (hb : V.recovers → V.lines f ls → V.lines (faults ++ f) ls)
    (hl : V.lines f ls) : V.lines (faults ++ f) ls := by
  obtain hr | rfl := h
  · exact hb hr hl
  · exact hl

def survey (stop : Span) : Survey stop where
  toAccount := .plain V.recovers
  sum d f _ _ := V.link d f
  product d f _ _ := V.link d f
  factor d f _ _ := V.link d f
  mapped d f _ _ := V.link d f
  atom d f _ _ := V.atom d f
  interval d f _ _ i := V.interval d f (i.1, i.2.1)
  args d f _ _ as := V.args d f as.1
  argList d f _ _ as := V.args d f as.1
  arg d f _ _ := V.arg d f
  links _ f _ _ := V.links f
  statement f _ _ := V.statement f
  lines _ _ := V.lines
  told_sum _ _ _ := trivial
  told_factor _ _ _ := trivial
  told_mapped _ _ _ := trivial
  ofProduct h := h
  plus _ _ hl hr := V.binary _ hl hr
  ofFactor h := h
  times _ hl hr := V.binary _ hl hr
  ofMapped _ h := h
  ofAtom := V.ofAtom
  mapping _ _ hs hi := V.mapping _ _ hs hi
  ends _ _ hl hh := V.ends hl hh
  ends_lost hr _ _ _ := V.ends_lost _ _ _ hr
  number _ := V.number _ _ _ _
  name _ := V.name _ _
  socket _ := V.socket _ _ _ _
  output _ := V.output _ _ _ _
  signed _ h := V.signed _ _ h
  parens _ _ h := V.parens _ h
  parens_lost hr _ _ _ := V.parens_lost _ _ _ hr
  anonymous _ h := V.construction _ _ _ h
  named _ h := V.construction _ _ _ h
  args_none _ := V.args_nil _
  args_some _ h := h
  argList_last {d _ _ _ _ _} _ h := by simpa using V.args_cons h (V.args_nil d)
  argList_more _ h hs := V.args_cons h hs
  argList_unclosed {d _ _ _ _ _ _} hr _ h _ := by
    simpa using V.args_unclosed _ _ hr (V.args_cons h (V.args_nil d))
  argList_lost {d f _ _ _ _} hr _ _ _ := by
    simpa using V.args_cons (V.arg_lost d f _ hr) (V.args_nil d)
  positional h := V.argument _ h
  labelled _ h := V.argument _ h
  links_nil := V.links_nil
  links_cons _ _ _ h hs := V.links_cons h hs
  definition _ h := V.definition _ _ h
  construct := V.construct
  unexpressed hr _ := V.unexpressed _ _ hr
  chain _ _ _ hf hs hm := by
    refine ⟨trivial, ?_⟩
    simpa only [List.append_assoc] using V.chain _ (V.links_cons hf (V.links_cons hs hm))
  finished _ := V.lines_nil
  unclosed hr _ := V.unclosed _ hr
  start h _ hl := V.lines_behind h (V.start _ _) hl
  close h _ hl := V.lines_behind h (V.close _ _) hl
  line _ _ hs hl := V.lines_cons _ hs hl
  line_stuck _ _ hs hl := V.lines_cons _ hs hl
  line_lost hr _ _ hl := V.lines_cons _ (V.unexpressed _ _ hr) hl

theorem lines_ofTokens (ts : List Token) (h : V.recovers ∨ (ofTokens ts).faults = []) :
    V.lines (ofTokens ts).faults (ofTokens ts).program.lines :=
  (V.survey _).lines_readLines _ ts trivial h

end Valuation
end Patchbay.Program
