import Patchbay.Proofs.Program.Faithful
import Patchbay.Proofs.Program.Printing

/-! Printed expressions are read back, with anything behind them that cannot go on with them. -/
namespace Patchbay.Program
open Token (Kind)
variable {α β : Type} {ts us rest mid : List Token}

/-- A step that reports no fault, leaves `rest`, and reads something good. -/
def Yields (rest : List Token) (good : α → Prop) (s : Step ts α) : Prop :=
  s.faults = [] ∧ s.rest = rest ∧ ∃ value, s.result = .ok value ∧ good value

namespace Yields
variable {good : α → Prop} {good' : β → Prop} {s : Step ts α}

theorem ok {value : α} {le : rest.length ≤ ts.length} (h : good value) :
    Yields rest good ⟨.ok value, [], rest, le⟩ :=
  ⟨rfl, rfl, value, rfl, h⟩

theorem done {value : α} (h : good value) : Yields ts good (Step.done value : Step ts α) := ok h

theorem imp {good' : α → Prop} (h : Yields rest good s) (hg : ∀ value, good value → good' value) :
    Yields rest good' s := by
  obtain ⟨hfaults, hrest, value, hvalue, hgood⟩ := h
  exact ⟨hfaults, hrest, value, hvalue, hg value hgood⟩

theorem either (h : Yields mid good s)
    {next : α → (rest : List Token) → rest.length ≤ ts.length → Step rest β}
    {failed : Span → (rest : List Token) → rest.length ≤ ts.length → Step rest β}
    (hn : ∀ value le, good value → Yields rest good' (next value mid le)) :
    Yields rest good' (s.either next failed) := by
  obtain ⟨result, faults, left, le⟩ := s
  obtain ⟨rfl, rfl, value, rfl, hgood⟩ := h
  obtain ⟨hfaults, hrest, hvalue⟩ := hn value le hgood
  exact ⟨hfaults, hrest, hvalue⟩

theorem andThen (h : Yields mid good s)
    {next : α → (rest : List Token) → rest.length ≤ ts.length → Step rest β}
    (hn : ∀ value le, good value → Yields rest good' (next value mid le)) :
    Yields rest good' (s.andThen next) := h.either hn

theorem orElse (h : Yields rest good s)
    (next : Span → (rest : List Token) → rest.length ≤ ts.length → Step rest α) :
    Yields rest good (s.orElse next) := h.either fun _ _ hgood => done hgood

theorem map (h : Yields rest good s) {f : α → β} (hf : ∀ value, good value → good' (f value)) :
    Yields rest good' (s.map f) := by
  obtain ⟨hfaults, hrest, value, hvalue, hgood⟩ := h
  exact ⟨hfaults, hrest, f value, by rw [Step.map, hvalue]; rfl, hf value hgood⟩

theorem behind (h : Yields rest good s) {le : ts.length ≤ us.length} :
    Yields rest good (s.behind le : Step us α) := h

theorem noting (h : Yields rest good s) {faults : List (Located Fault)} (hf : faults = []) :
    Yields rest good (s.noting faults) := by
  obtain ⟨hfaults, hrest, hvalue⟩ := h
  exact ⟨List.append_eq_nil_iff.mpr ⟨hf, hfaults⟩, hrest, hvalue⟩

end Yields

private theorem yields_expect (stop : Span) (kind : Kind) (span : Span) (rest : List Token) :
    Yields rest (fun _ => True) (expect stop kind (⟨kind, span⟩ :: rest)) := by
  rw [expect.eq_def]
  dsimp only
  rw [if_pos rfl]
  exact .ok trivial

private theorem yields_readIdent (stop : Span) (name : String) (span : Span) (rest : List Token) :
    Yields rest (fun ident => ident.name = name) (readIdent stop (⟨.name name, span⟩ :: rest)) := by
  rw [readIdent.eq_def]
  exact .ok rfl

theorem exists_of_kinds_cons {kind : Kind} {kinds : List Kind}
    (h : ts.map Token.kind = kind :: kinds) :
    ∃ span us, ts = ⟨kind, span⟩ :: us ∧ us.map Token.kind = kinds := by
  obtain ⟨⟨k, span⟩, us, rfl, rfl, hus⟩ := List.map_eq_cons_iff.mp h
  exact ⟨span, us, rfl, hus⟩

private theorem exists_of_kinds_singleton {kind : Kind} (h : ts.map Token.kind = [kind]) :
    ∃ span, ts = [⟨kind, span⟩] := by
  obtain ⟨span, us, rfl, hus⟩ := exists_of_kinds_cons h
  obtain rfl := List.map_eq_nil_iff.mp hus
  exact ⟨span, rfl⟩

theorem exists_of_kinds_append {kind : Kind} {front back : List Kind}
    (h : ts.map Token.kind = front ++ kind :: back) :
    ∃ us span vs, ts = us ++ ⟨kind, span⟩ :: vs ∧ us.map Token.kind = front ∧
      vs.map Token.kind = back := by
  obtain ⟨us, ws, rfl, hus, hws⟩ := List.map_eq_append_iff.mp h
  obtain ⟨span, vs, rfl, hvs⟩ := exists_of_kinds_cons hws
  exact ⟨us, span, vs, rfl, hus, hvs⟩

/-- No token at the front goes on with a name that was read. -/
structure AtomEnds (rest : List Token) : Prop where
  dot : ∀ span more, rest ≠ ⟨.mark .dot, span⟩ :: more
  colon : ∀ span more, rest ≠ ⟨.mark .colon, span⟩ :: more
  construction : ∀ name span bracket more,
    rest ≠ ⟨.name name, span⟩ :: ⟨.mark .openParen, bracket⟩ :: more

/-- No token at the front goes on with an expression that was read. -/
structure Stops (rest : List Token) : Prop where
  atom : AtomEnds rest
  mapping : NoMapping rest
  product : ∀ span more, rest ≠ ⟨.operator .star, span⟩ :: more
  sum : ∀ t ∈ rest.head?, sumOp? t.kind = none

private theorem atomEnds_cons {kind : Kind} (hd : kind ≠ .mark .dot) (hc : kind ≠ .mark .colon)
    (hn : ∀ name, kind ≠ .name name) (span : Span) (rest : List Token) :
    AtomEnds (⟨kind, span⟩ :: rest) := by
  constructor
  · rintro _ _ ⟨⟩
    exact hd rfl
  · rintro _ _ ⟨⟩
    exact hc rfl
  · rintro name _ _ _ ⟨⟩
    exact hn name rfl

/-- The tokens that can go on with an expression. Names can, by what stands behind them. -/
def goesOn : Kind → Bool
  | .mark .dot | .mark .colon | .mark .openBracket | .keyword .bi | .operator .star
  | .operator .plus | .operator .minus | .name _ => true
  | _ => false

theorem stops_cons {kind : Kind} (h : goesOn kind = false) (span : Span) (rest : List Token) :
    Stops (⟨kind, span⟩ :: rest) := by
  constructor
  · apply atomEnds_cons
    · rintro rfl
      cases h
    · rintro rfl
      cases h
    · rintro name rfl
      cases h
  · rintro t ⟨⟩
    rw [polarity?.eq_def]
    split <;> simp_all [goesOn]
  · rintro _ _ ⟨⟩
    cases h
  · rintro t ⟨⟩
    rw [sumOp?.eq_def]
    split <;> simp_all [goesOn]

theorem stops_name {kind : Kind} (h : kind ≠ .mark .openParen) (name : String) (span after : Span)
    (rest : List Token) : Stops (⟨.name name, span⟩ :: ⟨kind, after⟩ :: rest) := by
  constructor
  · constructor
    · simp
    · simp
    · rintro _ _ _ _ ⟨⟩
      exact h rfl
  · rintro t ⟨⟩
    rfl
  · simp
  · rintro t ⟨⟩
    rfl

theorem readFactors_of_stops {stop : Span} {depth : Nat} {left : Link}
    (h : ∀ span more, ts ≠ ⟨.operator .star, span⟩ :: more) :
    readFactors stop depth left ts = .done left := by
  rw [readFactors.eq_def]
  split
  · next span more => exact absurd rfl (h span more)
  · rfl

theorem readTerms_of_stops {stop : Span} {depth : Nat} {left : Link}
    (h : ∀ t ∈ ts.head?, sumOp? t.kind = none) : readTerms stop depth left ts = .done left := by
  rw [readTerms.eq_def]
  split
  · rfl
  · next t more =>
    rw [h t rfl]

section Levels
variable {good : Link → Prop} {stop : Span} {depth : Nat}

private theorem yields_readFactor (h : Yields rest good (readOperand stop depth ts))
    (hr : NoMapping rest) : Yields rest good (readFactor stop depth ts) := by
  rw [readFactor]
  refine h.andThen fun source _ hgood => ?_
  rw [readMappings_of_noMapping hr]
  exact .done hgood

private theorem yields_readProduct (h : Yields rest good (readFactor stop depth ts))
    (hr : ∀ span more, rest ≠ ⟨.operator .star, span⟩ :: more) :
    Yields rest good (readProduct stop depth ts) := by
  rw [readProduct]
  refine h.andThen fun left _ hgood => ?_
  rw [readFactors_of_stops hr]
  exact .done hgood

private theorem yields_readExpr (h : Yields rest good (readProduct stop depth ts))
    (hr : ∀ t ∈ rest.head?, sumOp? t.kind = none) :
    Yields rest good (readExpr stop depth ts) := by
  rw [readExpr]
  refine h.andThen fun left _ hgood => ?_
  rw [readTerms_of_stops hr]
  exact .done hgood

/-- A factor that nothing goes on with is an expression. -/
private theorem yields_readExpr_of_factor (h : Yields rest good (readFactor stop depth ts))
    (hr : Stops rest) : Yields rest good (readExpr stop depth ts) :=
  yields_readExpr (yields_readProduct h hr.product) hr.sum

end Levels

/-- The expression apart from places, with a direction that fits its form. -/
structure IsLink (e : Expr) (l : Link) : Prop where
  bare : l.expr.bare = e.bare
  honest : l.Honest

namespace IsLink
variable {e left right : Expr} {l r : Link}

theorem unreadable (h : IsLink e l) (hr : e.isReadable = true) : l.unreadable = [] := by
  rw [h.honest.unreadable_eq_nil_iff, ← Expr.isReadable_bare, h.bare, Expr.isReadable_bare, hr]

theorem withSpan (h : IsLink e l) (span : Span) :
    IsLink e ⟨l.expr.withSpan span, l.direction⟩ :=
  ⟨(Expr.bare_withSpan l.expr span).trans h.bare, h.honest.withSpan span⟩

theorem signed (h : IsLink e l) (sign : Sign) (span place : Span) :
    IsLink (.unary sign e span) (.signed sign place l) :=
  ⟨by simp only [Link.signed, Expr.bare, h.bare], rfl⟩

theorem binary (hl : IsLink left l) (hr : IsLink right r) (op : BinaryOp) (span : Span) :
    IsLink (.binary op left right span) (.binary op l r) :=
  ⟨by simp only [Link.binary, Expr.bare, hl.bare, hr.bare], rfl⟩

end IsLink

/-- Printed, the expression is read back by `readAtom`, whose depth counts the expression itself. -/
def ReadsAtom (e : Expr) : Prop :=
  ∀ (stop : Span) (depth : Nat) (ts rest : List Token), ts.map Token.kind = e.kinds →
    depth + e.nesting ≤ nestingLimit → AtomEnds rest →
      Yields rest (IsLink e) (readAtom stop depth (ts ++ rest))

/-- Printed as an operand, the expression is read as an operand. -/
def ReadsOperand (e : Expr) : Prop :=
  ∀ (stop : Span) (depth : Nat) (ts rest : List Token), ts.map Token.kind = e.operandKinds →
    depth + e.operandNesting < nestingLimit → AtomEnds rest →
      Yields rest (IsLink e) (readOperand stop depth (ts ++ rest))

/-- Printed, the expression is read back. -/
def ReadsExpr (e : Expr) : Prop :=
  ∀ (stop : Span) (depth : Nat) (ts rest : List Token), ts.map Token.kind = e.kinds →
    depth + e.nesting < nestingLimit → Stops rest →
      Yields rest (IsLink e) (readExpr stop depth (ts ++ rest))

/-- Printed on its own and as an operand, the expression is read back. -/
structure ReadsBack (e : Expr) : Prop where
  operand : ReadsOperand e
  expr : ReadsExpr e

private theorem yields_readOperand {good : Link → Prop} {stop : Span} {depth : Nat}
    (hd : depth < nestingLimit) (h : Yields rest good (readAtom stop (depth + 1) ts)) :
    Yields rest good (readOperand stop depth ts) := by
  rw [readOperand, if_neg (Nat.not_le.mpr hd)]
  exact h

theorem ReadsOperand.readsFactor {e : Expr} (h : ReadsOperand e) {stop : Span} {depth : Nat}
    (hts : ts.map Token.kind = e.operandKinds) (hd : depth + e.operandNesting < nestingLimit)
    (ha : AtomEnds rest) (hm : NoMapping rest) :
    Yields rest (IsLink e) (readFactor stop depth (ts ++ rest)) :=
  yields_readFactor (h stop depth ts rest hts hd ha) hm

theorem ReadsOperand.readsExpr {e : Expr} (h : ReadsOperand e) {stop : Span} {depth : Nat}
    (hts : ts.map Token.kind = e.operandKinds) (hd : depth + e.operandNesting < nestingLimit)
    (hr : Stops rest) : Yields rest (IsLink e) (readExpr stop depth (ts ++ rest)) :=
  yields_readExpr_of_factor (h.readsFactor hts hd hr.atom hr.mapping) hr

theorem ReadsBack.of_atom {e : Expr} (hc : e.isCompound = false) (h : ReadsAtom e) :
    ReadsBack e := by
  have hoperand : ReadsOperand e := by
    intro stop depth ts rest hts hd hr
    rw [operandKinds_of_not_isCompound hc] at hts
    rw [operandNesting_of_not_isCompound hc] at hd
    exact yields_readOperand (by omega) (h stop (depth + 1) ts rest hts (by omega) hr)
  refine ⟨hoperand, fun stop depth ts rest hts hd hr => ?_⟩
  rw [← operandKinds_of_not_isCompound hc] at hts
  rw [← operandNesting_of_not_isCompound hc] at hd
  exact hoperand.readsExpr hts hd hr

/-- What is no operand on its own is one in parentheses. -/
theorem ReadsBack.of_expr {e : Expr} (hc : e.isCompound = true) (h : ReadsExpr e) :
    ReadsBack e := by
  refine ⟨fun stop depth ts rest hts hd hr => ?_, h⟩
  rw [operandKinds_of_isCompound hc] at hts
  rw [operandNesting_of_isCompound hc] at hd
  obtain ⟨left, us, rfl, hus⟩ := exists_of_kinds_cons hts
  obtain ⟨vs, ws, rfl, hvs, hws⟩ := List.map_eq_append_iff.mp hus
  obtain ⟨right, rfl⟩ := exists_of_kinds_singleton hws
  rw [List.cons_append, List.append_assoc, List.singleton_append]
  refine yields_readOperand (by omega) ?_
  rw [readAtom.eq_def]
  refine Yields.behind (Yields.orElse ?_ _)
  refine (h stop (depth + 1) vs _ hvs (by omega) (stops_cons rfl right rest)).andThen
    fun inner _ hinner => ?_
  exact (yields_expect stop _ right rest).map fun close _ => hinner.withSpan _

private theorem readsAtom_number (value : Float) (unit : String) (span : Span) :
    ReadsAtom (.number value unit span) := by
  intro stop depth ts rest hts hd hr
  obtain ⟨place, rfl⟩ := exists_of_kinds_singleton hts
  rw [List.singleton_append, readAtom.eq_def]
  exact .ok ⟨rfl, rfl⟩

theorem yields_readAtom_name {stop span : Span} {depth : Nat} {name : String} (h : AtomEnds rest) :
    Yields rest (· = ⟨.name ⟨name, span⟩, .both⟩)
      (readAtom stop depth (⟨.name name, span⟩ :: rest)) := by
  generalize hus : (⟨.name name, span⟩ :: rest : List Token) = us
  rw [readAtom.eq_def]
  split <;> cases hus
  · exact absurd rfl (h.dot _ _)
  · exact absurd rfl (h.colon _ _)
  · exact absurd rfl (h.construction _ _ _ _)
  · exact .ok rfl
  · next hname => exact (hname _ _ _ rfl).elim

private theorem readsAtom_name (ident : Ident) : ReadsAtom (.name ident) := by
  intro stop depth ts rest hts hd hr
  obtain ⟨place, rfl⟩ := exists_of_kinds_singleton hts
  refine (yields_readAtom_name hr).imp ?_
  rintro _ rfl
  exact ⟨rfl, rfl⟩

private theorem readsAtom_socket (object socket : Ident) (span : Span) :
    ReadsAtom (.socket object socket span) := by
  intro stop depth ts rest hts hd hr
  obtain ⟨place, us, rfl, hus⟩ := exists_of_kinds_cons hts
  obtain ⟨dot, vs, rfl, hvs⟩ := exists_of_kinds_cons hus
  obtain ⟨socketSpan, rfl⟩ := exists_of_kinds_singleton hvs
  simp only [List.cons_append, List.nil_append]
  rw [readAtom.eq_def]
  refine Yields.behind ((yields_readIdent stop _ _ rest).map fun ident hident => ⟨?_, rfl⟩)
  simp only [Expr.bare, Ident.bare, hident]

private theorem readsAtom_output (object output : Ident) (span : Span) :
    ReadsAtom (.output object output span) := by
  intro stop depth ts rest hts hd hr
  obtain ⟨place, us, rfl, hus⟩ := exists_of_kinds_cons hts
  obtain ⟨colon, vs, rfl, hvs⟩ := exists_of_kinds_cons hus
  obtain ⟨outputSpan, rfl⟩ := exists_of_kinds_singleton hvs
  simp only [List.cons_append, List.nil_append]
  rw [readAtom.eq_def]
  refine Yields.behind ((yields_readIdent stop _ _ rest).map fun ident hident => ⟨?_, rfl⟩)
  simp only [Expr.bare, Ident.bare, hident]

private theorem readsExpr_unary (sign : Sign) {operand : Expr} (span : Span) (h : ReadsOperand operand)
    (hr : operand.isReadable = true) : ReadsExpr (.unary sign operand span) := by
  intro stop depth ts rest hts hd hrest
  rw [kinds_unary] at hts
  rw [nesting_unary] at hd
  obtain ⟨place, us, rfl, hus⟩ := exists_of_kinds_cons hts
  have hsigned : Yields rest (IsLink (.unary sign operand span))
      (readSigned sign place stop (depth + 1) (us ++ rest)) := by
    rw [readSigned]
    refine (h.readsFactor hus (by omega) hrest.atom hrest.mapping).andThen fun l _ hl => ?_
    exact (Yields.done (hl.signed sign span place)).noting (hl.unreadable hr)
  refine yields_readExpr_of_factor (yields_readFactor ?_ hrest.mapping) hrest
  refine yields_readOperand (by omega) ?_
  cases sign with
  | plus =>
    rw [Sign.kind, List.cons_append, readAtom.eq_def]
    exact hsigned.behind
  | minus =>
    rw [Sign.kind, List.cons_append, readAtom.eq_def]
    exact hsigned.behind

private theorem atomEnds_operator (o : Operator) (span : Span) (rest : List Token) :
    AtomEnds (⟨.operator o, span⟩ :: rest) :=
  atomEnds_cons (by simp) (by simp) (by simp) span rest

private theorem noMapping_operator (o : Operator) (span : Span) (rest : List Token) :
    NoMapping (⟨.operator o, span⟩ :: rest) := by
  rintro t ⟨⟩
  rfl

/-- Both operands are read as factors, with whatever operator between them. -/
private theorem yields_factors {op : BinaryOp} {left right : Expr} {span : Span} {depth : Nat}
    (hl : ReadsOperand left) (hr : ReadsOperand right)
    (hts : ts.map Token.kind = (Expr.binary op left right span).kinds)
    (hd : depth + (Expr.binary op left right span).nesting < nestingLimit) (hrest : Stops rest)
    (stop : Span) :
    ∃ us place vs, ts ++ rest = us ++ ⟨op.kind, place⟩ :: vs ∧
      Yields (⟨op.kind, place⟩ :: vs) (IsLink left)
        (readFactor stop depth (us ++ ⟨op.kind, place⟩ :: vs)) ∧
      Yields rest (IsLink right) (readFactor stop depth vs) := by
  rw [nesting_binary] at hd
  obtain ⟨us, place, vs, rfl, hus, hvs⟩ := exists_of_kinds_append hts
  refine ⟨us, place, vs ++ rest, List.append_assoc _ _ _, ?_, ?_⟩
  · obtain ⟨o, ho⟩ : ∃ o, op.kind = .operator o := by cases op <;> exact ⟨_, rfl⟩
    rw [ho]
    exact hl.readsFactor hus (by omega) (atomEnds_operator o place _) (noMapping_operator o place _)
  · exact hr.readsFactor hvs (by omega) hrest.atom hrest.mapping

private theorem readsExpr_multiply {left right : Expr} (span : Span) (hl : ReadsOperand left)
    (hr : ReadsOperand right) : ReadsExpr (.binary .multiply left right span) := by
  intro stop depth ts rest hts hd hrest
  obtain ⟨us, place, vs, hall, hleft, hright⟩ := yields_factors hl hr hts hd hrest stop
  rw [hall]
  refine yields_readExpr ?_ hrest.sum
  rw [readProduct]
  refine hleft.andThen fun l _ hl => ?_
  rw [BinaryOp.kind, readFactors.eq_def]
  refine Yields.behind (hright.andThen fun r _ hr => ?_)
  rw [readFactors_of_stops hrest.product]
  exact .done (hl.binary hr .multiply span)

private theorem readsExpr_sum {op : BinaryOp} {left right : Expr} (span : Span)
    (hop : sumOp? op.kind = some op) (hl : ReadsOperand left) (hr : ReadsOperand right) :
    ReadsExpr (.binary op left right span) := by
  intro stop depth ts rest hts hd hrest
  obtain ⟨us, place, vs, hall, hleft, hright⟩ := yields_factors hl hr hts hd hrest stop
  have hstar : op.kind ≠ .operator .star := by
    intro hkind
    rw [hkind] at hop
    cases hop
  rw [hall, readExpr]
  refine (yields_readProduct hleft ?_).andThen fun l _ hl => ?_
  · rintro _ _ hcons
    exact hstar (congrArg Token.kind (List.cons_eq_cons.mp hcons).1)
  rw [readTerms.eq_def]
  dsimp only
  rw [hop]
  refine Yields.behind ((yields_readProduct hright hrest.product).andThen fun r _ hr => ?_)
  rw [readTerms_of_stops hrest.sum]
  exact .done (hl.binary hr op span)

/-- The ends of an interval, with a comma between them and a bracket behind. -/
private theorem yields_readInterval {low high : Expr} {stop comma close : Span} {depth : Nat}
    (hl : ReadsExpr low) (hh : ReadsExpr high) (hts : ts.map Token.kind = low.kinds)
    (hus : us.map Token.kind = high.kinds) (hdl : depth + low.nesting < nestingLimit)
    (hdh : depth + high.nesting < nestingLimit) :
    Yields rest (fun i => i.1.bare = low.bare ∧ i.2.1.bare = high.bare)
      (readInterval stop depth
        (ts ++ ⟨.mark .comma, comma⟩ :: (us ++ ⟨.mark .closeBracket, close⟩ :: rest))) := by
  rw [readInterval]
  refine (hl stop depth ts _ hts hdl (stops_cons rfl _ _)).andThen fun low _ hlow => ?_
  refine (yields_expect stop _ comma _).andThen fun _ _ _ => ?_
  refine (hh stop depth us _ hus hdh (stops_cons rfl _ _)).andThen fun high _ hhigh => ?_
  exact (yields_expect stop _ close rest).map fun _ _ => ⟨hlow.bare, hhigh.bare⟩

private theorem atomEnds_polarity (polarity : Polarity) (h : ts.map Token.kind = polarity.kinds)
    (rest : List Token) : AtomEnds (ts ++ rest) := by
  cases polarity with
  | unipolar =>
    obtain ⟨bracket, us, rfl, _⟩ := exists_of_kinds_cons h
    exact atomEnds_cons (by simp) (by simp) (by simp) bracket _
  | bipolar =>
    obtain ⟨bi, us, rfl, _⟩ := exists_of_kinds_cons h
    exact atomEnds_cons (by simp) (by simp) (by simp) bi _

/-- One mapping behind its source. -/
private theorem yields_readMappings {polarity : Polarity} {source low high : Expr} {l : Link}
    {stop span : Span} {depth : Nat} {opener : List Token}
    (ho : opener.map Token.kind = polarity.kinds) (hs : IsLink source l)
    (hr : source.isReadable = true)
    (hi : Yields rest (fun i => i.1.bare = low.bare ∧ i.2.1.bare = high.bare)
      (readInterval stop depth ts)) (hn : NoMapping rest) :
    Yields rest (IsLink (.mapping polarity source low high span))
      (readMappings stop depth l (opener ++ ts)) := by
  have hmapping : Yields rest (IsLink (.mapping polarity source low high span))
      (readMapping polarity stop depth l ts) := by
    rw [readMapping]
    refine (hi.orElse _).andThen fun i _ hi => ?_
    dsimp only
    rw [readMappings_of_noMapping hn]
    refine .done ⟨?_, rfl⟩
    simp only [Expr.bare, hs.bare, hi.1, hi.2]
  cases polarity with
  | unipolar =>
    obtain ⟨bracket, rfl⟩ := exists_of_kinds_singleton ho
    rw [List.singleton_append, readMappings.eq_def]
    exact (hmapping.noting (hs.unreadable hr)).behind
  | bipolar =>
    obtain ⟨bi, us, rfl, hus⟩ := exists_of_kinds_cons ho
    obtain ⟨bracket, rfl⟩ := exists_of_kinds_singleton hus
    rw [List.cons_append, List.singleton_append, readMappings.eq_def]
    refine Yields.behind (Yields.noting ?_ (hs.unreadable hr))
    exact (yields_expect stop _ bracket ts).andThen fun _ _ _ => hmapping

private theorem readsExpr_mapping (polarity : Polarity) {source low high : Expr} (span : Span)
    (hs : ReadsOperand source) (hr : source.isReadable = true) (hl : ReadsExpr low)
    (hh : ReadsExpr high) : ReadsExpr (.mapping polarity source low high span) := by
  intro stop depth ts rest hts hd hrest
  rw [nesting_mapping] at hd
  simp only [kinds_mapping, List.append_assoc, List.cons_append] at hts
  obtain ⟨us, ws, rfl, hus, hws⟩ := List.map_eq_append_iff.mp hts
  obtain ⟨opener, vs, rfl, ho, hvs⟩ := List.map_eq_append_iff.mp hws
  obtain ⟨lows, comma, ws, rfl, hlows, hws⟩ := exists_of_kinds_append hvs
  obtain ⟨highs, close, more, rfl, hhighs, hmore⟩ := exists_of_kinds_append hws
  obtain rfl := List.map_eq_nil_iff.mp hmore
  have happend : us ++ (opener ++ (lows ++ ⟨.mark .comma, comma⟩ ::
      (highs ++ [⟨.mark .closeBracket, close⟩]))) ++ rest =
      us ++ (opener ++ (lows ++ ⟨.mark .comma, comma⟩ ::
        (highs ++ ⟨.mark .closeBracket, close⟩ :: rest))) := by simp
  rw [happend]
  refine yields_readExpr_of_factor ?_ hrest
  rw [readFactor]
  refine (hs stop depth us _ hus (by omega) (atomEnds_polarity polarity ho _)).andThen
    fun l _ hlink => ?_
  exact yields_readMappings ho hlink hr
    (yields_readInterval hl hh hlows hhighs (by omega) (by omega)) hrest.mapping

/-- The argument apart from places. -/
private def IsArg (arg read : Arg Expr) : Prop :=
  read.label.map Label.bare = arg.label.map Label.bare ∧ read.value.bare = arg.value.bare

/-- Printed, the arguments are read back behind those read before them. -/
private def ReadsArgs (args : List (Arg Expr)) : Prop :=
  (∀ arg ∈ args, arg.value.Proper ∧ arg.value.isReadable = true) → args ≠ [] →
    ∀ (stop close : Span) (depth : Nat) (done : List (Arg Expr)) (ts rest : List Token),
      ts.map Token.kind = (argKinds args).tail → depth + argNesting args ≤ nestingLimit →
        Yields rest (fun read => bareArgs read.1 = bareArgs (done.reverse ++ args))
          (readArgList stop depth done (ts ++ ⟨.mark .closeParen, close⟩ :: rest))

private theorem ne_dot_of_beginsArg (h : BeginsArg (ts.map Token.kind)) (span : Span) (rest : List Token) :
    ts ≠ ⟨.mark .dot, span⟩ :: rest := by
  rintro rfl
  obtain ⟨_, hdot, _⟩ := h
  exact hdot rfl

private theorem ne_closeParen_of_beginsArg (h : BeginsArg (ts.map Token.kind)) (span : Span)
    (rest : List Token) : ts ≠ ⟨.mark .closeParen, span⟩ :: rest := by
  rintro rfl
  obtain ⟨_, _, hclose⟩ := h
  exact hclose rfl

private theorem yields_readArg {label : Option Label} {value : Expr} {stop : Span} {depth : Nat}
    (h : ReadsExpr value) (hv : value.Proper) (hr : value.isReadable = true)
    (hts : ts.map Token.kind = (label.map Label.kinds).getD [] ++ value.kinds)
    (hd : depth + value.nesting < nestingLimit) (hrest : Stops rest) :
    Yields rest (IsArg ⟨label, value⟩) (readArg stop depth (ts ++ rest)) := by
  cases label with
  | none =>
    have hread := h stop depth ts rest hts hd hrest
    have hbegins : BeginsArg ((ts ++ rest).map Token.kind) := by
      rw [List.map_append, hts]
      exact hv.beginsArg.append _
    generalize ts ++ rest = us at hread hbegins ⊢
    rw [readArg.eq_def]
    split
    · exact absurd rfl (ne_dot_of_beginsArg hbegins _ _)
    · refine hread.andThen fun l _ hl => ?_
      exact (Yields.done ⟨rfl, hl.bare⟩).noting (hl.unreadable hr)
  | some label =>
    obtain ⟨dot, us, rfl, hus⟩ := exists_of_kinds_cons hts
    obtain ⟨socket, vs, rfl, hvs⟩ := exists_of_kinds_cons hus
    obtain ⟨assign, ws, rfl, hws⟩ := exists_of_kinds_cons hvs
    simp only [List.cons_append]
    rw [readArg.eq_def]
    refine Yields.behind ((yields_readIdent stop _ socket _).andThen fun name _ hname => ?_)
    refine (yields_expect stop _ assign _).andThen fun _ _ _ => ?_
    refine (h stop depth ws rest hws hd hrest).andThen fun l _ hl => ?_
    refine (Yields.done ⟨?_, hl.bare⟩).noting (hl.unreadable hr)
    simp only [Option.map_some, Label.bare, Ident.bare, hname]

private theorem readsArgs_cons {label : Option Label} {value : Expr} {args : List (Arg Expr)}
    (h : value.Proper → ReadsExpr value) (ih : ReadsArgs args) :
    ReadsArgs (⟨label, value⟩ :: args) := by
  intro hall _ stop close depth done ts rest hts hd
  obtain ⟨⟨hv, hr⟩, hargs⟩ := List.forall_mem_cons.mp hall
  rw [argNesting] at hd
  have harg : ∀ {us more}, us.map Token.kind = (label.map Label.kinds).getD [] ++ value.kinds →
      Stops more → Yields more (IsArg ⟨label, value⟩) (readArg stop depth (us ++ more)) :=
    fun hus hmore => yields_readArg (h hv) hv hr hus (by omega) hmore
  rw [argKinds, List.tail_cons] at hts
  rw [readArgList]
  cases args with
  | nil =>
    rw [argKinds, List.append_nil] at hts
    refine (harg hts (stops_cons rfl close rest)).either fun arg _ harg => ?_
    refine .ok ?_
    simp [bareArgs_eq_map, harg.1, harg.2]
  | cons next args =>
    obtain ⟨us, comma, vs, rfl, hus, hvs⟩ := exists_of_kinds_append hts
    rw [List.append_assoc, List.cons_append]
    refine (harg hus (stops_cons rfl comma _)).either fun arg _ harg => ?_
    have hmore :=
      ih hargs (List.cons_ne_nil _ _) stop close depth (arg :: done) vs rest hvs (by omega)
    refine Yields.behind (hmore.imp fun read hread => ?_)
    rw [hread]
    simp [bareArgs_eq_map, harg.1, harg.2]

/-- Behind an opening parenthesis, arguments are not mistaken for none. -/
private theorem ne_closeParen_of_argKinds {args : List (Arg Expr)} {kinds : List Kind}
    (hall : ∀ arg ∈ args, arg.value.Proper) (hne : args ≠ [])
    (hts : ts.map Token.kind = (argKinds args).tail ++ kinds) (span : Span) (rest : List Token) :
    ts ≠ ⟨.mark .closeParen, span⟩ :: rest := by
  obtain ⟨⟨label, value⟩, args, rfl⟩ := List.exists_cons_of_ne_nil hne
  cases label with
  | none =>
    apply ne_closeParen_of_beginsArg
    rw [hts]
    exact ((hall _ List.mem_cons_self).beginsArg.append _).append _
  | some label =>
    obtain ⟨dot, us, rfl, _⟩ := exists_of_kinds_cons hts
    simp

private theorem yields_readArgs {args : List (Arg Expr)} {stop : Span} {depth : Nat} (h : ReadsArgs args)
    (hall : ∀ arg ∈ args, arg.value.Proper ∧ arg.value.isReadable = true)
    (hts : ts.map Token.kind = .mark .openParen :: (argKinds args).tail ++ [.mark .closeParen])
    (hd : depth + argNesting args ≤ nestingLimit) (rest : List Token) :
    Yields rest (fun read => bareArgs read.1 = bareArgs args)
      (readArgs stop depth (ts ++ rest)) := by
  obtain ⟨bracket, us, rfl, hus⟩ := exists_of_kinds_cons hts
  obtain ⟨vs, close, more, rfl, hvs, hmore⟩ := exists_of_kinds_append hus
  obtain rfl := List.map_eq_nil_iff.mp hmore
  rw [List.cons_append, List.append_assoc, List.singleton_append, readArgs]
  refine (yields_expect stop _ bracket _).andThen fun _ _ _ => ?_
  by_cases hne : args = []
  · subst hne
    obtain rfl := List.map_eq_nil_iff.mp hvs
    rw [List.nil_append, readOpenArgs.eq_def]
    exact .ok rfl
  · have hlist := h hall hne stop close depth [] vs rest hvs hd
    have hfront : ∀ span more,
        vs ++ ⟨.mark .closeParen, close⟩ :: rest ≠ ⟨.mark .closeParen, span⟩ :: more :=
      ne_closeParen_of_argKinds (fun arg ha => (hall arg ha).1) hne (by rw [List.map_append, hvs])
    generalize vs ++ ⟨.mark .closeParen, close⟩ :: rest = ws at hlist hfront
    rw [readOpenArgs.eq_def]
    split
    · exact absurd rfl (hfront _ _)
    · exact hlist

private theorem readsAtom_construction {className : Ident} {name : Option Ident}
    {args : List (Arg Expr)} (span : Span) (h : ReadsArgs args)
    (hall : ∀ arg ∈ args, arg.value.Proper ∧ arg.value.isReadable = true) :
    ReadsAtom (.construction ⟨className, name, args, span⟩) := by
  intro stop depth ts rest hts hd hr
  have hargs : ∀ us : List Token,
      us.map Token.kind = .mark .openParen :: (argKinds args).tail ++ [.mark .closeParen] →
      Yields rest (fun read => bareArgs read.1 = bareArgs args)
        (readArgs stop depth (us ++ rest)) :=
    fun us hus => yields_readArgs h hall hus hd rest
  cases name with
  | none =>
    obtain ⟨new, us, rfl, hus⟩ := exists_of_kinds_cons hts
    obtain ⟨place, vs, rfl, hvs⟩ := exists_of_kinds_cons hus
    simp only [List.cons_append]
    rw [readAtom.eq_def]
    refine Yields.behind ((yields_readIdent stop _ place _).andThen fun ident _ hident => ?_)
    refine (hargs vs hvs).map fun read hread => ⟨?_, rfl⟩
    simp [Expr.bare, Construction.bare, Ident.bare, hident, hread]
  | some name =>
    obtain ⟨place, us, rfl, hus⟩ := exists_of_kinds_cons hts
    obtain ⟨nameSpan, vs, rfl, hvs⟩ := exists_of_kinds_cons hus
    obtain ⟨bracket, ws, rfl, hws⟩ := exists_of_kinds_cons hvs
    simp only [List.cons_append]
    rw [readAtom.eq_def]
    refine Yields.behind ((hargs _ hvs).map fun read hread => ⟨?_, rfl⟩)
    simp [Expr.bare, Construction.bare, Ident.bare, hread]

theorem readsBack (e : Expr) : e.Proper → ReadsBack e := by
  refine Expr.induction (motive := fun e => e.Proper → ReadsBack e) ReadsArgs ?error ?number
    ?unary ?binary ?mapping ?construction ?socket ?output ?name ?nil ?cons e
  case error => exact fun span h => (by cases h)
  case number => exact fun value unit span _ => .of_atom rfl (readsAtom_number value unit span)
  case unary =>
    intro sign operand span ih h
    cases h with
    | unary _ _ h hr => exact .of_expr rfl (readsExpr_unary sign span (ih h).operand hr)
  case binary =>
    intro op left right span ihl ihr h
    cases h with
    | binary _ _ hl hr =>
      have hleft := (ihl hl).operand
      have hright := (ihr hr).operand
      cases op with
      | add => exact .of_expr rfl (readsExpr_sum span rfl hleft hright)
      | subtract => exact .of_expr rfl (readsExpr_sum span rfl hleft hright)
      | multiply => exact .of_expr rfl (readsExpr_multiply span hleft hright)
  case mapping =>
    intro polarity source low high span ihs ihl ihh h
    cases h with
    | mapping _ _ hs hr hl hh =>
      exact .of_expr rfl
        (readsExpr_mapping polarity span (ihs hs).operand hr (ihl hl).expr (ihh hh).expr)
  case construction =>
    intro className name args span ih h
    cases h with
    | construction _ _ _ h hr =>
      exact .of_atom rfl (readsAtom_construction span ih fun arg ha => ⟨h arg ha, hr arg ha⟩)
  case socket =>
    exact fun object socket span _ => .of_atom rfl (readsAtom_socket object socket span)
  case output =>
    exact fun object output span _ => .of_atom rfl (readsAtom_output object output span)
  case name => exact fun ident _ => .of_atom rfl (readsAtom_name ident)
  case nil => exact fun _ hne => absurd rfl hne
  case cons => exact fun label value rest ih ihs => readsArgs_cons (fun h => (ih h).expr) ihs

end Patchbay.Program
