import Patchbay.Proofs.Program.Exchange

/-! What tokens are read as depends neither on their places nor on what stands behind them. Apart
from places they are read the same with faults and all, and without faults up to something that
ends any expression they are read the same before whatever does not go on with them. -/
namespace Patchbay.Program
variable {α β : Type} {whole : Prop} {stop' : Span} {ts us rest rest' : List Token}

theorem faults_either_ne_nil {s : Step ts α} (h : s.faults ≠ [])
    {next : α → (rest : List Token) → rest.length ≤ ts.length → Step rest β}
    {failed : Span → (rest : List Token) → rest.length ≤ ts.length → Step rest β} :
    (s.either next failed).faults ≠ [] := fun hf => h (List.append_eq_nil_iff.mp hf).1

theorem faults_unexpected_ne_nil (stop : Span) (ts : List Token) :
    (unexpected stop ts : Step ts α).faults ≠ [] := by
  cases ts <;> exact List.cons_ne_nil _ _

/-- Where no operand can be read, no expression can. -/
theorem faults_readExpr_ne_nil {stop : Span} {depth : Nat}
    (h : (readAtom stop (depth + 1) ts).faults ≠ []) : (readExpr stop depth ts).faults ≠ [] := by
  rw [readExpr]
  refine faults_either_ne_nil ?_
  rw [readProduct]
  refine faults_either_ne_nil ?_
  rw [readFactor]
  refine faults_either_ne_nil ?_
  rw [readOperand]
  split
  · exact List.cons_ne_nil _ _
  · exact h

theorem Ends.faults_readAtom_ne_nil (h : Ends rest) (stop : Span) (depth : Nat) :
    (readAtom stop depth rest).faults ≠ [] := by
  obtain rfl | ⟨kind, span, more, rfl, rfl | rfl | rfl | rfl⟩ := h.eq_nil_or
  all_goals
    rw [readAtom.eq_def]
    exact faults_unexpected_ne_nil stop _

/-- Behind a name stands nothing that goes on with it, or one of three that do. -/
private theorem atomEnds_or (ts : List Token) : AtomEnds ts ∨
    (∃ span more, ts = ⟨.mark .dot, span⟩ :: more) ∨
    (∃ span more, ts = ⟨.mark .colon, span⟩ :: more) ∨
    ∃ name span bracket more, ts = ⟨.name name, span⟩ :: ⟨.mark .openParen, bracket⟩ :: more := by
  by_cases h : AtomEnds ts
  · exact .inl h
  · refine .inr (by_contra fun hnone => h ?_)
    push Not at hnone
    exact ⟨hnone.1, hnone.2.1, hnone.2.2⟩

private theorem AtomEnds.append (h : AtomEnds ts) (hr : Apart rest) : AtomEnds (ts ++ rest) := by
  cases ts with
  | nil => exact hr.stops.atom
  | cons t more =>
    refine ⟨?_, ?_, ?_⟩
    · rintro span _ ⟨⟩
      exact h.dot span more rfl
    · rintro span _ ⟨⟩
      exact h.colon span more rfl
    · intro name span bracket tail htail
      rw [List.cons_append] at htail
      obtain ⟨rfl, hmore⟩ := List.cons_eq_cons.mp htail
      cases more with
      | nil => exact hr.group bracket tail hmore
      | cons second more =>
        obtain ⟨rfl, _⟩ := List.cons_eq_cons.mp hmore
        exact h.construction name span bracket more rfl

private theorem AtomEnds.bare (h : AtomEnds ts) : AtomEnds (ts.map Token.bare) := by
  refine ⟨?_, ?_, ?_⟩
  · intro span more hts
    obtain ⟨span', tail, rfl, _⟩ := exists_of_bare_cons hts
    exact h.dot span' tail rfl
  · intro span more hts
    obtain ⟨span', tail, rfl, _⟩ := exists_of_bare_cons hts
    exact h.colon span' tail rfl
  · intro name span bracket more hts
    obtain ⟨span', tail, rfl, htail⟩ := exists_of_bare_cons hts
    obtain ⟨bracket', tail, rfl, _⟩ := exists_of_bare_cons htail
    exact h.construction name span' bracket' tail rfl

private theorem mirrors_unexpected (h : Exchange whole stop' rest rest') (f : α → β) (stop : Span)
    (us : List Token) : Mirrors whole us rest rest' f (unexpected stop (us ++ rest))
      (unexpected stop' (us.map Token.bare ++ rest')) := by
  refine .of_faults (faults_unexpected_ne_nil stop _) fun hw => ?_
  obtain ⟨rfl, rfl, rfl⟩ := h.alone hw
  cases us with
  | nil => exact fun _ => ⟨rfl, ⟨[], rfl, rfl⟩, hw, rfl⟩
  | cons t tail => exact fun _ => ⟨rfl, ⟨t :: tail, rfl, rfl⟩, hw, rfl⟩

private theorem mirrors_expect (h : Exchange whole stop' rest rest') {kind : Token.Kind}
    (hk : endsExpr kind = false) (stop : Span) (us : List Token) :
    Mirrors whole us rest rest' Span.bare (expect stop kind (us ++ rest))
      (expect stop' kind (us.map Token.bare ++ rest')) := by
  cases us with
  | nil =>
    have hnone : expect stop kind ([] ++ rest) = unexpected stop ([] ++ rest) := by
      rw [List.nil_append, expect.eq_def]
      split
      · rfl
      · next t more =>
        refine if_neg fun hkind => ?_
        exact h.ends.ne_cons hk t.span more (by rw [← hkind])
    rw [hnone]
    refine .of_faults (faults_unexpected_ne_nil stop _) fun hw => ?_
    obtain ⟨rfl, rfl, rfl⟩ := h.alone hw
    exact mirrors_unexpected h _ stop []
  | cons t tail =>
    change Mirrors whole (t :: tail) rest rest' Span.bare (expect stop kind (t :: (tail ++ rest)))
      (expect stop' kind (t.bare :: (tail.map Token.bare ++ rest')))
    rw [expect, expect]
    by_cases hkind : t.kind = kind
    · rw [if_pos hkind, if_pos (show t.bare.kind = kind from hkind)]
      exact .ok tail
    · rw [if_neg hkind, if_neg (show ¬ t.bare.kind = kind from hkind)]
      exact mirrors_unexpected h _ stop (t :: tail)

private theorem mirrors_readIdent (h : Exchange whole stop' rest rest') (stop : Span)
    (us : List Token) : Mirrors whole us rest rest' Ident.bare (readIdent stop (us ++ rest))
      (readIdent stop' (us.map Token.bare ++ rest')) := by
  cases us with
  | nil =>
    refine .of_faults ?_ fun hw => ?_
    · obtain rfl | ⟨kind, span, more, rfl, rfl | rfl | rfl | rfl⟩ := h.ends.eq_nil_or
      all_goals exact faults_unexpected_ne_nil stop _
    · obtain ⟨rfl, rfl, rfl⟩ := h.alone hw
      exact mirrors_unexpected h _ stop []
  | cons t tail =>
    obtain ⟨kind, span⟩ := t
    cases kind with
    | name name => exact .ok tail
    | _ => exact mirrors_unexpected h _ stop (_ :: tail)

/-- Only compared as a whole, readings go on to the end of a group. -/
private theorem mirrors_skipGroup (h : Exchange whole stop' rest rest') (hw : whole) (last : Span)
    (us : List Token) : Mirrors whole us rest rest' Span.bare (skipGroup last (us ++ rest))
      (skipGroup stop' (us.map Token.bare ++ rest')) := by
  obtain ⟨rfl, hnone, hnone'⟩ := h.alone hw
  induction us generalizing last with
  | nil =>
    subst hnone hnone'
    exact .done
  | cons t tail ih =>
    change Mirrors whole (t :: tail) rest rest' Span.bare (skipGroup last (t :: (tail ++ rest)))
      (skipGroup ⟨0, 0⟩ (t.bare :: (tail.map Token.bare ++ rest')))
    rw [skipGroup, skipGroup]
    by_cases hkind : (t.kind = .mark .closeParen || t.kind = .mark .closeBracket) = true
    · rw [if_pos hkind, if_pos (show (t.bare.kind = _ || t.bare.kind = _) = true from hkind)]
      exact .ok tail
    · rw [if_neg hkind, if_neg (show ¬ (t.bare.kind = _ || t.bare.kind = _) = true from hkind)]
      exact (ih t.span).behind

private theorem append_ne {kind : Token.Kind} (h : ∀ span more, us ≠ ⟨kind, span⟩ :: more)
    (hr : ∀ span more, rest ≠ ⟨kind, span⟩ :: more) (span : Span) (more : List Token) :
    us ++ rest ≠ ⟨kind, span⟩ :: more := by
  intro hus
  cases us with
  | nil => exact hr span more hus
  | cons t tail =>
    obtain ⟨rfl, _⟩ := List.cons_eq_cons.mp hus
    exact h span tail rfl

private theorem bare_ne {kind : Token.Kind} (h : ∀ span more, us ≠ ⟨kind, span⟩ :: more)
    (span : Span) (more : List Token) : us.map Token.bare ≠ ⟨kind, span⟩ :: more := by
  intro hus
  obtain ⟨span', tail, rfl, _⟩ := exists_of_bare_cons hus
  exact h span' tail rfl

private theorem readOpenArgs_eq {stop : Span} {depth : Nat}
    (h : ∀ span more, ts ≠ ⟨.mark .closeParen, span⟩ :: more) :
    readOpenArgs stop depth ts = readArgList stop depth [] ts := by
  rw [readOpenArgs.eq_def]
  split
  · next span more => exact absurd rfl (h span more)
  · rfl

private theorem readArg_eq {stop : Span} {depth : Nat}
    (h : ∀ span more, ts ≠ ⟨.mark .dot, span⟩ :: more) :
    readArg stop depth ts = (readExpr stop depth ts).andThen fun value _ _ =>
      (Step.done ⟨none, value.expr⟩).noting value.unreadable := by
  rw [readArg.eq_def]
  split
  · next span more => exact absurd rfl (h span more)
  · rfl

private theorem Ends.faults_readArg_ne_nil (h : Ends rest) (stop : Span) (depth : Nat) :
    (readArg stop depth rest).faults ≠ [] := by
  rw [readArg_eq (h.ne_cons rfl)]
  exact faults_either_ne_nil (faults_readExpr_ne_nil (h.faults_readAtom_ne_nil stop _))

private theorem Ends.faults_readOpenArgs_ne_nil (h : Ends rest) (stop : Span) (depth : Nat) :
    (readOpenArgs stop depth rest).faults ≠ [] := by
  rw [readOpenArgs_eq (h.ne_cons rfl), readArgList]
  exact faults_either_ne_nil (h.faults_readArg_ne_nil stop depth)

/-- What an interval is read as, without its places. -/
private abbrev bareInterval : Expr × Expr × Span → Expr × Expr × Span :=
  fun i => (i.1.bare, i.2.1.bare, i.2.2.bare)

/-- What arguments in parentheses are read as, without their places. -/
private abbrev bareArguments : List (Arg Expr) × Span → List (Arg Expr) × Span :=
  fun as => (bareArgs as.1, as.2.bare)

private abbrev bareArg : Arg Expr → Arg Expr := fun a => ⟨a.label.map Label.bare, a.value.bare⟩

-- The induction is on the tokens in front of the exchanged ones. What a part leaves of them is no
-- longer than they are, and the next part is read from it before the same exchange.
mutual

theorem mirrors_readExpr (h : Exchange whole stop' rest rest') (stop : Span) (depth : Nat)
    (us : List Token) : Mirrors whole us rest rest' Link.bare (readExpr stop depth (us ++ rest))
      (readExpr stop' depth (us.map Token.bare ++ rest')) := by
  rw [readExpr, readExpr]
  exact (mirrors_readProduct h stop depth us).andThen fun left more _ _ _ =>
    mirrors_readTerms h stop depth left more
termination_by 16 * us.length + 5

private theorem mirrors_readTerms (h : Exchange whole stop' rest rest') (stop : Span)
    (depth : Nat) (left : Link) (us : List Token) :
    Mirrors whole us rest rest' Link.bare (readTerms stop depth left (us ++ rest))
      (readTerms stop' depth left.bare (us.map Token.bare ++ rest')) := by
  cases us with
  | nil =>
    exact .of_done (readTerms_of_stops h.ends.apart.stops.sum)
      (readTerms_of_stops h.apart.stops.sum)
  | cons t tail =>
    change Mirrors whole (t :: tail) rest rest' Link.bare
      (readTerms stop depth left (t :: (tail ++ rest)))
      (readTerms stop' depth left.bare (t.bare :: (tail.map Token.bare ++ rest')))
    rw [readTerms.eq_def, readTerms.eq_def]
    dsimp only [Token.bare]
    cases sumOp? t.kind with
    | none => exact .done
    | some op =>
      refine Mirrors.behind ((mirrors_readProduct h stop depth tail).andThen
        fun right more _ _ _ => ?_)
      rw [Link.binary_bare]
      exact mirrors_readTerms h stop depth (.binary op left right) more
termination_by 16 * us.length

private theorem mirrors_readProduct (h : Exchange whole stop' rest rest') (stop : Span)
    (depth : Nat) (us : List Token) :
    Mirrors whole us rest rest' Link.bare (readProduct stop depth (us ++ rest))
      (readProduct stop' depth (us.map Token.bare ++ rest')) := by
  rw [readProduct, readProduct]
  exact (mirrors_readFactor h stop depth us).andThen fun left more _ _ _ =>
    mirrors_readFactors h stop depth left more
termination_by 16 * us.length + 4

private theorem mirrors_readFactors (h : Exchange whole stop' rest rest') (stop : Span)
    (depth : Nat) (left : Link) (us : List Token) :
    Mirrors whole us rest rest' Link.bare (readFactors stop depth left (us ++ rest))
      (readFactors stop' depth left.bare (us.map Token.bare ++ rest')) := by
  by_cases hstar : ∃ span tail, us = ⟨.operator .star, span⟩ :: tail
  · obtain ⟨span, tail, rfl⟩ := hstar
    rw [readFactors.eq_def, readFactors.eq_def]
    refine Mirrors.behind ((mirrors_readFactor h stop depth tail).andThen
      fun right more _ _ _ => ?_)
    rw [Link.binary_bare]
    exact mirrors_readFactors h stop depth (.binary .multiply left right) more
  · push Not at hstar
    exact .of_done (readFactors_of_stops (append_ne hstar h.ends.apart.stops.product))
      (readFactors_of_stops (append_ne (bare_ne hstar) h.apart.stops.product))
termination_by 16 * us.length
decreasing_by all_goals (subst_vars; simp only [List.length_cons] at *; omega)

private theorem mirrors_readFactor (h : Exchange whole stop' rest rest') (stop : Span)
    (depth : Nat) (us : List Token) :
    Mirrors whole us rest rest' Link.bare (readFactor stop depth (us ++ rest))
      (readFactor stop' depth (us.map Token.bare ++ rest')) := by
  rw [readFactor, readFactor]
  exact (mirrors_readOperand h stop depth us).andThen fun source more _ _ _ =>
    mirrors_readMappings h stop depth source more
termination_by 16 * us.length + 3

private theorem mirrors_readMappings (h : Exchange whole stop' rest rest') (stop : Span)
    (depth : Nat) (source : Link) (us : List Token) :
    Mirrors whole us rest rest' Link.bare (readMappings stop depth source (us ++ rest))
      (readMappings stop' depth source.bare (us.map Token.bare ++ rest')) := by
  cases us with
  | nil =>
    exact .of_done (readMappings_of_noMapping h.ends.apart.stops.mapping)
      (readMappings_of_noMapping h.apart.stops.mapping)
  | cons t tail =>
    change Mirrors whole (t :: tail) rest rest' Link.bare
      (readMappings stop depth source (t :: (tail ++ rest)))
      (readMappings stop' depth source.bare (t.bare :: (tail.map Token.bare ++ rest')))
    rw [readMappings.eq_def, readMappings.eq_def]
    dsimp only [Token.bare]
    cases polarity? t.kind with
    | none => exact .done
    | some polarity =>
      cases polarity with
      | unipolar =>
        exact ((mirrors_readMapping h .unipolar stop depth source tail).noting
          source.unreadable_bare).behind
      | bipolar =>
        refine Mirrors.behind (Mirrors.noting ?_ source.unreadable_bare)
        exact (mirrors_expect h rfl stop tail).andThen fun _ more _ _ _ =>
          mirrors_readMapping h .bipolar stop depth source more
termination_by 16 * us.length

private theorem mirrors_readMapping (h : Exchange whole stop' rest rest') (polarity : Polarity)
    (stop : Span) (depth : Nat) (source : Link) (us : List Token) :
    Mirrors whole us rest rest' Link.bare (readMapping polarity stop depth source (us ++ rest))
      (readMapping polarity stop' depth source.bare (us.map Token.bare ++ rest')) := by
  rw [readMapping, readMapping]
  refine Mirrors.andThen (f := bareInterval) ((mirrors_readInterval h stop depth us).orElse
    fun hw span more _ _ => ?_) fun i more _ _ _ => ?_
  · exact (mirrors_skipGroup h hw stop more).map fun _ => rfl
  have hsource : (⟨.mapping polarity source.bare.expr i.1.bare i.2.1.bare
        (source.bare.expr.span.join i.2.2.bare), .source⟩ : Link) =
      Link.bare ⟨.mapping polarity source.expr i.1 i.2.1 (source.expr.span.join i.2.2),
        .source⟩ := by
    rw [Link.bare, Link.bare, Expr.span_bare]
    rfl
  dsimp only [bareInterval]
  rw [hsource]
  exact mirrors_readMappings h stop depth _ more
termination_by 16 * us.length + 7

private theorem mirrors_readInterval (h : Exchange whole stop' rest rest') (stop : Span)
    (depth : Nat) (us : List Token) :
    Mirrors whole us rest rest' bareInterval (readInterval stop depth (us ++ rest))
      (readInterval stop' depth (us.map Token.bare ++ rest')) := by
  rw [readInterval, readInterval]
  refine (mirrors_readExpr h stop depth us).andThen fun low more _ _ _ => ?_
  refine (mirrors_expect h rfl stop more).andThen fun _ more _ _ _ => ?_
  refine (mirrors_readExpr h stop depth more).andThen fun high more _ _ _ => ?_
  exact (mirrors_expect h rfl stop more).map fun _ => rfl
termination_by 16 * us.length + 6

private theorem mirrors_readOperand (h : Exchange whole stop' rest rest') (stop : Span)
    (depth : Nat) (us : List Token) :
    Mirrors whole us rest rest' Link.bare (readOperand stop depth (us ++ rest))
      (readOperand stop' depth (us.map Token.bare ++ rest')) := by
  rw [readOperand, readOperand]
  by_cases hdepth : nestingLimit ≤ depth
  · rw [if_pos hdepth, if_pos hdepth]
    refine .of_faults (List.cons_ne_nil _ _) fun hw => ?_
    obtain ⟨rfl, rfl, rfl⟩ := h.alone hw
    have hplace : ((us.map Token.bare ++ []).head?.map Token.span).getD ⟨0, 0⟩ = ⟨0, 0⟩ := by
      cases us <;> rfl
    dsimp only
    rw [hplace]
    exact (Mirrors.failed hw _).noting rfl
  · rw [if_neg hdepth, if_neg hdepth]
    exact mirrors_readAtom h stop (depth + 1) us
termination_by 16 * us.length + 2

private theorem mirrors_readAtom (h : Exchange whole stop' rest rest') (stop : Span)
    (depth : Nat) (us : List Token) :
    Mirrors whole us rest rest' Link.bare (readAtom stop depth (us ++ rest))
      (readAtom stop' depth (us.map Token.bare ++ rest')) := by
  cases us with
  | nil =>
    refine .of_faults (h.ends.faults_readAtom_ne_nil stop depth) fun hw => ?_
    obtain ⟨rfl, rfl, rfl⟩ := h.alone hw
    rw [readAtom.eq_def, readAtom.eq_def]
    exact mirrors_unexpected h _ stop []
  | cons t tail =>
    obtain ⟨kind, span⟩ := t
    cases kind with
    | number value unit =>
      rw [readAtom.eq_def, readAtom.eq_def]
      exact .ok tail
    | operator op =>
      cases op with
      | plus =>
        rw [readAtom.eq_def, readAtom.eq_def]
        exact (mirrors_readSigned h .plus span stop depth tail).behind
      | minus =>
        rw [readAtom.eq_def, readAtom.eq_def]
        exact (mirrors_readSigned h .minus span stop depth tail).behind
      | _ =>
        rw [readAtom.eq_def, readAtom.eq_def]
        exact mirrors_unexpected h _ stop (⟨.operator _, span⟩ :: tail)
    | mark m =>
      cases m with
      | openParen =>
        rw [readAtom.eq_def, readAtom.eq_def]
        refine Mirrors.behind (Mirrors.orElse (f := Link.bare) ?_ fun hw _ more _ _ => ?_)
        · refine (mirrors_readExpr h stop depth tail).andThen fun inner more _ _ _ => ?_
          refine (mirrors_expect h rfl stop more).map fun close => ?_
          exact congrArg (Link.mk · inner.direction) (inner.expr.withSpan_bare (span.join close))
        · exact (mirrors_skipGroup h hw stop more).map fun _ => rfl
      | _ =>
        rw [readAtom.eq_def, readAtom.eq_def]
        exact mirrors_unexpected h _ stop (⟨.mark _, span⟩ :: tail)
    | keyword k =>
      cases k with
      | new =>
        rw [readAtom.eq_def, readAtom.eq_def]
        refine Mirrors.behind ((mirrors_readIdent h stop tail).andThen
          fun className more _ _ _ => ?_)
        exact (mirrors_readArgs h stop depth more).map fun _ => rfl
      | _ =>
        rw [readAtom.eq_def, readAtom.eq_def]
        exact mirrors_unexpected h _ stop (⟨.keyword _, span⟩ :: tail)
    | name name =>
      obtain hatom | ⟨dot, more, rfl⟩ | ⟨colon, more, rfl⟩ | ⟨second, place, bracket, more, rfl⟩ :=
        atomEnds_or tail
      · exact .of_yields tail (yields_readAtom_name (hatom.append h.ends.apart))
          (yields_readAtom_name (hatom.bare.append h.apart))
      · rw [readAtom.eq_def, readAtom.eq_def]
        refine Mirrors.behind ((mirrors_readIdent h stop more).map fun _ => ?_)
        rfl
      · rw [readAtom.eq_def, readAtom.eq_def]
        refine Mirrors.behind ((mirrors_readIdent h stop more).map fun _ => ?_)
        rfl
      · rw [readAtom.eq_def, readAtom.eq_def]
        refine Mirrors.behind ((mirrors_readArgs h stop depth
          (⟨.mark .openParen, bracket⟩ :: more)).map fun _ => ?_)
        rfl
termination_by 16 * us.length + 1

private theorem mirrors_readSigned (h : Exchange whole stop' rest rest') (sign : Sign)
    (span stop : Span) (depth : Nat) (us : List Token) :
    Mirrors whole us rest rest' Link.bare (readSigned sign span stop depth (us ++ rest))
      (readSigned sign ⟨0, 0⟩ stop' depth (us.map Token.bare ++ rest')) := by
  rw [readSigned, readSigned]
  refine (mirrors_readFactor h stop depth us).andThen fun operand more _ _ _ => ?_
  have hsigned : Link.signed sign ⟨0, 0⟩ operand.bare = (Link.signed sign span operand).bare := by
    rw [Link.signed, Link.signed, Link.bare, Link.bare, Expr.span_bare]
    rfl
  rw [hsigned]
  exact Mirrors.done.noting operand.unreadable_bare
termination_by 16 * us.length + 4

private theorem mirrors_readArgs (h : Exchange whole stop' rest rest') (stop : Span)
    (depth : Nat) (us : List Token) :
    Mirrors whole us rest rest' bareArguments (readArgs stop depth (us ++ rest))
      (readArgs stop' depth (us.map Token.bare ++ rest')) := by
  rw [readArgs, readArgs]
  exact (mirrors_expect h rfl stop us).andThen fun _ more _ _ _ =>
    mirrors_readOpenArgs h stop depth more
termination_by 16 * us.length + 9

private theorem mirrors_readOpenArgs (h : Exchange whole stop' rest rest') (stop : Span)
    (depth : Nat) (us : List Token) :
    Mirrors whole us rest rest' bareArguments (readOpenArgs stop depth (us ++ rest))
      (readOpenArgs stop' depth (us.map Token.bare ++ rest')) := by
  cases us with
  | nil =>
    refine .of_faults (h.ends.faults_readOpenArgs_ne_nil stop depth) fun hw => ?_
    have hlist := mirrors_readArgList h stop depth [] []
    obtain ⟨rfl, rfl, rfl⟩ := h.alone hw
    rw [readOpenArgs.eq_def, readOpenArgs.eq_def]
    exact hlist
  | cons t tail =>
    obtain ⟨kind, span⟩ := t
    by_cases hclose : kind = .mark .closeParen
    · subst hclose
      rw [readOpenArgs.eq_def, readOpenArgs.eq_def]
      exact .ok tail
    · have hnone : ∀ place more, (⟨kind, span⟩ :: tail) ++ rest ≠
          ⟨.mark .closeParen, place⟩ :: more := by
        rintro _ _ ⟨⟩
        exact hclose rfl
      have hnone' : ∀ place more, (⟨kind, span⟩ :: tail).map Token.bare ++ rest' ≠
          ⟨.mark .closeParen, place⟩ :: more := by
        rintro _ _ ⟨⟩
        exact hclose rfl
      rw [readOpenArgs_eq hnone, readOpenArgs_eq hnone']
      exact mirrors_readArgList h stop depth [] (⟨kind, span⟩ :: tail)
termination_by 16 * us.length + 8

private theorem mirrors_readArgList (h : Exchange whole stop' rest rest') (stop : Span)
    (depth : Nat) (done : List (Arg Expr)) (us : List Token) :
    Mirrors whole us rest rest' bareArguments (readArgList stop depth done (us ++ rest))
      (readArgList stop' depth (done.map bareArg) (us.map Token.bare ++ rest')) := by
  have hall : ∀ args : List (Arg Expr), bareArgs args.reverse = (args.map bareArg).reverse :=
    fun args => by rw [bareArgs_eq_map, List.map_reverse]
  rw [readArgList, readArgList]
  refine (mirrors_readArg h stop depth us).either (fun arg more _ _ _ => ?_)
    fun hw span more _ _ => ?_
  · -- A token that ends no argument: nothing more is read unless to compare the whole.
    have other : Mirrors whole more rest rest' bareArguments
        ((unexpected stop (more ++ rest)).orElse fun _ rest _ =>
          (skipGroup stop rest).map fun close => ((arg :: done).reverse, close))
        ((unexpected stop' (more.map Token.bare ++ rest')).orElse fun _ rest _ =>
          (skipGroup stop' rest).map fun close =>
            ((bareArg arg :: done.map bareArg).reverse, close)) :=
      (mirrors_unexpected h _ stop more).orElse fun hw _ more _ _ =>
        (mirrors_skipGroup h hw stop more).map fun close =>
          congrArg (·, _) (hall (arg :: done)).symm
    cases more with
    | nil =>
      refine .of_faults ?_ fun hw => ?_
      · obtain rfl | ⟨kind, span, after, rfl, rfl | rfl | rfl | rfl⟩ := h.ends.eq_nil_or
        all_goals exact faults_either_ne_nil (faults_unexpected_ne_nil stop _)
      · obtain ⟨rfl, rfl, rfl⟩ := h.alone hw
        exact other
    | cons t tail =>
      obtain ⟨kind, span⟩ := t
      cases kind with
      | mark m =>
        cases m with
        | comma => exact (mirrors_readArgList h stop depth (arg :: done) tail).behind
        | closeParen =>
          refine .of_yields tail (.ok rfl) (.ok ?_)
          exact congrArg (·, _) (hall (arg :: done)).symm
        | _ => exact other
      | _ => exact other
  · exact (mirrors_skipGroup h hw stop more).map fun close =>
      congrArg (·, _) (hall (⟨none, .error span⟩ :: done)).symm
termination_by 16 * us.length + 7

private theorem mirrors_readArg (h : Exchange whole stop' rest rest') (stop : Span)
    (depth : Nat) (us : List Token) :
    Mirrors whole us rest rest' bareArg (readArg stop depth (us ++ rest))
      (readArg stop' depth (us.map Token.bare ++ rest')) := by
  by_cases hdot : ∃ span tail, us = ⟨.mark .dot, span⟩ :: tail
  · obtain ⟨span, tail, rfl⟩ := hdot
    rw [readArg.eq_def, readArg.eq_def]
    refine Mirrors.behind ((mirrors_readIdent h stop tail).andThen
      fun socket more _ _ _ => ?_)
    refine (mirrors_expect h rfl stop more).andThen fun _ more _ _ _ => ?_
    refine (mirrors_readExpr h stop depth more).andThen fun value _ _ _ _ => ?_
    have hlabel : socket.bare.span.join value.bare.expr.span =
        (socket.span.join value.expr.span).bare := by
      rw [Link.bare, Expr.span_bare]
      rfl
    rw [hlabel]
    exact Mirrors.done.noting value.unreadable_bare
  · push Not at hdot
    rw [readArg_eq (append_ne hdot (h.ends.ne_cons rfl)),
      readArg_eq (append_ne (bare_ne hdot) h.apart.stops.atom.dot)]
    exact (mirrors_readExpr h stop depth us).andThen fun value _ _ _ _ =>
      Mirrors.done.noting value.unreadable_bare
termination_by 16 * us.length + 6
decreasing_by all_goals (subst_vars; simp only [List.length_cons] at *; omega)

end

/-- No token at the front goes on with a statement. -/
structure Fresh (rest : List Token) : Prop extends Follows rest where
  group : ∀ span more, rest ≠ ⟨.mark .openParen, span⟩ :: more
  assign : ∀ span more, rest ≠ ⟨.operator .assign, span⟩ :: more

theorem fresh_nil : Fresh [] := ⟨⟨apart_nil.stops, by simp⟩, by simp, by simp⟩

theorem Fresh.apart (h : Fresh rest) : Apart rest := ⟨h.stops, h.group⟩

/-- What lines are read up to, and what may stand in its place. -/
structure LineExchange (whole : Prop) (stop' : Span) (rest rest' : List Token) : Prop where
  ends : Ends rest
  fresh : Fresh rest
  fresh' : Fresh rest'
  alone : whole → stop' = ⟨0, 0⟩ ∧ rest = [] ∧ rest' = []

theorem LineExchange.exchange (h : LineExchange whole stop' rest rest') :
    Exchange whole stop' rest rest' := ⟨h.ends, h.fresh'.apart, h.alone⟩

theorem readLinks_of_noArrow {stop : Span} {backward : Bool}
    (h : ∀ t ∈ ts.head?, isArrow true t = false) : readLinks backward stop ts = .done [] := by
  rw [readLinks.eq_def]
  split
  · rfl
  · next t more =>
    have harrow := h t rfl
    have hnone : ¬isArrow backward t = true := by
      simp only [isArrow] at harrow ⊢
      cases backward <;> simp_all
    rw [if_neg hnone]

private theorem mirrors_readLinks (h : LineExchange whole stop' rest rest') (backward : Bool)
    (stop : Span) (us : List Token) :
    Mirrors whole us rest rest' (List.map Link.bare) (readLinks backward stop (us ++ rest))
      (readLinks backward stop' (us.map Token.bare ++ rest')) := by
  cases us with
  | nil =>
    exact .of_done (readLinks_of_noArrow h.fresh.arrow) (readLinks_of_noArrow h.fresh'.arrow)
  | cons t tail =>
    change Mirrors whole (t :: tail) rest rest' (List.map Link.bare)
      (readLinks backward stop (t :: (tail ++ rest)))
      (readLinks backward stop' (t.bare :: (tail.map Token.bare ++ rest')))
    rw [readLinks.eq_def, readLinks.eq_def]
    have harrow : isArrow backward t.bare = isArrow backward t := rfl
    dsimp only
    rw [harrow]
    split
    · refine Mirrors.behind ((mirrors_readExpr h.exchange stop 0 tail).andThen
        fun link more _ _ _ => ?_)
      exact (mirrors_readLinks h backward stop more).map fun _ => rfl
    · exact .done
termination_by us.length
decreasing_by simp only [List.length_cons]; omega

private theorem mirrors_readChain (h : LineExchange whole stop' rest rest') (backward : Bool)
    (stop : Span) (first : Link) (us : List Token) :
    Mirrors whole us rest rest' Statement.bare (readChain backward stop first (us ++ rest))
      (readChain backward stop' first.bare (us.map Token.bare ++ rest')) := by
  rw [readChain, readChain]
  refine (mirrors_readExpr h.exchange stop 0 us).andThen fun second more _ _ _ => ?_
  refine (mirrors_readLinks h backward stop more).andThen fun links _ _ _ _ => ?_
  rw [bare_chainOf]
  exact Mirrors.done.noting rfl

/-- The statement of a link that no arrow follows. -/
def alone (first : Link) (ts : List Token) : Step ts Statement :=
  match first.expr with
  | .construction c => .done (.construction c)
  | other => (Step.done (.error other.span)).noting [⟨.unexpectedExpression, some other.span⟩]

private theorem mirrors_alone (first : Link) (us : List Token) :
    Mirrors whole us rest rest' Statement.bare (alone first (us ++ rest))
      (alone first.bare (us.map Token.bare ++ rest')) := by
  rw [alone, alone, Link.bare]
  cases first.expr with
  | construction c => exact .done
  | _ => exact Mirrors.done.noting rfl

/-- What a statement goes on with behind its first link. -/
def readBehind (stop : Span) (first : Link) : (ts : List Token) → Step ts Statement
  | ⟨.operator .arrow, _⟩ :: rest => (readChain false stop first rest).behind Step.tail_le
  | ⟨.operator .backArrow, _⟩ :: rest => (readChain true stop first rest).behind Step.tail_le
  | ts => alone first ts

/-- The arrow that a chain in this direction begins with. -/
def firstWay : Bool → Operator
  | false => .arrow
  | true => .backArrow

theorem readBehind_firstWay (backward : Bool) (stop : Span) (first : Link) (span : Span)
    (ts : List Token) : readBehind stop first (⟨.operator (firstWay backward), span⟩ :: ts) =
      (readChain backward stop first ts).behind Step.tail_le := by
  rw [readBehind.eq_def]
  cases backward <;> rfl

theorem readRouting_eq_readBehind (stop : Span) (ts : List Token) : readRouting stop ts =
    (readExpr stop 0 ts).andThen fun first rest _ => readBehind stop first rest := by
  rw [readRouting]
  congr 1
  funext first rest _
  cases rest with
  | nil => rfl
  | cons t tail =>
    obtain ⟨kind, span⟩ := t
    cases kind with
    | operator o => cases o <;> rfl
    | _ => rfl

private theorem readBehind_of_noArrow {stop : Span} {first : Link}
    (h : ∀ t ∈ ts.head?, isArrow true t = false) : readBehind stop first ts = alone first ts := by
  rw [readBehind.eq_def]
  split
  · cases h _ rfl
  · cases h _ rfl
  · rfl

private theorem mirrors_readBehind (h : LineExchange whole stop' rest rest') (stop : Span)
    (first : Link) (us : List Token) :
    Mirrors whole us rest rest' Statement.bare (readBehind stop first (us ++ rest))
      (readBehind stop' first.bare (us.map Token.bare ++ rest')) := by
  -- Where no arrow is next, in either place.
  have hnone (h : ∀ t ∈ (us ++ rest).head?, isArrow true t = false)
      (h' : ∀ t ∈ (us.map Token.bare ++ rest').head?, isArrow true t = false) :
      Mirrors whole us rest rest' Statement.bare (readBehind stop first (us ++ rest))
        (readBehind stop' first.bare (us.map Token.bare ++ rest')) := by
    rw [readBehind_of_noArrow h, readBehind_of_noArrow h']
    exact mirrors_alone first us
  cases us with
  | nil => exact hnone h.fresh.arrow h.fresh'.arrow
  | cons t tail =>
    obtain ⟨kind, span⟩ := t
    by_cases hway : ∃ backward, kind = .operator (firstWay backward)
    · obtain ⟨backward, rfl⟩ := hway
      have hs : readBehind stop first (⟨.operator (firstWay backward), span⟩ :: tail ++ rest) =
          (readChain backward stop first (tail ++ rest)).behind Step.tail_le :=
        readBehind_firstWay backward stop first span (tail ++ rest)
      have hs' : readBehind stop' first.bare
          ((⟨.operator (firstWay backward), span⟩ :: tail).map Token.bare ++ rest') =
            (readChain backward stop' first.bare (tail.map Token.bare ++ rest')).behind
              Step.tail_le :=
        readBehind_firstWay backward stop' first.bare ⟨0, 0⟩ (tail.map Token.bare ++ rest')
      rw [hs, hs']
      exact (mirrors_readChain h backward stop first tail).behind
    · push Not at hway
      have harrow : kind ≠ .operator .arrow := hway false
      have hback : kind ≠ .operator .backArrow := hway true
      refine hnone ?_ ?_
      · rintro _ ⟨⟩
        simp [isArrow, harrow, hback]
      · rintro _ ⟨⟩
        simp [isArrow, Token.bare, harrow, hback]

private theorem mirrors_readRouting (h : LineExchange whole stop' rest rest') (stop : Span)
    (us : List Token) : Mirrors whole us rest rest' Statement.bare (readRouting stop (us ++ rest))
      (readRouting stop' (us.map Token.bare ++ rest')) := by
  rw [readRouting_eq_readBehind, readRouting_eq_readBehind]
  exact (mirrors_readExpr h.exchange stop 0 us).andThen fun first more _ _ _ =>
    mirrors_readBehind h stop first more

/-- No definition comes of what stands behind. -/
private theorem kinds_ne_definition
    (h : ∀ name place span more, us ≠ ⟨.name name, place⟩ :: ⟨.operator .assign, span⟩ :: more)
    (hne : us ≠ []) (hr : ∀ span more, rest ≠ ⟨.operator .assign, span⟩ :: more) (name : String)
    (kinds : List Token.Kind) :
    (us ++ rest).map Token.kind ≠ .name name :: .operator .assign :: kinds := by
  intro hkinds
  obtain ⟨place, after, hts, hafter⟩ := exists_of_kinds_cons hkinds
  obtain ⟨span, more, rfl, _⟩ := exists_of_kinds_cons hafter
  cases us with
  | nil => exact hne rfl
  | cons t tail =>
    obtain ⟨rfl, htail⟩ := List.cons_eq_cons.mp hts
    cases tail with
    | nil => exact hr span more htail
    | cons second tail =>
      obtain ⟨rfl, _⟩ := List.cons_eq_cons.mp htail
      exact h name place span tail rfl

theorem mirrors_readStatement (h : LineExchange whole stop' rest rest') (stop : Span)
    (us : List Token) :
    Mirrors whole us rest rest' Statement.bare (readStatement stop (us ++ rest))
      (readStatement stop' (us.map Token.bare ++ rest')) := by
  have hrouting := mirrors_readRouting h stop us
  by_cases hd : ∃ name place span more,
      us = ⟨.name name, place⟩ :: ⟨.operator .assign, span⟩ :: more
  · obtain ⟨name, place, span, more, rfl⟩ := hd
    rw [readStatement.eq_def, readStatement.eq_def]
    refine Mirrors.behind ((mirrors_readExpr h.exchange stop 0 more).map fun value => ?_)
    rw [Link.bare, Expr.span_bare]
    rfl
  · push Not at hd
    cases us with
    | nil =>
      refine .of_faults ?_ fun hw => ?_
      · rw [readStatement_eq_readRouting, readRouting_eq_readBehind]
        · exact faults_either_ne_nil (faults_readExpr_ne_nil (h.ends.faults_readAtom_ne_nil stop _))
        · intro name kinds hkinds
          obtain ⟨place, more, hrest, _⟩ := exists_of_kinds_cons hkinds
          exact h.ends.ne_cons rfl place more hrest
      · obtain ⟨rfl, rfl, rfl⟩ := h.alone hw
        rw [readStatement.eq_def, readStatement.eq_def]
        exact hrouting
    | cons t tail =>
      have hd' : ∀ name place span more, (t :: tail).map Token.bare ≠
          ⟨.name name, place⟩ :: ⟨.operator .assign, span⟩ :: more := by
        intro name place span more hus
        obtain ⟨place', after, hus, hafter⟩ := exists_of_bare_cons hus
        obtain ⟨span', more', rfl, _⟩ := exists_of_bare_cons hafter
        exact hd name place' span' more' hus
      rw [readStatement_eq_readRouting (kinds_ne_definition hd (by simp) h.fresh.assign),
        readStatement_eq_readRouting (kinds_ne_definition hd' (by simp) h.fresh'.assign)]
      exact hrouting

end Patchbay.Program
