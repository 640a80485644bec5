import Mathlib.Data.List.Permutation
import Patchbay.Proofs.Program.ErrorFree
import Patchbay.Token.Scan

/-! A text read without faults is read faithfully: its tokens, each used once and in order, are a
program by the rules of the grammar, and it is the program that was read. -/
namespace Patchbay.Program
open Grammar
variable {α : Type} {ts us rest : List Token} {stop : Span} {f g : List (Located Fault)}

/-- The form of the expression tells how it may be connected. -/
def Link.Honest (l : Link) : Prop := l.direction = ⟨l.expr.isWritable, l.expr.isReadable⟩

theorem Link.Honest.unreadable_eq_nil_iff {l : Link} (h : l.Honest) :
    l.unreadable = [] ↔ l.expr.isReadable = true := by
  rw [Link.unreadable, show l.direction = _ from h]
  simp

theorem Link.Honest.unwritable_eq_nil_iff {l : Link} (h : l.Honest) :
    l.unwritable = [] ↔ l.expr.isWritable = true := by
  rw [Link.unwritable, show l.direction = _ from h]
  simp

theorem Link.Honest.withSpan {l : Link} (h : l.Honest) (span : Span) :
    Link.Honest ⟨l.expr.withSpan span, l.direction⟩ := by
  rw [Honest, show l.direction = _ from h]
  cases l.expr <;> rfl

/-- If there are no faults then tokens have been used up that are good for the value, in view of what
is left. -/
def Spelled (good : List Token → List Token → α → Prop) : Judgment α := fun faults ts rest value =>
  faults = [] → ∃ used, ts = used ++ rest ∧ good used rest value

private abbrev IsSum (ts : List Token) (l : Link) : Prop := Sum ts l.expr ∧ l.Honest

private abbrev IsProduct (ts : List Token) (l : Link) : Prop := Product ts l.expr ∧ l.Honest

private abbrev IsFactor (ts rest : List Token) (l : Link) : Prop :=
  Factor ts l.expr ∧ l.Honest ∧ NoMapping rest

/-- What is read before mappings: an atom with some of them, or something signed that has taken all. -/
private abbrev IsMapped (ts rest : List Token) (l : Link) : Prop :=
  Mapped ts l.expr ∧ l.Honest ∨ IsFactor ts rest l

private abbrev IsOperand (ts rest : List Token) (l : Link) : Prop :=
  Atom ts l.expr ∧ l.Honest ∨ IsFactor ts rest l

private abbrev IsInterval (ts _rest : List Token) (interval : Expr × Expr × Span) : Prop :=
  ∃ vs ws comma, ts = vs ++ ⟨.mark .comma, comma⟩ :: ws ++ [⟨.mark .closeBracket, interval.2.2⟩] ∧
    Sum vs interval.1 ∧ Sum ws interval.2.1

private abbrev IsArgs (ts : List Token) (args : List (Arg Expr) × Span) : Prop :=
  Args ts args.1 args.2

private abbrev IsArgList (ts _rest : List Token) (args : List (Arg Expr) × Span) : Prop :=
  ∃ us, ts = us ++ [⟨.mark .closeParen, args.2⟩] ∧ ArgList us args.1

private abbrev IsLinks (backward : Bool) (ts _rest : List Token) (links : List Link) : Prop :=
  Links backward ts (links.map Link.expr) ∧ ∀ l ∈ links, l.Honest

/-- Arrows of chains are as the grammar has them. -/
private theorem way_of_isArrow {backward : Bool} {t : Token} (h : isArrow backward t = true) :
    ∃ way, t = ⟨.operator way, t.span⟩ ∧ (way = .arrow ∨ backward = true ∧ way = .backArrow) := by
  obtain ⟨kind, span⟩ := t
  simp only [isArrow, Bool.or_eq_true, Bool.and_eq_true, decide_eq_true_eq] at h
  rcases h with rfl | ⟨hb, rfl⟩
  · exact ⟨.arrow, rfl, .inl rfl⟩
  · exact ⟨.backArrow, rfl, .inr ⟨hb, rfl⟩⟩

/-- Links are without faults if they are connected as their places ask for. -/
theorem linkFaults_eq_nil_iff {links : List Link} (h : ∀ l ∈ links, l.Honest) :
    linkFaults links = [] ↔ Connected (links.map Link.expr) := by
  rw [linkFaults, List.flatMap_eq_nil_iff, connected_iff, List.length_map]
  constructor
  · intro hf i e he
    rw [List.getElem?_map] at he
    obtain ⟨l, hl, rfl⟩ := Option.map_eq_some_iff.mp he
    have hhonest := h l (List.mem_of_getElem? hl)
    have hl := hf (l, i) (List.mem_zipIdx_iff_getElem?.mpr hl)
    rw [List.append_eq_nil_iff, ite_eq_right_iff, ite_eq_right_iff] at hl
    exact ⟨fun hi => hhonest.unreadable_eq_nil_iff.mp (hl.1 hi),
      fun hi => hhonest.unwritable_eq_nil_iff.mp (hl.2 hi)⟩
  · rintro hc ⟨l, i⟩ hl
    have hi : links[i]? = some l := List.mem_zipIdx_iff_getElem?.mp hl
    have hhonest := h l (List.mem_of_getElem? hi)
    obtain ⟨hread, hwrite⟩ := hc i l.expr (by rw [List.getElem?_map, hi]; rfl)
    rw [List.append_eq_nil_iff, ite_eq_right_iff, ite_eq_right_iff]
    exact ⟨fun hi => hhonest.unreadable_eq_nil_iff.mpr (hread hi),
      fun hi => hhonest.unwritable_eq_nil_iff.mpr (hwrite hi)⟩

private theorem foldl_span (span : Span) (links : List Link) :
    links.foldl (fun span link => span.join link.expr.span) span =
      (links.map Link.expr).foldl (fun span e => span.join e.span) span := by
  rw [List.foldl_map]

/-- The links behind the first one, with the last of them apart. -/
theorem map_expr_others (second : Link) (more : List Link) :
    (second :: more).map Link.expr = (second :: more).dropLast.map Link.expr ++
      [((second :: more).getLast (List.cons_ne_nil _ _)).expr] := by
  rw [← List.map_singleton, ← List.map_append, List.dropLast_concat_getLast]

/-- A chain written forward without faults. -/
private theorem sentence_forward {first second : Link} {more : List Link} {ts us : List Token}
    (hf : IsSum ts first) (hs : Links false us ((second :: more).map Link.expr))
    (hd : ∀ l ∈ second :: more, l.Honest) (h : (chainOf false first second more).2 = []) :
    Sentence (ts ++ us) (chainOf false first second more).1 := by
  have hconnected := (linkFaults_eq_nil_iff (List.forall_mem_cons.mpr ⟨hf.2, hd⟩)).mp h
  rw [List.map_cons, map_expr_others] at hconnected
  rw [map_expr_others] at hs
  rw [chainOf, if_neg Bool.false_ne_true, foldl_span, map_expr_others]
  exact .forward hf.1 hs hconnected

/-- A chain written backward without faults. -/
private theorem sentence_backward {first second : Link} {more : List Link} {ts us vs : List Token}
    (arrow : Span) (hf : IsSum ts first) (hs : IsSum us second)
    (hm : Links true vs (more.map Link.expr)) (hd : ∀ l ∈ more, l.Honest)
    (h : (chainOf true first second more).2 = []) :
    Sentence (ts ++ ⟨.operator .backArrow, arrow⟩ :: us ++ vs)
      (chainOf true first second more).1 := by
  have hhonest : ∀ l ∈ (first :: second :: more).reverse, l.Honest := by
    intro l hl
    have hall := List.forall_mem_cons.mpr ⟨hf.2, List.forall_mem_cons.mpr ⟨hs.2, hd⟩⟩
    exact hall l (List.mem_reverse.mp hl)
  have hconnected := (linkFaults_eq_nil_iff hhonest).mp h
  rw [List.map_reverse, List.map_cons, map_expr_others, List.reverse_cons, List.reverse_append]
    at hconnected
  rw [chainOf, if_pos rfl, foldl_span, List.map_cons]
  refine .backward arrow hf.1 hs.1 hm ?_ hconnected
  rw [← List.map_cons, map_expr_others, List.reverse_cons, List.reverse_reverse]

private theorem spelled_mapping {opener : List Token} {source : Link} {polarity : Polarity}
    {i : Expr × Expr × Span} (ho : Opens polarity opener)
    (hs : Spelled IsMapped f ts (opener ++ us) source) (hi : Spelled IsInterval g us rest i) :
    Spelled IsMapped (f ++ (source.unreadable ++ g)) ts rest
      ⟨.mapping polarity source.expr i.1 i.2.1 (source.expr.span.join i.2.2), .source⟩ := by
  intro hf
  obtain ⟨hf, hmore⟩ := List.append_eq_nil_iff.mp hf
  obtain ⟨hunreadable, hg⟩ := List.append_eq_nil_iff.mp hmore
  obtain ⟨used, rfl, hsource⟩ := hs hf
  obtain ⟨_, rfl, vs, ws, comma, rfl, hl, hh⟩ := hi hg
  obtain ⟨hmapped, hhonest⟩ | ⟨-, -, hnone⟩ := hsource
  · have hreadable := hhonest.unreadable_eq_nil_iff.mp hunreadable
    refine ⟨_, ?_, .inl ⟨.mapping comma i.2.2 hmapped hreadable ho hl hh, rfl⟩⟩
    simp
  · -- Something signed has taken all mappings.
    cases ho with
    | unipolar bracket => cases hnone _ rfl
    | bipolar bi bracket => cases hnone _ rfl

private theorem spelled_chain {backward : Bool} {first second : Link} {more : List Link}
    {h : List (Located Fault)} {mid : List Token} {arrow : Span}
    (hf : Spelled (fun used _ => IsSum used) f ts
      (⟨.operator (if backward then .backArrow else .arrow), arrow⟩ :: us) first)
    (hs : Spelled (fun used _ => IsSum used) g us mid second)
    (hm : Spelled (IsLinks backward) h mid rest more) :
    Spelled (fun used _ => Sentence used)
      (f ++ (g ++ (h ++ (chainOf backward first second more).2))) ts rest
      (chainOf backward first second more).1 := by
  intro hfaults
  simp only [List.append_eq_nil_iff] at hfaults
  obtain ⟨hfnil, hgnil, hhnil, hchain⟩ := hfaults
  obtain ⟨used, rfl, hfirst⟩ := hf hfnil
  obtain ⟨used', rfl, hsecond⟩ := hs hgnil
  obtain ⟨used'', rfl, hmore⟩ := hm hhnil
  cases backward with
  | true =>
    refine ⟨_, ?_, sentence_backward arrow hfirst hsecond hmore.1 hmore.2 hchain⟩
    simp
  | false =>
    have hlinks : Links false (⟨.operator .arrow, arrow⟩ :: used' ++ used'')
        ((second :: more).map Link.expr) := .cons arrow (.inl rfl) hsecond.1 hmore.1
    refine ⟨_, ?_, sentence_forward hfirst hlinks (List.forall_mem_cons.mpr ⟨hsecond.2, hmore.2⟩)
      hchain⟩
    simp

/-- What is left of a text when a block is open, was closed, or is yet to come. -/
private def Rest (block : Block) (ts : List Token) (lines : List Line) : Prop :=
  match block.opened, block.seen with
  | some _, _ => ∃ us vs inside after close, ts = us ++ ⟨.keyword .endVoice, close⟩ :: vs ∧
      lines = inside ++ after ∧ Lines .voice us inside ∧ Lines .global vs after
  | none, true => Lines .global ts lines
  | none, false => Text ts ⟨lines⟩

/-- A line in front of what is left. -/
private theorem Rest.line {block : Block} {used rest : List Token} {lines : List Line}
    {s : Statement} (hs : Sentence used s) (h : Rest block rest lines) :
    Rest block (used ++ rest) (⟨block.scope, s⟩ :: lines) := by
  obtain ⟨_ | span, seen⟩ := block
  · cases seen with
    | true => exact Lines.cons hs h
    | false =>
      cases h with
      | global h => exact Text.global (Lines.cons hs h)
      | @voice ts us vs before inside after opened closed hb hi ha =>
        have htext : Text
            (used ++ (ts ++ ⟨.keyword .startVoice, opened⟩ :: us ++ ⟨.keyword .endVoice, closed⟩ :: vs))
            ⟨⟨.global, s⟩ :: (before ++ inside ++ after)⟩ := by
          simpa using Text.voice opened closed (Lines.cons hs hb) hi ha
        exact htext
  · obtain ⟨us, vs, inside, after, close, rfl, rfl, hi, ha⟩ := h
    exact ⟨used ++ us, vs, ⟨.voice, s⟩ :: inside, after, close, by simp, rfl, Lines.cons hs hi, ha⟩

private theorem Rest.finished {block : Block} (h : block.opened = none) : Rest block [] [] := by
  obtain ⟨opened, seen⟩ := block
  obtain rfl : opened = none := h
  cases seen with
  | true => exact Lines.nil
  | false => exact Text.global Lines.nil

private theorem Block.seen_start {block : Block} {span : Span} (h : (block.start span).2 = []) :
    (block.start span).1.seen = true := by
  obtain ⟨_ | _, seen⟩ := block
  · rfl
  · cases h

/-- Only the first block can be opened, and only where none is open. -/
private theorem Rest.start {block : Block} {span : Span} {lines : List Line}
    (hs : (block.start span).2 = []) (h : Rest (block.start span).1 ts lines) :
    Rest block (⟨.keyword .startVoice, span⟩ :: ts) lines := by
  obtain ⟨_ | _, _ | _⟩ := block
  · obtain ⟨us, vs, inside, after, close, rfl, rfl, hi, ha⟩ := h
    exact Text.voice span close Lines.nil hi ha
  · cases hs
  · cases hs
  · cases hs

private theorem Rest.close {block : Block} {span : Span} {lines : List Line}
    (hseen : block.opened.isSome → block.seen = true) (hc : (block.close span).2 = [])
    (h : Rest (block.close span).1 ts lines) :
    Rest block (⟨.keyword .endVoice, span⟩ :: ts) lines := by
  obtain ⟨_ | _, seen⟩ := block
  · cases hc
  · obtain rfl : seen = true := hseen rfl
    exact ⟨[], ts, [], lines, span, rfl, rfl, Lines.nil, h⟩

/-- Without faults all that is read is spelled by the tokens that were used up. -/
def spelling : Survey stop where
  toAccount := .plain False
  sum _ := Spelled fun used _ => IsSum used
  product _ := Spelled fun used _ => IsProduct used
  factor _ := Spelled IsFactor
  mapped _ := Spelled IsMapped
  atom _ := Spelled IsOperand
  interval _ := Spelled IsInterval
  args _ := Spelled fun used _ => IsArgs used
  argList _ := Spelled IsArgList
  arg _ := Spelled fun used _ => Argument used
  links backward := Spelled (IsLinks backward)
  statement := Spelled fun used _ => Sentence used
  lines block ts faults lines :=
    faults = [] → (block.opened.isSome → block.seen = true) → Rest block ts lines
  told_sum _ _ _ := trivial
  told_factor _ _ _ := trivial
  told_mapped _ _ _ := trivial
  ofProduct h hf := by
    obtain ⟨used, hts, hproduct, hhonest⟩ := h hf
    exact ⟨used, hts, .product hproduct, hhonest⟩
  plus {_ _ _ _ _ _ _ _ _ _ span} _ ho hl hr hf := by
    obtain ⟨hf, hg⟩ := List.append_eq_nil_iff.mp hf
    obtain ⟨used, rfl, hleft, -⟩ := hl hf
    obtain ⟨used', rfl, hright, -⟩ := hr hg
    exact ⟨_, (List.append_assoc used (_ :: used') _).symm, .plus span ho hleft hright, rfl⟩
  ofFactor h hf := by
    obtain ⟨used, hts, hfactor, hhonest, -⟩ := h hf
    exact ⟨used, hts, .factor hfactor, hhonest⟩
  times {_ _ _ _ _ _ _ _ span} _ hl hr hf := by
    obtain ⟨hf, hg⟩ := List.append_eq_nil_iff.mp hf
    obtain ⟨used, rfl, hleft, -⟩ := hl hf
    obtain ⟨used', rfl, hright, -⟩ := hr hg
    exact ⟨_, (List.append_assoc used (_ :: used') _).symm, .times span hleft hright, rfl⟩
  ofMapped hnone h hf := by
    obtain ⟨used, hts, hmapped | hfactor⟩ := h hf
    · exact ⟨used, hts, .mapped hmapped.1, hmapped.2, hnone⟩
    · exact ⟨used, hts, hfactor⟩
  ofAtom _ h hf := by
    obtain ⟨used, hts, hatom | hfactor⟩ := h hf
    · exact ⟨used, hts, .inl ⟨.atom hatom.1, hatom.2⟩⟩
    · exact ⟨used, hts, .inr hfactor⟩
  mapping _ := spelled_mapping
  ends {_ _ _ _ _ _ _ _ comma close} _ _ hl hh hf := by
    obtain ⟨hf, hg⟩ := List.append_eq_nil_iff.mp hf
    obtain ⟨vs, rfl, hlow, -⟩ := hl hf
    obtain ⟨ws, rfl, hhigh, -⟩ := hh hg
    refine ⟨_, ?_, vs, ws, comma, rfl, hlow, hhigh⟩
    simp
  ends_lost h := h.elim
  number _ _ := ⟨[_], rfl, .inl ⟨.number _ _ _, rfl⟩⟩
  name _ _ := ⟨[_], rfl, .inl ⟨.name _ _, rfl⟩⟩
  socket _ _ := ⟨[_, _, _], rfl, .inl ⟨.socket _ _ _ _ _, rfl⟩⟩
  output _ _ := ⟨[_, _, _], rfl, .inl ⟨.output _ _ _ _ _, rfl⟩⟩
  signed {_ _ _ _ _ sign span} _ h hf := by
    obtain ⟨hf, hunreadable⟩ := List.append_eq_nil_iff.mp hf
    obtain ⟨used, rfl, hfactor, hhonest, hnone⟩ := h hf
    have hreadable := hhonest.unreadable_eq_nil_iff.mp hunreadable
    exact ⟨_ :: used, rfl, .inr ⟨.signed sign span hfactor hreadable, rfl, hnone⟩⟩
  parens {_ _ _ _ _ span close} _ _ h hf := by
    obtain ⟨used, rfl, hsum, hhonest⟩ := h hf
    refine ⟨_, ?_, .inl ⟨.parens span close hsum, hhonest.withSpan _⟩⟩
    simp
  parens_lost h := h.elim
  anonymous _ h hf := by
    obtain ⟨used, rfl, hargs⟩ := h hf
    exact ⟨_ :: _ :: used, rfl, .inl ⟨.anonymous _ _ _ hargs, rfl⟩⟩
  named _ h hf := by
    obtain ⟨used, rfl, hargs⟩ := h hf
    exact ⟨_ :: _ :: used, rfl, .inl ⟨.named _ _ _ _ hargs, rfl⟩⟩
  args_none _ _ := ⟨[_, _], rfl, .none _ _⟩
  args_some {_ _ _ _ span as} _ h hf := by
    obtain ⟨_, rfl, us, rfl, hlist⟩ := h hf
    exact ⟨_ :: (us ++ [_]), rfl, .some span as.2 hlist⟩
  argList_last {_ _ _ _ close a} _ h hf := by
    obtain ⟨used, rfl, harg⟩ := h hf
    exact ⟨used ++ [⟨.mark .closeParen, close⟩], by simp, used, rfl, .one harg⟩
  argList_more {_ _ _ _ _ _ comma a as} _ h hs hf := by
    obtain ⟨hf, hg⟩ := List.append_eq_nil_iff.mp hf
    obtain ⟨used, rfl, harg⟩ := h hf
    obtain ⟨_, rfl, us, rfl, hlist⟩ := hs hg
    refine ⟨used ++ ⟨.mark .comma, comma⟩ :: us ++ [⟨.mark .closeParen, as.2⟩], ?_, _, rfl,
      .more comma harg hlist⟩
    simp
  argList_unclosed h := h.elim
  argList_lost h := h.elim
  positional h hf := by
    obtain ⟨hf, hunreadable⟩ := List.append_eq_nil_iff.mp hf
    obtain ⟨used, rfl, hsum, hhonest⟩ := h hf
    exact ⟨used, rfl, .positional hsum (hhonest.unreadable_eq_nil_iff.mp hunreadable)⟩
  labelled _ h hf := by
    obtain ⟨hf, hunreadable⟩ := List.append_eq_nil_iff.mp hf
    obtain ⟨used, rfl, hsum, hhonest⟩ := h hf
    exact ⟨_ :: _ :: _ :: used, rfl,
      .labelled _ _ _ _ hsum (hhonest.unreadable_eq_nil_iff.mp hunreadable)⟩
  links_nil _ := ⟨[], rfl, .nil, List.forall_mem_nil _⟩
  links_cons {backward _ _ t _ _ _ l ls} _ _ harrow h hs hf := by
    obtain ⟨hf, hg⟩ := List.append_eq_nil_iff.mp hf
    obtain ⟨used, rfl, hsum, hhonest⟩ := h hf
    obtain ⟨used', rfl, hlinks, hmore⟩ := hs hg
    obtain ⟨way, ht, hway⟩ := way_of_isArrow harrow
    have hall : Links backward (⟨.operator way, t.span⟩ :: used ++ used') ((l :: ls).map Link.expr) :=
      .cons t.span hway hsum hlinks
    rw [← ht] at hall
    exact ⟨_, (List.append_assoc (t :: used) used' _).symm, hall,
      List.forall_mem_cons.mpr ⟨hhonest, hmore⟩⟩
  definition _ h hf := by
    obtain ⟨used, rfl, hsum, -⟩ := h hf
    exact ⟨_ :: _ :: used, rfl, .definition _ _ _ hsum⟩
  construct h hc hf := by
    obtain ⟨used, hts, hsum, -⟩ := h hf
    exact ⟨used, hts, .construction (hc ▸ hsum)⟩
  unexpressed h := h.elim
  chain _ _ _ hf hs hm := ⟨trivial, spelled_chain hf hs hm⟩
  finished hb _ _ := .finished hb
  unclosed h := h.elim
  start h _ hl hf hseen := by
    have hquiet := h.resolve_left id
    obtain ⟨_, hf⟩ := List.append_eq_nil_iff.mp hf
    exact .start hquiet (hl hf fun _ => Block.seen_start hquiet)
  close h _ hl hf hseen := by
    have hquiet := h.resolve_left id
    obtain ⟨_, hf⟩ := List.append_eq_nil_iff.mp hf
    exact .close hseen hquiet (hl hf fun hnone => by cases hnone)
  line _ _ hs hl hf hseen := by
    obtain ⟨hf, hg⟩ := List.append_eq_nil_iff.mp hf
    obtain ⟨used, rfl, hsentence⟩ := hs hf
    exact (hl hg hseen).line hsentence
  line_stuck _ _ hs hl hf hseen := by
    obtain ⟨hf, -⟩ := List.append_eq_nil_iff.mp hf
    obtain ⟨used, hused, hsentence⟩ := hs hf
    exact absurd (List.self_eq_append_left.mp hused) hsentence.ne_nil
  line_lost h := h.elim

/-- The tokens of a text read without faults are the program that was read. -/
theorem text_ofTokens {ts : List Token} (h : (ofTokens ts).faults = []) :
    Grammar.Text ts (ofTokens ts).program :=
  spelling.lines_readLines ⟨none, false⟩ ts trivial (.inr h) h fun hnone => by cases hnone

/-- A text read without faults gives a program without error nodes, and by the rules of the grammar
its tokens are that program. -/
theorem ofTokens_faithful {ts : List Token} (h : (ofTokens ts).faults = []) :
    (ofTokens ts).program.ErrorFree ∧ Grammar.Text ts (ofTokens ts).program :=
  ⟨errorFree_ofTokens h, text_ofTokens h⟩

/-- A voice block with signs, mappings, parentheses and a chain written backward. -/
def wobble : String :=
  "k = gate\nstartvoice\nSine s(.frequency = pitch)\noutput <= -s bi [k, pitch] * (s + s:output)\nendvoice"

theorem ofTokens_faithful_wobble :
    (ofTokens (Token.scan wobble)).faults = [] ∧
      (ofTokens (Token.scan wobble)).program.ErrorFree ∧
      Grammar.Text (Token.scan wobble) (ofTokens (Token.scan wobble)).program := by
  have hread : (ofTokens (Token.scan wobble)).faults = [] := by cbv
  exact ⟨hread, ofTokens_faithful hread⟩

end Patchbay.Program
