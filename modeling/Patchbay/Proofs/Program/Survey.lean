import Patchbay.Proofs.Program.Account
import Patchbay.Proofs.Program.Grammar

/-! Surveys of what is read: one law for each way in which something is put together of what was read
before, or stands for what could not be read. Then all that is read is as surveyed. -/
namespace Patchbay.Program
open Grammar (IsSumOp Opens)
open Account (Skips)
variable {stop : Span}

/-- No mapping stands at the front. -/
def NoMapping (rest : List Token) : Prop := ∀ t ∈ rest.head?, polarity? t.kind = none

theorem readMappings_of_noMapping {ts : List Token} {depth : Nat} {source : Link}
    (h : NoMapping ts) : readMappings stop depth source ts = .done source := by
  cases ts with
  | nil => rw [readMappings.eq_def]
  | cons t rest =>
    have hnone : polarity? t.kind = none := h t rfl
    rw [readMappings.eq_def]
    dsimp only
    rw [hnone]

/-- What may hold of a value: in view of the faults reported for it, the tokens from which on it is
read and those left behind it. -/
abbrev Judgment (α : Type) := List (Located Fault) → List Token → List Token → α → Prop

/-- The laws that begin with `recovers` are about what is behind a fault. -/
structure Survey (stop : Span) extends Account stop where
  sum : Nat → Judgment Link
  product : Nat → Judgment Link
  factor : Nat → Judgment Link
  /-- An operand with some of its mappings. -/
  mapped : Nat → Judgment Link
  /-- An operand, where readers have gone one level down for it. -/
  atom : Nat → Judgment Link
  interval : Nat → Judgment (Expr × Expr × Span)
  args : Nat → Judgment (List (Arg Expr) × Span)
  /-- Arguments without the parenthesis that opens them. -/
  argList : Nat → Judgment (List (Arg Expr) × Span)
  arg : Nat → Judgment (Arg Expr)
  links : Bool → Judgment (List Link)
  statement : Judgment Statement
  lines : Block → List Token → List (Located Fault) → List Line → Prop
  told_sum {d f ts rest l} (fault) : laid rest → sum d f ts rest l → told [⟨fault, some l.expr.span⟩]
  told_factor {d f ts rest l} (fault) : laid rest → factor d f ts rest l →
    told [⟨fault, some l.expr.span⟩]
  told_mapped {d f ts rest l} (fault) : laid rest → mapped d f ts rest l →
    told [⟨fault, some l.expr.span⟩]
  ofProduct {d f ts rest l} : product d f ts rest l → sum d f ts rest l
  plus {d f g ts us rest left right op kind span} : laid (⟨kind, span⟩ :: us) → IsSumOp op kind →
    sum d f ts (⟨kind, span⟩ :: us) left → product d g us rest right →
      sum d (f ++ g) ts rest (.binary op left right)
  ofFactor {d f ts rest l} : factor d f ts rest l → product d f ts rest l
  times {d f g ts us rest left right span} : laid (⟨.operator .star, span⟩ :: us) →
    product d f ts (⟨.operator .star, span⟩ :: us) left → factor d g us rest right →
      product d (f ++ g) ts rest (.binary .multiply left right)
  ofMapped {d f ts rest l} : NoMapping rest → mapped d f ts rest l → factor d f ts rest l
  ofAtom {d f ts rest l} : d < nestingLimit → atom (d + 1) f ts rest l → mapped d f ts rest l
  mapping {d f g ts opener us rest source polarity i} : laid (opener ++ us) → Opens polarity opener →
    mapped d f ts (opener ++ us) source → interval d g us rest i →
      mapped d (f ++ (source.unreadable ++ g)) ts rest
        ⟨.mapping polarity source.expr i.1 i.2.1 (source.expr.span.join i.2.2), .source⟩
  ends {d f g ts us rest low high comma close} : laid (⟨.mark .comma, comma⟩ :: us) →
    laid (⟨.mark .closeBracket, close⟩ :: rest) → sum d f ts (⟨.mark .comma, comma⟩ :: us) low →
      sum d g us (⟨.mark .closeBracket, close⟩ :: rest) high →
        interval d (f ++ g) ts rest (low.expr, high.expr, close)
  ends_lost {d f ts mid rest close} : recovers → laid ts → mid <:+ ts → Skips stop mid rest close →
    interval d f ts rest (.error (upcoming stop mid), .error (upcoming stop mid), close)
  number {d value unit span rest} : laid (⟨.number value unit, span⟩ :: rest) →
    atom d [] (⟨.number value unit, span⟩ :: rest) rest ⟨.number value unit span, .source⟩
  name {d name span rest} : laid (⟨.name name, span⟩ :: rest) →
    atom d [] (⟨.name name, span⟩ :: rest) rest ⟨.name ⟨name, span⟩, .both⟩
  socket {d object span dot socket rest} :
    laid (⟨.name object, span⟩ :: ⟨.mark .dot, dot⟩ :: ⟨.name socket.name, socket.span⟩ :: rest) →
      atom d [] (⟨.name object, span⟩ :: ⟨.mark .dot, dot⟩ :: ⟨.name socket.name, socket.span⟩ :: rest)
        rest ⟨.socket ⟨object, span⟩ socket (span.join socket.span), .sink⟩
  output {d object span colon output rest} :
    laid (⟨.name object, span⟩ :: ⟨.mark .colon, colon⟩ :: ⟨.name output.name, output.span⟩ :: rest) →
      atom d []
        (⟨.name object, span⟩ :: ⟨.mark .colon, colon⟩ :: ⟨.name output.name, output.span⟩ :: rest)
        rest ⟨.output ⟨object, span⟩ output (span.join output.span), .source⟩
  signed {d f us rest operand sign span} : laid (⟨Sign.kind sign, span⟩ :: us) →
    factor d f us rest operand → atom d (f ++ operand.unreadable) (⟨Sign.kind sign, span⟩ :: us) rest
      (.signed sign span operand)
  parens {d f us rest inner span close} : laid (⟨.mark .openParen, span⟩ :: us) →
    laid (⟨.mark .closeParen, close⟩ :: rest) → sum d f us (⟨.mark .closeParen, close⟩ :: rest) inner →
      atom d f (⟨.mark .openParen, span⟩ :: us) rest
        ⟨inner.expr.withSpan (span.join close), inner.direction⟩
  parens_lost {d f us mid rest span close} : recovers → laid (⟨.mark .openParen, span⟩ :: us) →
    mid <:+ us → Skips stop mid rest close →
      atom d f (⟨.mark .openParen, span⟩ :: us) rest (.error (span.join close))
  anonymous {d f us rest span className as} :
    laid (⟨.keyword .new, span⟩ :: ⟨.name className.name, className.span⟩ :: us) →
      args d f us rest as →
        atom d f (⟨.keyword .new, span⟩ :: ⟨.name className.name, className.span⟩ :: us) rest
          ⟨.construction ⟨className, none, as.1, span.join as.2⟩, .both⟩
  named {d f us rest className span name nameSpan as} :
    laid (⟨.name className, span⟩ :: ⟨.name name, nameSpan⟩ :: us) → args d f us rest as →
      atom d f (⟨.name className, span⟩ :: ⟨.name name, nameSpan⟩ :: us) rest
        ⟨.construction ⟨⟨className, span⟩, some ⟨name, nameSpan⟩, as.1, span.join as.2⟩, .both⟩
  args_none {d span close rest} :
    laid (⟨.mark .openParen, span⟩ :: ⟨.mark .closeParen, close⟩ :: rest) →
      args d [] (⟨.mark .openParen, span⟩ :: ⟨.mark .closeParen, close⟩ :: rest) rest ([], close)
  args_some {d f us rest span as} : laid (⟨.mark .openParen, span⟩ :: us) →
    argList d f us rest as → args d f (⟨.mark .openParen, span⟩ :: us) rest as
  argList_last {d f ts rest close a} : laid (⟨.mark .closeParen, close⟩ :: rest) →
    arg d f ts (⟨.mark .closeParen, close⟩ :: rest) a → argList d f ts rest ([a], close)
  argList_more {d f g ts us rest comma a as} : laid (⟨.mark .comma, comma⟩ :: us) →
    arg d f ts (⟨.mark .comma, comma⟩ :: us) a → argList d g us rest as →
      argList d (f ++ g) ts rest (a :: as.1, as.2)
  argList_unclosed {d f ts mid rest close a} : recovers → laid mid → arg d f ts mid a →
    Skips stop mid rest close →
      argList d (f ++ (unexpected stop mid : Step mid (List (Arg Expr) × Span)).faults) ts rest
        ([a], close)
  argList_lost {d f ts mid rest close} : recovers → laid ts → mid <:+ ts → Skips stop mid rest close →
    argList d f ts rest ([⟨none, .error (upcoming stop mid)⟩], close)
  positional {d f ts rest value} : sum d f ts rest value →
    arg d (f ++ value.unreadable) ts rest ⟨none, value.expr⟩
  labelled {d f us rest value dot socket assign} :
    laid (⟨.mark .dot, dot⟩ :: ⟨.name socket.name, socket.span⟩ :: ⟨.operator .assign, assign⟩ :: us) →
      sum d f us rest value →
        arg d (f ++ value.unreadable)
          (⟨.mark .dot, dot⟩ :: ⟨.name socket.name, socket.span⟩ :: ⟨.operator .assign, assign⟩ :: us)
          rest ⟨some ⟨socket, socket.span.join value.expr.span⟩, value.expr⟩
  links_nil {backward ts} : links backward [] ts ts []
  links_cons {backward f g t us mid rest l ls} : laid (t :: us) → laid mid →
    isArrow backward t = true → sum 0 f us mid l → links backward g mid rest ls →
      links backward (f ++ g) (t :: us) rest (l :: ls)
  definition {f us rest name span assign value} :
    laid (⟨.name name, span⟩ :: ⟨.operator .assign, assign⟩ :: us) → sum 0 f us rest value →
      statement f (⟨.name name, span⟩ :: ⟨.operator .assign, assign⟩ :: us) rest
        (.definition ⟨name, span⟩ value.expr (span.join value.expr.span))
  construct {f ts rest l c} : sum 0 f ts rest l → l.expr = .construction c →
    statement f ts rest (.construction c)
  unexpressed {f g ts rest l} : recovers → sum 0 f ts rest l → statement g ts rest (.error l.expr.span)
  chain {backward f g h ts us mid rest first second more arrow} :
    laid (⟨.operator (if backward then .backArrow else .arrow), arrow⟩ :: us) → laid mid → laid rest →
      sum 0 f ts (⟨.operator (if backward then .backArrow else .arrow), arrow⟩ :: us) first →
        sum 0 g us mid second → links backward h mid rest more →
          told (chainOf backward first second more).2 ∧
            statement (f ++ (g ++ (h ++ (chainOf backward first second more).2))) ts rest
              (chainOf backward first second more).1
  finished {block} : block.opened = none → lines block [] [] []
  unclosed {block span} : recovers → block.opened = some span →
    lines block [] [⟨.unclosedVoiceBlock, some span⟩] []
  start {block span rest f ls} : recovers ∨ (block.start span).2 = [] →
    laid (⟨.keyword .startVoice, span⟩ :: rest) → lines (block.start span).1 rest f ls →
      lines block (⟨.keyword .startVoice, span⟩ :: rest) ((block.start span).2 ++ f) ls
  close {block span rest f ls} : recovers ∨ (block.close span).2 = [] →
    laid (⟨.keyword .endVoice, span⟩ :: rest) → lines (block.close span).1 rest f ls →
      lines block (⟨.keyword .endVoice, span⟩ :: rest) ((block.close span).2 ++ f) ls
  line {block ts mid f g s ls} : told f → laid mid → statement f ts mid s → lines block mid g ls →
    lines block ts (f ++ g) (⟨block.scope, s⟩ :: ls)
  line_stuck {block t us f g s ls} : told f → laid (t :: us) → statement f (t :: us) (t :: us) s →
    lines block us g ls → lines block (t :: us) (f ++ g) (⟨block.scope, s⟩ :: ls)
  line_lost {block ts mid us f g ls} : recovers → told f → laid mid → lines block us g ls →
    lines block ts (f ++ g) (⟨block.scope, .error (upcoming stop mid)⟩ :: ls)

/-- The operators of sums are those of the grammar. -/
theorem isSumOp_of_sumOp? {kind : Token.Kind} {op : BinaryOp} (h : sumOp? kind = some op) :
    IsSumOp op kind := by
  rw [sumOp?.eq_def] at h
  split at h
  · cases h
    exact .add
  · cases h
    exact .subtract
  · cases h

private theorem opens_of_polarity? {t : Token} (h : polarity? t.kind = some .unipolar) :
    Opens .unipolar [t] := by
  obtain ⟨kind, span⟩ := t
  rw [polarity?.eq_def] at h
  split at h
  · cases h
  · next hkind =>
    obtain rfl : kind = .mark .openBracket := hkind
    exact .unipolar span
  · cases h

private theorem opens_of_bi {t : Token} (h : polarity? t.kind = some .bipolar) (bracket : Span) :
    Opens .bipolar [t, ⟨.mark .openBracket, bracket⟩] := by
  obtain ⟨kind, span⟩ := t
  rw [polarity?.eq_def] at h
  split at h
  · next hkind =>
    obtain rfl : kind = .keyword .bi := hkind
    exact .bipolar span bracket
  · cases h
  · cases h

namespace Survey
variable (S : Survey stop)

/-- Faults at the place of what was read. -/
private theorem told_unreadable {l : Link} (h : ∀ fault, S.told [⟨fault, some l.expr.span⟩]) :
    S.told l.unreadable := by
  rw [Link.unreadable]
  split
  · exact S.told_nil
  · exact h _

mutual

theorem says_readExpr (depth : Nat) (ts : List Token) :
    S.Says (fun faults => S.sum depth faults ts) (readExpr stop depth ts) := by
  rw [readExpr]
  exact (says_readProduct depth ts).andThen fun left _ rest _ _ _ hl =>
    says_readTerms depth left rest (S.ofProduct hl)
termination_by 16 * ts.length + 5

theorem says_readTerms {f : List (Located Fault)} {us : List Token} (depth : Nat) (left : Link)
    (ts : List Token) (hl : S.sum depth f us ts left) :
    S.Says (fun faults rest => S.sum depth (f ++ faults) us rest) (readTerms stop depth left ts) := by
  have hdone : S.sum depth (f ++ []) us ts left := by rwa [List.append_nil]
  cases ts with
  | nil =>
    rw [readTerms.eq_def]
    exact .done hdone
  | cons t tail =>
    rw [readTerms.eq_def]
    dsimp only
    split
    · exact .done hdone
    · next op hop =>
      refine .of_laid fun hlaid => .behind ?_ (List.suffix_cons _ _)
      refine (says_readProduct depth tail).andThen fun right more rest _ _ _ hr => ?_
      have hsum := S.plus hlaid (isSumOp_of_sumOp? hop) hl hr
      exact (says_readTerms depth (.binary op left right) rest hsum).imp fun _ _ _ h =>
        List.append_assoc .. ▸ h
termination_by 16 * ts.length
decreasing_by all_goals (subst_vars; simp only [List.length_cons] at *; omega)

theorem says_readProduct (depth : Nat) (ts : List Token) :
    S.Says (fun faults => S.product depth faults ts) (readProduct stop depth ts) := by
  rw [readProduct]
  exact (says_readFactor depth ts).andThen fun left _ rest _ _ _ hl =>
    says_readFactors depth left rest (S.ofFactor hl)
termination_by 16 * ts.length + 4

theorem says_readFactors {f : List (Located Fault)} {us : List Token} (depth : Nat) (left : Link)
    (ts : List Token) (hl : S.product depth f us ts left) :
    S.Says (fun faults rest => S.product depth (f ++ faults) us rest)
      (readFactors stop depth left ts) := by
  rw [readFactors.eq_def]
  split
  · next span tail =>
    refine .of_laid fun hlaid => .behind ?_ (List.suffix_cons _ _)
    refine (says_readFactor depth tail).andThen fun right more rest _ _ _ hr => ?_
    have hproduct := S.times hlaid hl hr
    exact (says_readFactors depth (.binary .multiply left right) rest hproduct).imp fun _ _ _ h =>
      List.append_assoc .. ▸ h
  · refine .done ?_
    rwa [List.append_nil]
termination_by 16 * ts.length
decreasing_by all_goals (subst_vars; simp only [List.length_cons] at *; omega)

theorem says_readFactor (depth : Nat) (ts : List Token) :
    S.Says (fun faults => S.factor depth faults ts) (readFactor stop depth ts) := by
  rw [readFactor]
  exact (says_readOperand depth ts).andThen fun source _ rest _ _ _ hs =>
    says_readMappings depth source rest (S.ofAtom hs.1 hs.2)
termination_by 16 * ts.length + 3

theorem says_readMappings {f : List (Located Fault)} {us : List Token} (depth : Nat)
    (source : Link) (ts : List Token) (hs : S.mapped depth f us ts source) :
    S.Says (fun faults rest => S.factor depth (f ++ faults) us rest)
      (readMappings stop depth source ts) := by
  have hdone : NoMapping ts → S.factor depth (f ++ []) us ts source := by
    rw [List.append_nil]
    exact fun hnone => S.ofMapped hnone hs
  cases ts with
  | nil =>
    rw [readMappings.eq_def]
    refine .done (hdone fun t ht => ?_)
    cases ht
  | cons t tail =>
    rw [readMappings.eq_def]
    dsimp only
    split
    · next hnone =>
      refine .done (hdone fun t' ht => ?_)
      cases ht
      exact hnone
    · next hopen =>
      refine .of_laid fun hlaid => .behind ?_ (List.suffix_cons _ _)
      refine .noting (S.told_unreadable fun fault => S.told_mapped fault hlaid hs) ?_
      exact says_readMapping .unipolar depth source tail hlaid (opens_of_polarity? hopen) hs
    · next hbi =>
      refine .of_laid fun hlaid => .behind ?_ (List.suffix_cons _ _)
      refine .noting (S.told_unreadable fun fault => S.told_mapped fault hlaid hs) ?_
      refine (S.says_expect _ tail).andThen fun bracket _ rest _ _ _ hb => ?_
      obtain ⟨rfl, rfl⟩ := hb
      exact says_readMapping .bipolar depth source rest hlaid (opens_of_bi hbi bracket) hs
termination_by 16 * ts.length

private theorem says_readMapping {f : List (Located Fault)} {us opener : List Token}
    (polarity : Polarity) (depth : Nat) (source : Link) (ts : List Token)
    (hlaid : S.laid (opener ++ ts)) (ho : Opens polarity opener)
    (hs : S.mapped depth f us (opener ++ ts) source) :
    S.Says (fun faults rest => S.factor depth (f ++ (source.unreadable ++ faults)) us rest)
      (readMapping polarity stop depth source ts) := by
  have hinterval : S.Says (fun faults => S.interval depth faults ts)
      ((readInterval stop depth ts).orElse fun span rest _ =>
        (skipGroup stop rest).map fun close => (.error span, .error span, close)) := by
    refine (says_readInterval depth ts).orElse fun hr faults mid _ _ hmid => ?_
    exact (S.says_skipGroup mid).map fun _ _ _ _ hskip => S.ends_lost hr
      (Account.laid_suffix hlaid (List.suffix_append _ _)) hmid hskip.2
  rw [readMapping]
  refine hinterval.andThen fun i more rest _ _ _ hi => ?_
  refine (says_readMappings depth _ rest (S.mapping hlaid ho hs hi)).imp fun _ _ _ h => ?_
  simpa only [List.append_assoc] using h
termination_by 16 * ts.length + 7

theorem says_readInterval (depth : Nat) (ts : List Token) :
    S.Says (fun faults => S.interval depth faults ts) (readInterval stop depth ts) := by
  rw [readInterval]
  refine (says_readExpr depth ts).andThen fun low _ rest _ hlow _ hl => ?_
  refine (S.says_expect _ rest).andThen fun comma _ rest _ _ _ hc => ?_
  obtain ⟨rfl, rfl⟩ := hc
  refine (says_readExpr depth rest).andThen fun high more rest _ hhigh _ hh => ?_
  refine (S.says_expect _ rest).map fun _ _ close _ hclose => ?_
  obtain ⟨rfl, rfl⟩ := hclose
  rw [List.append_nil]
  exact S.ends hlow hhigh hl hh
termination_by 16 * ts.length + 6

theorem says_readOperand (depth : Nat) (ts : List Token) :
    S.Says (fun faults rest l => depth < nestingLimit ∧ S.atom (depth + 1) faults ts rest l)
      (readOperand stop depth ts) := by
  rw [readOperand]
  split
  · exact S.says_failed _ ts
  · next hd =>
    exact (says_readAtom (depth + 1) ts).imp fun _ _ _ h => ⟨Nat.lt_of_not_le hd, h⟩
termination_by 16 * ts.length + 2

theorem says_readAtom (depth : Nat) (ts : List Token) :
    S.Says (fun faults => S.atom depth faults ts) (readAtom stop depth ts) := by
  rw [readAtom.eq_def]
  split
  · next span tail =>
    refine .of_laid fun hlaid => .behind ?_ (List.suffix_cons _ _)
    exact says_readSigned .plus span depth tail hlaid
  · next span tail =>
    refine .of_laid fun hlaid => .behind ?_ (List.suffix_cons _ _)
    exact says_readSigned .minus span depth tail hlaid
  · exact .of_laid fun hlaid => .ok (List.suffix_cons _ _) (S.number hlaid)
  · next span tail =>
    refine .of_laid fun hlaid => .behind (.orElse ?_ fun hr faults mid _ _ hmid => ?_)
      (List.suffix_cons _ _)
    · refine (says_readExpr depth tail).andThen fun inner _ rest _ hrest _ hi => ?_
      refine (S.says_expect _ rest).map fun _ _ close _ hclose => ?_
      obtain ⟨rfl, rfl⟩ := hclose
      rw [List.append_nil]
      exact S.parens hlaid hrest hi
    · exact (S.says_skipGroup mid).map fun _ _ _ _ hskip => S.parens_lost hr hlaid hmid hskip.2
  · next span tail =>
    refine .of_laid fun hlaid => .behind ?_ (List.suffix_cons _ _)
    refine (S.says_readIdent tail).andThen fun className _ rest _ _ _ hname => ?_
    obtain ⟨rfl, rfl⟩ := hname
    exact (says_readArgs depth rest).map fun _ _ as _ has => S.anonymous hlaid has
  · next object span dot tail =>
    refine .of_laid fun hlaid => .behind ?_ ⟨[_, _], rfl⟩
    refine (S.says_readIdent tail).map fun _ _ socket _ hs => ?_
    obtain ⟨rfl, rfl⟩ := hs
    exact S.socket hlaid
  · next object span colon tail =>
    refine .of_laid fun hlaid => .behind ?_ ⟨[_, _], rfl⟩
    refine (S.says_readIdent tail).map fun _ _ output _ ho => ?_
    obtain ⟨rfl, rfl⟩ := ho
    exact S.output hlaid
  · next className span name nameSpan bracket tail =>
    refine .of_laid fun hlaid => .behind ?_ ⟨[_, _], rfl⟩
    exact (says_readArgs depth (⟨.mark .openParen, bracket⟩ :: tail)).map fun _ _ as _ has =>
      S.named hlaid has
  · exact .of_laid fun hlaid => .ok (List.suffix_cons _ _) (S.name hlaid)
  · exact S.says_unexpected _
termination_by 16 * ts.length + 1
decreasing_by all_goals (subst_vars; simp only [List.length_cons] at *; omega)

theorem says_readSigned (sign : Sign) (span : Span) (depth : Nat) (ts : List Token)
    (hlaid : S.laid (⟨sign.kind, span⟩ :: ts)) :
    S.Says (fun faults => S.atom depth faults (⟨sign.kind, span⟩ :: ts))
      (readSigned sign span stop depth ts) := by
  rw [readSigned]
  refine (says_readFactor depth ts).andThen fun operand _ rest _ hrest _ ho => ?_
  refine .noting (S.told_unreadable fun fault => S.told_factor fault hrest ho) (.done ?_)
  rw [List.append_nil]
  exact S.signed hlaid ho
termination_by 16 * ts.length + 4

theorem says_readArgs (depth : Nat) (ts : List Token) :
    S.Says (fun faults => S.args depth faults ts) (readArgs stop depth ts) := by
  rw [readArgs]
  refine .of_laid fun hlaid => (S.says_expect _ ts).andThen fun span _ rest _ _ _ hopen => ?_
  obtain ⟨rfl, rfl⟩ := hopen
  exact says_readOpenArgs span depth rest hlaid
termination_by 16 * ts.length + 9

private theorem says_readOpenArgs (span : Span) (depth : Nat) (ts : List Token)
    (hlaid : S.laid (⟨.mark .openParen, span⟩ :: ts)) :
    S.Says (fun faults => S.args depth faults (⟨.mark .openParen, span⟩ :: ts))
      (readOpenArgs stop depth ts) := by
  rw [readOpenArgs.eq_def]
  split
  · exact .ok (List.suffix_cons _ _) (S.args_none hlaid)
  · refine (says_readArgList depth [] _).imp fun _ _ as has => ?_
    obtain ⟨args, hargs, has⟩ := has
    obtain rfl : as.1 = args := hargs
    exact S.args_some hlaid has
termination_by 16 * ts.length + 8

theorem says_readArgList (depth : Nat) (done : List (Arg Expr)) (ts : List Token) :
    S.Says (fun faults rest as => ∃ args, as.1 = done.reverse ++ args ∧
      S.argList depth faults ts rest (args, as.2)) (readArgList stop depth done ts) := by
  rw [readArgList]
  refine .of_laid fun hlaid => (says_readArg depth ts).either
    (fun arg faults rest _ hrest _ ha => ?_) fun hr faults mid _ _ hmid => ?_
  · split
    · next _ tail _ _ =>
      refine .behind ((says_readArgList depth (arg :: done) tail).imp fun _ _ as has => ?_)
        (List.suffix_cons _ _)
      obtain ⟨args, hargs, has⟩ := has
      exact ⟨arg :: args, by simp [hargs], S.argList_more hrest ha has⟩
    · refine .ok (List.suffix_cons _ _) ⟨[arg], List.reverse_cons, ?_⟩
      rw [List.append_nil]
      exact S.argList_last hrest ha
    · refine .of_unexpected fun hr => ?_
      refine (S.says_skipGroup _).map fun _ _ _ _ hskip => ⟨[arg], List.reverse_cons, ?_⟩
      rw [hskip.1, List.append_nil]
      exact S.argList_unclosed hr hrest ha hskip.2
  · refine (S.says_skipGroup mid).map fun _ _ _ _ hskip => ⟨[_], List.reverse_cons, ?_⟩
    exact S.argList_lost hr hlaid hmid hskip.2
termination_by 16 * ts.length + 7
decreasing_by all_goals (subst_vars; simp only [List.length_cons] at *; omega)

theorem says_readArg (depth : Nat) (ts : List Token) :
    S.Says (fun faults => S.arg depth faults ts) (readArg stop depth ts) := by
  rw [readArg.eq_def]
  split
  · next dot tail =>
    refine .of_laid fun hlaid => .behind ?_ (List.suffix_cons _ _)
    refine (S.says_readIdent tail).andThen fun socket _ rest _ _ _ hs => ?_
    obtain ⟨rfl, rfl⟩ := hs
    refine (S.says_expect _ rest).andThen fun assign _ rest _ _ _ ha => ?_
    obtain ⟨rfl, rfl⟩ := ha
    refine (says_readExpr depth rest).andThen fun value _ rest _ hrest _ hv => ?_
    refine .noting (S.told_unreadable fun fault => S.told_sum fault hrest hv) (.done ?_)
    rw [List.append_nil]
    exact S.labelled hlaid hv
  · refine (says_readExpr depth _).andThen fun value _ rest _ hrest _ hv => ?_
    refine .noting (S.told_unreadable fun fault => S.told_sum fault hrest hv) (.done ?_)
    rw [List.append_nil]
    exact S.positional hv
termination_by 16 * ts.length + 6
decreasing_by all_goals (subst_vars; simp only [List.length_cons] at *; omega)

end

private theorem says_readLinks (backward : Bool) (ts : List Token) :
    S.Says (fun faults => S.links backward faults ts) (readLinks backward stop ts) := by
  rw [readLinks.eq_def]
  split
  · exact .done S.links_nil
  · next t tail =>
    split
    · next harrow =>
      refine .of_laid fun hlaid => .behind ?_ (List.suffix_cons _ _)
      refine (S.says_readExpr 0 tail).andThen fun link _ rest _ hrest _ hl => ?_
      exact (says_readLinks backward rest).map fun _ _ _ _ hm =>
        S.links_cons hlaid hrest harrow hl hm
    · exact .done S.links_nil
termination_by ts.length
decreasing_by all_goals (subst_vars; simp only [List.length_cons] at *; omega)

private theorem says_readChain {f : List (Located Fault)} {us : List Token} {arrow : Span}
    (backward : Bool) (first : Link) (ts : List Token)
    (hlaid : S.laid (⟨.operator (if backward then .backArrow else .arrow), arrow⟩ :: ts))
    (hf : S.sum 0 f us (⟨.operator (if backward then .backArrow else .arrow), arrow⟩ :: ts) first) :
    S.Says (fun faults rest => S.statement (f ++ faults) us rest)
      (readChain backward stop first ts) := by
  rw [readChain]
  refine (S.says_readExpr 0 ts).andThen fun second _ rest _ hmid _ hs => ?_
  refine (S.says_readLinks backward rest).andThen fun more _ rest _ hrest _ hm => ?_
  obtain ⟨htold, hchain⟩ := S.chain hlaid hmid hrest hf hs hm
  refine .noting htold (.done ?_)
  rwa [List.append_nil]

private theorem says_readRouting (ts : List Token) :
    S.Says (fun faults => S.statement faults ts) (readRouting stop ts) := by
  rw [readRouting]
  refine (S.says_readExpr 0 ts).andThen fun first faults rest _ hrest _ hf => ?_
  split
  · next arrow tail _ _ =>
    exact (S.says_readChain false first tail hrest hf).behind (List.suffix_cons _ _)
  · next arrow tail _ _ =>
    exact (S.says_readChain true first tail hrest hf).behind (List.suffix_cons _ _)
  · split
    · next c hc =>
      refine .done ?_
      rw [List.append_nil]
      exact S.construct hf hc
    · refine .of_faults rfl fun hr => .noting (S.told_sum _ hrest hf) (.done ?_)
      exact S.unexpressed hr hf

theorem says_readStatement (ts : List Token) :
    S.Says (fun faults => S.statement faults ts) (readStatement stop ts) := by
  rw [readStatement.eq_def]
  split
  · next name span assign tail =>
    refine .of_laid fun hlaid => .behind ?_ ⟨[_, _], rfl⟩
    exact (S.says_readExpr 0 tail).map fun _ _ value _ hv => S.definition hlaid hv
  · exact S.says_readRouting _

/-- The lines are as surveyed, if there are no faults or the survey goes on behind them. -/
theorem lines_readLines (block : Block) (ts : List Token) (hlaid : S.laid ts)
    (h : S.recovers ∨ (readLines stop block ts).faults = []) :
    S.lines block ts (readLines stop block ts).faults (readLines stop block ts).program.lines := by
  fun_induction readLines stop block ts with
  | case1 block hb => exact S.finished hb
  | case2 block span hb => exact S.unclosed (h.resolve_right (List.cons_ne_nil _ _)) hb
  | case3 block span rest opened faults hs ih =>
    have hstart := h.imp_right fun hf => (List.append_eq_nil_iff.mp hf).1
    have hrest := ih (S.laid_tail hlaid) (h.imp_right fun hf => (List.append_eq_nil_iff.mp hf).2)
    obtain ⟨rfl, rfl⟩ := Prod.mk.inj hs
    exact S.start hstart hlaid hrest
  | case4 block span rest closed faults hs ih =>
    have hclose := h.imp_right fun hf => (List.append_eq_nil_iff.mp hf).1
    have hrest := ih (S.laid_tail hlaid) (h.imp_right fun hf => (List.append_eq_nil_iff.mp hf).2)
    obtain ⟨rfl, rfl⟩ := Prod.mk.inj hs
    exact S.close hclose hlaid hrest
  | case5 block t rest hs he step statement hu ih =>
    have hstep := h.imp_right fun hf => (List.append_eq_nil_iff.mp hf).1
    obtain ⟨hsuffix, htold, hresult⟩ := S.says_readStatement (t :: rest) hlaid hstep
    have hmid := Account.laid_suffix hlaid hsuffix
    have hrest := ih hmid (h.imp_right fun hf => (List.append_eq_nil_iff.mp hf).2)
    cases hread : step.result with
    | ok s =>
      rw [show (readStatement stop (t :: rest)).result = .ok s from hread] at hresult
      have hstatement : statement = s := by simp only [statement, hread]
      exact hstatement ▸ S.line htold hmid hresult hrest
    | error span =>
      rw [show (readStatement stop (t :: rest)).result = .error span from hread] at hresult
      obtain ⟨hr, hspan⟩ := hresult
      have hstatement : statement = .error span := by simp only [statement, hread]
      exact hstatement ▸ hspan ▸ S.line_lost hr htold hmid hrest
  | case6 block t rest hs he step statement hu ih =>
    have hstep := h.imp_right fun hf => (List.append_eq_nil_iff.mp hf).1
    obtain ⟨hsuffix, htold, hresult⟩ := S.says_readStatement (t :: rest) hlaid hstep
    have hmid := Account.laid_suffix hlaid hsuffix
    have hrest := ih (S.laid_tail hlaid)
      (h.imp_right fun hf => (List.append_eq_nil_iff.mp hf).2)
    cases hread : step.result with
    | ok s =>
      rw [show (readStatement stop (t :: rest)).result = .ok s from hread] at hresult
      -- The statement has taken no token.
      have hnone : (readStatement stop (t :: rest)).rest = t :: rest :=
        hsuffix.eq_of_length_le (Nat.lt_of_not_le hu)
      rw [hnone] at hresult
      have hstatement : statement = s := by simp only [statement, hread]
      exact hstatement ▸ S.line_stuck htold hlaid hresult hrest
    | error span =>
      rw [show (readStatement stop (t :: rest)).result = .error span from hread] at hresult
      obtain ⟨hr, hspan⟩ := hresult
      have hstatement : statement = .error span := by simp only [statement, hread]
      exact hstatement ▸ hspan ▸ S.line_lost hr htold hmid hrest

end Survey
end Patchbay.Program
