import Patchbay.Program.Basic
import Patchbay.Program.Step

/-! Reading tokens as a program. Every token list has one: what cannot be read becomes an error
node, and reading goes on behind it. -/
namespace Patchbay.Program

def nestingLimit : Nat := 64

/-- An expression and how its form lets it be connected. -/
structure Link where
  expr : Expr
  direction : Direction

/-- An unreadable part may stand anywhere, so that one fault is reported once. -/
def Link.error (span : Span) : Link := ⟨.error span, .both⟩

def Link.unreadable (l : Link) : List (Located Fault) :=
  if l.direction.output then [] else [⟨.unreadable, some l.expr.span⟩]

def Link.unwritable (l : Link) : List (Located Fault) :=
  if l.direction.input then [] else [⟨.unwritable, some l.expr.span⟩]

/-- Skip the rest of a group that could not be read, up to and with the next closing mark. The
value is the place of the last token skipped, or `last` when none is left. -/
def skipGroup (last : Span) : (ts : List Token) → Step ts Span
  | [] => .done last
  | t :: rest =>
    if t.kind = .mark .closeParen || t.kind = .mark .closeBracket then
      ⟨.ok t.span, [], rest, Step.tail_le⟩
    else (skipGroup t.span rest).behind Step.tail_le

def readIdent (stop : Span) : (ts : List Token) → Step ts Ident
  | ⟨.name name, span⟩ :: rest => ⟨.ok ⟨name, span⟩, [], rest, Step.tail_le⟩
  | ts => unexpected stop ts

def sumOp? : Token.Kind → Option BinaryOp
  | .operator .plus => some .add
  | .operator .minus => some .subtract
  | _ => none

def polarity? : Token.Kind → Option Polarity
  | .keyword .bi => some .bipolar
  | .mark .openBracket => some .unipolar
  | _ => none

def Link.binary (op : BinaryOp) (left right : Link) : Link :=
  ⟨.binary op left.expr right.expr (left.expr.span.join right.expr.span), .source⟩

def Link.signed (sign : Sign) (span : Span) (operand : Link) : Link :=
  ⟨.unary sign operand.expr (span.join operand.expr.span), .source⟩

mutual

def readExpr (stop : Span) (depth : Nat) (ts : List Token) : Step ts Link :=
  (readProduct stop depth ts).andThen fun left rest _ => readTerms stop depth left rest
termination_by 16 * ts.length + 5

def readTerms (stop : Span) (depth : Nat) (left : Link) (ts : List Token) : Step ts Link :=
  match ts with
  | [] => .done left
  | t :: rest =>
    match sumOp? t.kind with
    | none => .done left
    | some op =>
      ((readProduct stop depth rest).andThen fun right rest _ =>
        readTerms stop depth (.binary op left right) rest).behind Step.tail_le
termination_by 16 * ts.length

def readProduct (stop : Span) (depth : Nat) (ts : List Token) : Step ts Link :=
  (readFactor stop depth ts).andThen fun left rest _ => readFactors stop depth left rest
termination_by 16 * ts.length + 4

def readFactors (stop : Span) (depth : Nat) (left : Link) (ts : List Token) : Step ts Link :=
  match ts with
  | ⟨.operator .star, _⟩ :: rest =>
    ((readFactor stop depth rest).andThen fun right rest _ =>
      readFactors stop depth (.binary .multiply left right) rest).behind Step.tail_le
  | ts => .done left
termination_by 16 * ts.length

def readFactor (stop : Span) (depth : Nat) (ts : List Token) : Step ts Link :=
  (readOperand stop depth ts).andThen fun source rest _ => readMappings stop depth source rest
termination_by 16 * ts.length + 3

/-- The mappings behind an operand, each applied to what stands before it. -/
def readMappings (stop : Span) (depth : Nat) (source : Link) (ts : List Token) : Step ts Link :=
  match ts with
  | [] => .done source
  | t :: rest =>
    match polarity? t.kind with
    | none => .done source
    | some .unipolar =>
      ((readMapping .unipolar stop depth source rest).noting source.unreadable).behind
        Step.tail_le
    | some .bipolar =>
      (((expect stop (.mark .openBracket) rest).andThen fun _ rest _ =>
        readMapping .bipolar stop depth source rest).noting source.unreadable).behind
        Step.tail_le
termination_by 16 * ts.length

def readMapping (polarity : Polarity) (stop : Span) (depth : Nat) (source : Link)
    (ts : List Token) : Step ts Link :=
  ((readInterval stop depth ts).orElse fun span rest _ =>
    (skipGroup stop rest).map fun close => (.error span, .error span, close)).andThen
    fun (low, high, close) rest _ =>
      readMappings stop depth
        ⟨.mapping polarity source.expr low high (source.expr.span.join close), .source⟩ rest
termination_by 16 * ts.length + 7

/-- The two ends of an interval and the place of its closing bracket. -/
def readInterval (stop : Span) (depth : Nat) (ts : List Token) : Step ts (Expr × Expr × Span) :=
  (readExpr stop depth ts).andThen fun low rest _ =>
    (expect stop (.mark .comma) rest).andThen fun _ rest _ =>
      (readExpr stop depth rest).andThen fun high rest _ =>
        (expect stop (.mark .closeBracket) rest).map fun close => (low.expr, high.expr, close)
termination_by 16 * ts.length + 6

def readOperand (stop : Span) (depth : Nat) (ts : List Token) : Step ts Link :=
  if nestingLimit ≤ depth then
    let span := (ts.head?.map Token.span).getD stop
    (Step.failed span).noting [⟨.nestedTooDeeply, some span⟩]
  else readAtom stop (depth + 1) ts
termination_by 16 * ts.length + 2

def readAtom (stop : Span) (depth : Nat) (ts : List Token) : Step ts Link :=
  match ts with
  | ⟨.operator .plus, span⟩ :: rest => (readSigned .plus span stop depth rest).behind Step.tail_le
  | ⟨.operator .minus, span⟩ :: rest =>
    (readSigned .minus span stop depth rest).behind Step.tail_le
  | ⟨.number value unit, span⟩ :: rest =>
    ⟨.ok ⟨.number value unit span, .source⟩, [], rest, Step.tail_le⟩
  | ⟨.mark .openParen, span⟩ :: rest =>
    (((readExpr stop depth rest).andThen fun inner rest _ =>
      (expect stop (.mark .closeParen) rest).map fun close =>
        ⟨inner.expr.withSpan (span.join close), inner.direction⟩).orElse fun _ rest _ =>
      (skipGroup stop rest).map fun close => .error (span.join close)).behind Step.tail_le
  | ⟨.keyword .new, span⟩ :: rest =>
    ((readIdent stop rest).andThen fun className rest _ =>
      (readArgs stop depth rest).map fun (args, close) =>
        ⟨.construction ⟨className, none, args, span.join close⟩, .both⟩).behind Step.tail_le
  | ⟨.name object, span⟩ :: ⟨.mark .dot, _⟩ :: rest =>
    ((readIdent stop rest).map fun socket =>
      ⟨.socket ⟨object, span⟩ socket (span.join socket.span), .sink⟩).behind
      (by simp only [List.length_cons]; omega)
  | ⟨.name object, span⟩ :: ⟨.mark .colon, _⟩ :: rest =>
    ((readIdent stop rest).map fun output =>
      ⟨.output ⟨object, span⟩ output (span.join output.span), .source⟩).behind
      (by simp only [List.length_cons]; omega)
  | ⟨.name className, span⟩ :: ⟨.name name, nameSpan⟩ :: ⟨.mark .openParen, bracket⟩ :: rest =>
    ((readArgs stop depth (⟨.mark .openParen, bracket⟩ :: rest)).map fun (args, close) =>
      ⟨.construction ⟨⟨className, span⟩, some ⟨name, nameSpan⟩, args, span.join close⟩,
        .both⟩).behind (by simp only [List.length_cons]; omega)
  | ⟨.name name, span⟩ :: rest => ⟨.ok ⟨.name ⟨name, span⟩, .both⟩, [], rest, Step.tail_le⟩
  | ts => unexpected stop ts
termination_by 16 * ts.length + 1

def readSigned (sign : Sign) (span stop : Span) (depth : Nat) (ts : List Token) : Step ts Link :=
  (readFactor stop depth ts).andThen fun operand _ _ =>
    (Step.done (.signed sign span operand)).noting operand.unreadable
termination_by 16 * ts.length + 4

/-- Arguments in parentheses, and the place of the token they end with. -/
def readArgs (stop : Span) (depth : Nat) (ts : List Token) : Step ts (List (Arg Expr) × Span) :=
  (expect stop (.mark .openParen) ts).andThen fun _ rest _ => readOpenArgs stop depth rest
termination_by 16 * ts.length + 9

def readOpenArgs (stop : Span) (depth : Nat) (ts : List Token) :
    Step ts (List (Arg Expr) × Span) :=
  match ts with
  | ⟨.mark .closeParen, span⟩ :: rest => ⟨.ok ([], span), [], rest, Step.tail_le⟩
  | ts => readArgList stop depth [] ts
termination_by 16 * ts.length + 8

/-- At least one argument, behind those read so far. After a fault the rest of the group is
skipped. -/
def readArgList (stop : Span) (depth : Nat) (done : List (Arg Expr)) (ts : List Token) :
    Step ts (List (Arg Expr) × Span) :=
  (readArg stop depth ts).either
    (fun arg rest _ =>
      match rest with
      | ⟨.mark .comma, _⟩ :: rest => (readArgList stop depth (arg :: done) rest).behind Step.tail_le
      | ⟨.mark .closeParen, span⟩ :: rest =>
        ⟨.ok ((arg :: done).reverse, span), [], rest, Step.tail_le⟩
      | rest =>
        (unexpected stop rest).orElse fun _ rest _ =>
          (skipGroup stop rest).map fun close => ((arg :: done).reverse, close))
    (fun span rest _ =>
      (skipGroup stop rest).map fun close => ((⟨none, .error span⟩ :: done).reverse, close))
termination_by 16 * ts.length + 7

def readArg (stop : Span) (depth : Nat) (ts : List Token) : Step ts (Arg Expr) :=
  match ts with
  | ⟨.mark .dot, _⟩ :: rest =>
    ((readIdent stop rest).andThen fun socket rest _ =>
      (expect stop (.operator .assign) rest).andThen fun _ rest _ =>
        (readExpr stop depth rest).andThen fun value _ _ =>
          (Step.done ⟨some ⟨socket, socket.span.join value.expr.span⟩, value.expr⟩).noting
            value.unreadable).behind Step.tail_le
  | ts =>
    (readExpr stop depth ts).andThen fun value _ _ =>
      (Step.done ⟨none, value.expr⟩).noting value.unreadable
termination_by 16 * ts.length + 6
decreasing_by
  all_goals try simp only [List.length_cons] at *
  all_goals omega

end

/-- Whether the token is an arrow of a chain. Behind a backward arrow the others may point either
way. -/
def isArrow (backward : Bool) (t : Token) : Bool :=
  t.kind = .operator .arrow || (backward && t.kind = .operator .backArrow)

def readLinks (backward : Bool) (stop : Span) (ts : List Token) : Step ts (List Link) :=
  match ts with
  | [] => .done []
  | t :: rest =>
    if isArrow backward t then
      ((readExpr stop 0 rest).andThen fun link rest _ =>
        (readLinks backward stop rest).map (link :: ·)).behind Step.tail_le
    else .done []
termination_by ts.length

/-- The faults of links at places where they cannot stand: all but the last are read, all but the
first are written to. -/
def linkFaults (links : List Link) : List (Located Fault) :=
  links.zipIdx.flatMap fun (link, i) =>
    (if i + 1 < links.length then link.unreadable else []) ++
      if 0 < i then link.unwritable else []

def chainOf (backward : Bool) (first second : Link) (more : List Link) :
    Statement × List (Located Fault) :=
  let others := second :: more
  let last := others.getLast (List.cons_ne_nil _ _)
  let between := others.dropLast.map Link.expr
  let span := others.foldl (fun span link => span.join link.expr.span) first.expr.span
  if backward then
    (.chain last.expr between.reverse first.expr span, linkFaults (first :: others).reverse)
  else (.chain first.expr between last.expr span, linkFaults (first :: others))

def readChain (backward : Bool) (stop : Span) (first : Link) (ts : List Token) :
    Step ts Statement :=
  (readExpr stop 0 ts).andThen fun second rest _ =>
    (readLinks backward stop rest).andThen fun more _ _ =>
      let (chain, faults) := chainOf backward first second more
      (Step.done chain).noting faults

/-- A statement that is no definition: a chain, or a construction on its own. -/
def readRouting (stop : Span) (ts : List Token) : Step ts Statement :=
  (readExpr stop 0 ts).andThen fun first rest _ =>
    match rest with
    | ⟨.operator .arrow, _⟩ :: rest => (readChain false stop first rest).behind Step.tail_le
    | ⟨.operator .backArrow, _⟩ :: rest => (readChain true stop first rest).behind Step.tail_le
    | _ =>
      match first.expr with
      | .construction c => .done (.construction c)
      | other => (Step.done (.error other.span)).noting [⟨.unexpectedExpression, some other.span⟩]

/-- One statement. A name with an equals sign starts a definition. -/
def readStatement (stop : Span) (ts : List Token) : Step ts Statement :=
  match ts with
  | ⟨.name name, span⟩ :: ⟨.operator .assign, _⟩ :: rest =>
    ((readExpr stop 0 rest).map fun value =>
      .definition ⟨name, span⟩ value.expr (span.join value.expr.span)).behind
      (by simp only [List.length_cons]; omega)
  | ts => readRouting stop ts

/-- The voice block while lines are read: where it was opened if it is open, and whether there was
one before. -/
structure Block where
  opened : Option Span
  seen : Bool

def Block.scope (b : Block) : Scope := if b.opened.isSome then .voice else .global

/-- The block once it is opened. Inside an open one this is a fault, and so is a second block. -/
def Block.start (b : Block) (span : Span) : Block × List (Located Fault) :=
  if b.opened.isSome then (b, [⟨.nestedVoiceBlock, some span⟩])
  else (⟨some span, true⟩, if b.seen then [⟨.secondVoiceBlock, some span⟩] else [])

/-- The block once it is closed, which is a fault if none is open. -/
def Block.close (b : Block) (span : Span) : Block × List (Located Fault) :=
  (⟨none, b.seen⟩, if b.opened.isSome then [] else [⟨.unopenedVoiceBlock, some span⟩])

/-- A program and the faults found in its text. -/
structure Reading where
  program : Program
  faults : List (Located Fault)

def Reading.behind (r : Reading) (lines : List Line) (faults : List (Located Fault)) : Reading :=
  ⟨⟨lines ++ r.program.lines⟩, faults ++ r.faults⟩

/-- The lines that the tokens hold. Each round uses up a token, also behind a statement that took
none. -/
def readLines (stop : Span) (block : Block) (ts : List Token) : Reading :=
  match ts with
  | [] =>
    match block.opened with
    | none => ⟨⟨[]⟩, []⟩
    | some span => ⟨⟨[]⟩, [⟨.unclosedVoiceBlock, some span⟩]⟩
  | ⟨.keyword .startVoice, span⟩ :: rest =>
    let (block, faults) := block.start span
    (readLines stop block rest).behind [] faults
  | ⟨.keyword .endVoice, span⟩ :: rest =>
    let (block, faults) := block.close span
    (readLines stop block rest).behind [] faults
  | t :: rest =>
    let step := readStatement stop (t :: rest)
    let statement :=
      match step.result with
      | .ok statement => statement
      | .error span => .error span
    if _used : step.rest.length ≤ rest.length then
      (readLines stop block step.rest).behind [⟨block.scope, statement⟩] step.faults
    else (readLines stop block rest).behind [⟨block.scope, statement⟩] step.faults
termination_by ts.length
decreasing_by
  all_goals simp +zetaDelta only [List.length_cons] at *; omega

/-- The program that a token list holds. Where tokens are missing, faults stand just behind the
last one. -/
def ofTokens (ts : List Token) : Reading :=
  let stop := (ts.getLast?.map fun t => t.span.stop).getD 0
  readLines ⟨stop, stop⟩ ⟨none, false⟩ ts

end Patchbay.Program
