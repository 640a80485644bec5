import Patchbay.Program.Reader

/-! A parser with a state. It has all tokens and the position it has come to, counts how deeply it
is nested, and notes faults as it finds them. Its functions call each other as the grammar says.
That they end is not built into them: there is no outcome where one does not. -/
namespace Patchbay.Program

structure Parser where
  tokens : List Token
  position : Nat
  depth : Nat
  faults : List (Located Fault)

namespace Parser

/-- What was read, or the place where it failed, and the parser behind it. -/
abbrev Parsed (α : Type) := Except Span α × Parser

/-- The tokens that are left. -/
def rest (s : Parser) : List Token := s.tokens.drop s.position

/-- The place just behind the last token. -/
def stop (s : Parser) : Span :=
  let stop := (s.tokens.getLast?.map fun t => t.span.stop).getD 0
  ⟨stop, stop⟩

def advance (s : Parser) : Parser :=
  if s.position < s.tokens.length then { s with position := s.position + 1 } else s

def note (s : Parser) (faults : List (Located Fault)) : Parser :=
  { s with faults := s.faults ++ faults }

def deeper (s : Parser) : Parser := { s with depth := s.depth + 1 }

def shallower (s : Parser) : Parser := { s with depth := s.depth - 1 }

/-- Note that the next token, or the end, should not be there. -/
def unexpected (s : Parser) : Span × Parser :=
  match s.rest with
  | [] => (s.stop, s.note [⟨.unexpectedEnd, none⟩])
  | t :: _ => (t.span, s.note [⟨.unexpectedToken t.kind, some t.span⟩])

/-- Fail at the next token. -/
def refuse {α : Type} (s : Parser) : Option (Parsed α) :=
  some (.error s.unexpected.1, s.unexpected.2)

def expect (s : Parser) (kind : Token.Kind) : Option (Parsed Span) :=
  match s.rest with
  | [] => s.refuse
  | t :: _ => if t.kind = kind then some (.ok t.span, s.advance) else s.refuse

def ident (s : Parser) : Option (Parsed Ident) :=
  match s.rest with
  | ⟨.name name, span⟩ :: _ => some (.ok ⟨name, span⟩, s.advance)
  | _ => s.refuse

/-- Skip tokens up to and with the next closing mark, behind the token at `last`. -/
def skip (s : Parser) (last : Span) : Option (Span × Parser) :=
  match s.rest with
  | [] => some (last, s)
  | t :: _ =>
    if t.kind = .mark .closeParen || t.kind = .mark .closeBracket then some (t.span, s.advance)
    else s.advance |>.skip t.span
partial_fixpoint

def recover (s : Parser) : Option (Span × Parser) := s.skip s.stop

/-- The operator that a token stands for, and how strongly it binds. -/
def operator? : Token.Kind → Option (BinaryOp × Nat)
  | .operator .plus => some (.add, 1)
  | .operator .minus => some (.subtract, 1)
  | .operator .star => some (.multiply, 2)
  | _ => none

mutual

/-- Operands joined by operators that bind at least as strongly as given. -/
def binary (s : Parser) (least : Nat) : Option (Parsed Link) := do
  match ← s |>.primary with
  | (.error span, s) => return (.error span, s)
  | (.ok left, s) => s |>.climb least left
partial_fixpoint

/-- The operators behind an operand, with what they join to it. -/
def climb (s : Parser) (least : Nat) (left : Link) : Option (Parsed Link) :=
  match s.rest with
  | [] => return (.ok left, s)
  | t :: _ =>
    match operator? t.kind with
    | none => return (.ok left, s)
    | some (op, strength) =>
      if strength < least then return (.ok left, s)
      else do
        match ← s.advance |>.binary (strength + 1) with
        | (.error span, s) => return (.error span, s)
        | (.ok right, s) => s |>.climb least (.binary op left right)
partial_fixpoint

/-- An operand with the mappings behind it. -/
def primary (s : Parser) : Option (Parsed Link) := do
  match ← s |>.operand with
  | (.error span, s) => return (.error span, s)
  | (.ok source, s) => s |>.mappings source
partial_fixpoint

/-- The mappings behind an operand. -/
def mappings (s : Parser) (source : Link) : Option (Parsed Link) :=
  match s.rest with
  | [] => return (.ok source, s)
  | t :: _ =>
    match polarity? t.kind with
    | none => return (.ok source, s)
    | some polarity => do
      let s := s.note source.unreadable
      let s := if polarity = .bipolar then s.advance else s
      match ← s.expect (.mark .openBracket) with
      | (.error span, s) => return (.error span, s)
      | (.ok _, s) =>
        let ((low, high, close), s) ← s |>.bracketed
        s |>.mappings
          ⟨.mapping polarity source.expr low high (source.expr.span.join close), .source⟩
partial_fixpoint

/-- The interval of a mapping. Behind one that cannot be read the rest of the group is skipped. -/
def bracketed (s : Parser) : Option ((Expr × Expr × Span) × Parser) := do
  match ← s |>.interval with
  | (.error span, s) =>
    let (close, s) ← s.recover
    return ((.error span, .error span, close), s)
  | (.ok ends, s) => return (ends, s)
partial_fixpoint

/-- The two ends of an interval and the place of its closing bracket. -/
def interval (s : Parser) : Option (Parsed (Expr × Expr × Span)) := do
  match ← s |>.binary 1 with
  | (.error span, s) => return (.error span, s)
  | (.ok low, s) =>
    match ← s.expect (.mark .comma) with
    | (.error span, s) => return (.error span, s)
    | (.ok _, s) =>
      match ← s |>.binary 1 with
      | (.error span, s) => return (.error span, s)
      | (.ok high, s) =>
        match ← s.expect (.mark .closeBracket) with
        | (.error span, s) => return (.error span, s)
        | (.ok close, s) => return (.ok (low.expr, high.expr, close), s)
partial_fixpoint

/-- An operand one level deeper, unless that is too deep. -/
def operand (s : Parser) : Option (Parsed Link) :=
  if nestingLimit ≤ s.depth then
    let span := (s.rest.head?.map Token.span).getD s.stop
    return (.error span, s.note [⟨.nestedTooDeeply, some span⟩])
  else do
    let (parsed, s) ← s.deeper |>.atom
    return (parsed, s.shallower)
partial_fixpoint

/-- An operand without mappings. -/
def atom (s : Parser) : Option (Parsed Link) :=
  match s.rest with
  | ⟨.operator .plus, span⟩ :: _ => s.advance |>.signed .plus span
  | ⟨.operator .minus, span⟩ :: _ => s.advance |>.signed .minus span
  | ⟨.number value unit, span⟩ :: _ => return (.ok ⟨.number value unit span, .source⟩, s.advance)
  | ⟨.mark .openParen, span⟩ :: _ => do
    match ← s.advance |>.parenthesized with
    | (.error _, s) =>
      let (close, s) ← s.recover
      return (.ok (.error (span.join close)), s)
    | (.ok (inner, close), s) =>
      return (.ok ⟨inner.expr.withSpan (span.join close), inner.direction⟩, s)
  | ⟨.keyword .new, span⟩ :: _ => do
    match ← s.advance.ident with
    | (.error span, s) => return (.error span, s)
    | (.ok className, s) =>
      match ← s |>.args with
      | (.error span, s) => return (.error span, s)
      | (.ok (args, close), s) =>
        return (.ok ⟨.construction ⟨className, none, args, span.join close⟩, .both⟩, s)
  | ⟨.name object, span⟩ :: ⟨.mark .dot, _⟩ :: _ => do
    match ← s.advance.advance.ident with
    | (.error span, s) => return (.error span, s)
    | (.ok socket, s) =>
      return (.ok ⟨.socket ⟨object, span⟩ socket (span.join socket.span), .sink⟩, s)
  | ⟨.name object, span⟩ :: ⟨.mark .colon, _⟩ :: _ => do
    match ← s.advance.advance.ident with
    | (.error span, s) => return (.error span, s)
    | (.ok output, s) =>
      return (.ok ⟨.output ⟨object, span⟩ output (span.join output.span), .source⟩, s)
  | ⟨.name className, span⟩ :: ⟨.name name, nameSpan⟩ :: ⟨.mark .openParen, _⟩ :: _ => do
    match ← s.advance.advance |>.args with
    | (.error span, s) => return (.error span, s)
    | (.ok (args, close), s) =>
      return (.ok ⟨.construction
        ⟨⟨className, span⟩, some ⟨name, nameSpan⟩, args, span.join close⟩, .both⟩, s)
  | ⟨.name name, span⟩ :: _ => return (.ok ⟨.name ⟨name, span⟩, .both⟩, s.advance)
  | _ => s.refuse
partial_fixpoint

/-- The operand behind a sign. -/
def signed (s : Parser) (sign : Sign) (span : Span) : Option (Parsed Link) := do
  match ← s |>.primary with
  | (.error span, s) => return (.error span, s)
  | (.ok operand, s) => return (.ok (.signed sign span operand), s.note operand.unreadable)
partial_fixpoint

/-- An expression and the place of the closing parenthesis behind it. -/
def parenthesized (s : Parser) : Option (Parsed (Link × Span)) := do
  match ← s |>.binary 1 with
  | (.error span, s) => return (.error span, s)
  | (.ok inner, s) =>
    match ← s.expect (.mark .closeParen) with
    | (.error span, s) => return (.error span, s)
    | (.ok close, s) => return (.ok (inner, close), s)
partial_fixpoint

/-- Arguments in parentheses, and the place of the token they end with. -/
def args (s : Parser) : Option (Parsed (List (Arg Expr) × Span)) := do
  match ← s.expect (.mark .openParen) with
  | (.error span, s) => return (.error span, s)
  | (.ok _, s) =>
    match s.rest with
    | ⟨.mark .closeParen, span⟩ :: _ => return (.ok ([], span), s.advance)
    | _ => s |>.argList []
partial_fixpoint

/-- At least one argument, behind those read so far. -/
def argList (s : Parser) (done : List (Arg Expr)) : Option (Parsed (List (Arg Expr) × Span)) := do
  match ← s |>.arg with
  | (.error span, s) =>
    let (close, s) ← s.recover
    return (.ok ((⟨none, .error span⟩ :: done).reverse, close), s)
  | (.ok arg, s) =>
    match s.rest with
    | ⟨.mark .comma, _⟩ :: _ => s.advance |>.argList (arg :: done)
    | ⟨.mark .closeParen, span⟩ :: _ => return (.ok ((arg :: done).reverse, span), s.advance)
    | _ =>
      let (close, s) ← s.unexpected.2.recover
      return (.ok ((arg :: done).reverse, close), s)
partial_fixpoint

/-- One argument. -/
def arg (s : Parser) : Option (Parsed (Arg Expr)) :=
  match s.rest with
  | ⟨.mark .dot, _⟩ :: _ => do
    match ← s.advance.ident with
    | (.error span, s) => return (.error span, s)
    | (.ok socket, s) =>
      match ← s.expect (.operator .assign) with
      | (.error span, s) => return (.error span, s)
      | (.ok _, s) =>
        match ← s |>.binary 1 with
        | (.error span, s) => return (.error span, s)
        | (.ok value, s) =>
          return (.ok ⟨some ⟨socket, socket.span.join value.expr.span⟩, value.expr⟩,
            s.note value.unreadable)
  | _ => do
    match ← s |>.binary 1 with
    | (.error span, s) => return (.error span, s)
    | (.ok value, s) => return (.ok ⟨none, value.expr⟩, s.note value.unreadable)
partial_fixpoint

end

/-- The chain through links, of which there are two at least. -/
def finish (s : Parser) (backward : Bool) (first : Link) : List Link → Option (Parsed Statement)
  | [] => return (.error first.expr.span, s)
  | second :: more =>
    let chain := chainOf backward first second more
    return (.ok chain.1, s.note chain.2)

/-- The links of a chain behind those read so far. -/
def links (s : Parser) (backward : Bool) (first : Link) (others : List Link) :
    Option (Parsed Statement) :=
  match s.rest with
  | [] => s.finish backward first others
  | t :: _ =>
    if isArrow backward t then do
      match ← s.advance.binary 1 with
      | (.error span, s) => return (.error span, s)
      | (.ok link, s) => s |>.links backward first (others ++ [link])
    else s.finish backward first others
partial_fixpoint

/-- A statement that is no definition. -/
def routing (s : Parser) : Option (Parsed Statement) := do
  match ← s.binary 1 with
  | (.error span, s) => return (.error span, s)
  | (.ok first, s) =>
    match s.rest with
    | ⟨.operator .arrow, _⟩ :: _ => s.links false first []
    | ⟨.operator .backArrow, _⟩ :: _ => s.links true first []
    | _ =>
      match first.expr with
      | .construction c => return (.ok (.construction c), s)
      | other =>
        return (.ok (.error other.span), s.note [⟨.unexpectedExpression, some other.span⟩])

/-- One statement. -/
def statement (s : Parser) : Option (Parsed Statement) :=
  match s.rest with
  | ⟨.name name, span⟩ :: ⟨.operator .assign, _⟩ :: _ => do
    match ← s.advance.advance.binary 1 with
    | (.error span, s) => return (.error span, s)
    | (.ok value, s) =>
      return (.ok (.definition ⟨name, span⟩ value.expr (span.join value.expr.span)), s)
  | _ => s.routing

/-- What stands on a line: the statement that was read, or an error node in its place. -/
def written : Except Span Statement → Statement
  | .ok statement => statement
  | .error span => .error span

/-- A line. Where its statement uses up no token, one is skipped. -/
def line (s : Parser) (scope : Scope) : Option (Line × Parser) := do
  let (statement, s') ← s.statement
  return (⟨scope, written statement⟩, if s'.position = s.position then s'.advance else s')

/-- What a round of the main loop handles at a token: a line, or a keyword of a voice block. -/
def round (s : Parser) (t : Token) (block : Block) : Option ((Block × Option Line) × Parser) :=
  match t.kind with
  | .keyword .startVoice =>
    let opened := block.start t.span
    return ((opened.1, none), s.advance.note opened.2)
  | .keyword .endVoice =>
    let closed := block.close t.span
    return ((closed.1, none), s.advance.note closed.2)
  | _ => do
    let (line, s) ← s.line block.scope
    return ((block, some line), s)

/-- Rounds as long as there are tokens, behind what was handled so far. -/
def rounds (s : Parser) (block : Block) (handled : List (Option Line)) :
    Option ((Block × List (Option Line)) × Parser) :=
  match s.rest with
  | [] => return ((block, handled), s)
  | t :: _ => do
    let ((block, line), s) ← s.round t block
    s |>.rounds block (handled ++ [line])
partial_fixpoint

/-- The fault of a block that is still open at the end. -/
def unclosed (block : Block) : List (Located Fault) :=
  match block.opened with
  | none => []
  | some span => [⟨.unclosedVoiceBlock, some span⟩]

/-- The lines of a program, and the keywords of voice blocks between them. -/
def parse (s : Parser) : Option (List (Option Line) × Parser) := do
  let ((block, handled), s) ← s.rounds ⟨none, false⟩ []
  return (handled, s.note (unclosed block))

/-- A parser before the first token. -/
def start (ts : List Token) : Parser := ⟨ts, 0, 0, []⟩

end Parser
end Patchbay.Program
