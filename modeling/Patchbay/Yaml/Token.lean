import Patchbay.Yaml.Basic
import Patchbay.Yaml.Block
import Patchbay.Yaml.Label

/-! The tokens of a YAML text. Indentation becomes tokens that open and close blocks. Whether a node
is a key shows only at the colon behind it; the token for the key is then put in front of it. -/
namespace Patchbay.Yaml

inductive Token where
  | directive
  | documentStart
  | documentEnd
  | blockSequence
  | blockMapping
  | blockEnd
  | openBracket
  | closeBracket
  | openBrace
  | closeBrace
  | comma
  | entry
  | key
  | value
  | reference (anchor : Nat)
  | anchor (number : Nat)
  | tag (name : String)
  | scalar (style : ScalarStyle) (text : String)
  deriving Repr, DecidableEq

/-- A place at which a key may turn out to start: how many tokens stand in front of it, and whether
nothing else may stand there. -/
structure OpenKey where
  tokensBefore : Nat
  place : Place
  required : Bool

/-- A key stands on one line and has at most 1024 characters. -/
def OpenKey.isOver (k : OpenKey) (p : Place) : Bool :=
  k.place.line < p.line || k.place.index + 1024 < p.index

/-- What is known of a text up to a place in it. -/
structure Scan where
  place : Place
  blocks : List Nat
  openKey : Option OpenKey
  outerKeys : List (Option OpenKey)
  keyAllowed : Bool
  tokens : List Token
  count : Nat
  count_eq : count = tokens.length
  /-- The anchors by name. The number of an anchor is the count of names before it. -/
  anchors : Table Nat
  handles : Table String
  versioned : Bool

namespace Scan

def start (place : Place) : Scan :=
  ⟨place, [], none, [], true, [], 0, rfl, .empty, .empty, false⟩

def isInside (s : Scan) : Bool := !s.outerKeys.isEmpty

def margin (s : Scan) : Nat := (s.blocks.head?.map (· + 1)).getD 0

def insert (s : Scan) (before : Nat) (t : Token) : Scan :=
  let later := s.count - before
  { s with
    tokens := s.tokens.take later ++ t :: s.tokens.drop later
    count := s.count + 1
    count_eq := by
      have := s.count_eq
      simp only [List.length_append, List.length_take, List.length_cons, List.length_drop]
      omega }

def emit (s : Scan) (t : Token) : Scan :=
  { s with
    tokens := t :: s.tokens
    count := s.count + 1
    count_eq := congrArg (· + 1) s.count_eq }

/-- Close the blocks that start in a column or further in. Inside brackets columns do not count. -/
def closeBlocks (s : Scan) (column : Nat) : Scan :=
  if s.isInside then s
  else
    let closed := s.blocks.takeWhile (column ≤ ·)
    { s with
      blocks := s.blocks.drop closed.length
      tokens := closed.map (fun _ => .blockEnd) ++ s.tokens
      count := s.count + closed.length
      count_eq := by
        have := s.count_eq
        simp only [List.length_append, List.length_map]
        omega }

/-- Open a block in a column behind the given number of tokens, unless it is open already. -/
def openBlock (s : Scan) (column before : Nat) (t : Token) : Scan :=
  if s.isInside || column < s.margin then s
  else { s.insert before t with blocks := column :: s.blocks }

def dropKey (s : Scan) : Option Scan :=
  if s.openKey.any (·.required) then none else some { s with openKey := none }

def noteKey (s : Scan) : Option Scan :=
  if s.keyAllowed then
    s.dropKey.map fun s =>
      { s with openKey := some ⟨s.count, s.place, !s.isInside && s.margin = s.place.column + 1⟩ }
  else some s

def dropOver (s : Scan) : Option Scan :=
  let isOver (k : OpenKey) := k.isOver s.place
  if (s.openKey :: s.outerKeys).any fun k => k.any fun k => k.required && isOver k then none
  else
    some { s with
      openKey := s.openKey.filter (!isOver ·)
      outerKeys := s.outerKeys.map fun k => k.filter (!isOver ·) }

def allowKey (s : Scan) (allowed : Bool) : Scan := { s with keyAllowed := allowed }

/-- A node of one token, or the anchor or tag in front of a node. -/
def node (s : Scan) (t : Token) : Option Scan := s.noteKey.map fun s => (s.allowKey false).emit t

def openFlow (s : Scan) (t : Token) : Option Scan :=
  s.noteKey.map fun s =>
    { (s.allowKey true).emit t with openKey := none, outerKeys := s.openKey :: s.outerKeys }

def closeFlow (s : Scan) (t : Token) : Option Scan :=
  s.dropKey.map fun s =>
    { (s.allowKey false).emit t with
      openKey := s.outerKeys.head?.join
      outerKeys := s.outerKeys.drop 1 }

def comma (s : Scan) : Option Scan := s.dropKey.map fun s => (s.allowKey true).emit .comma

/-- A mark in front of an item, a key or a value: it may open a block. -/
def openItem (s : Scan) (t : Token) : Option Scan :=
  if s.isInside then some s
  else if s.keyAllowed then some (s.openBlock s.place.column s.count t)
  else none

def entry (s : Scan) : Option Scan := do
  let s ← s.openItem .blockSequence
  let s ← s.dropKey
  return (s.allowKey true).emit .entry

def key (s : Scan) : Option Scan := do
  let s ← s.openItem .blockMapping
  let s ← s.dropKey
  return (s.allowKey !s.isInside).emit .key

/-- The mark in front of a value. What may have started as a key has been one. -/
def value (s : Scan) : Option Scan :=
  match s.openKey with
  | some k =>
    let s := (s.insert k.tokensBefore .key).openBlock k.place.column k.tokensBefore .blockMapping
    some ({ s.allowKey false with openKey := none }.emit .value)
  | none => (s.openItem .blockMapping).map fun s => (s.allowKey !s.isInside).emit .value

def marker (s : Scan) (t : Token) : Option Scan :=
  (s.closeBlocks 0).dropKey.map fun s => (s.allowKey false).emit t

def directive (s : Scan) : Directive → Option Scan
  | .version => if s.versioned then none else { s with versioned := true }.marker .directive
  | .handle name meaning =>
    if s.handles.contains name then none
    else { s with handles := s.handles.put name meaning }.marker .directive

def anchor (s : Scan) (name : String) : Option Scan :=
  { s with anchors := s.anchors.put name s.anchors.size }.node (.anchor s.anchors.size)

def reference (s : Scan) (name : String) : Option Scan :=
  (s.anchors.get? name).bind fun number => s.node (.reference number)

def block (s : Scan) (style : ScalarStyle) (b : Scalar) : Option Scan :=
  s.dropKey.map fun s => (s.allowKey true).emit (.scalar style (String.ofList b.text))

def quoted (s : Scan) (q : Scalar) : Option Scan :=
  s.node (.scalar .quoted (String.ofList q.text))

/-- A plain scalar. Behind a line break a key may start again. -/
def plain (s : Scan) (p : PlainScalar) : Option Scan :=
  (s.node (.scalar .plain (String.ofList p.text))).map fun s => s.allowKey p.broken

def startsPlain (inside : Bool) (c : Char) (rest : List Char) : Bool :=
  !(isSpace c || "-?:,[]\x7b\x7d#&*!|>'\"%@`".contains c) ||
    (c = '-' && !rest.head?.any isBlank) || (!inside && (c = '?' || c = ':') && !endsWord rest)

/-- The token that starts with a character, and how many characters behind it belong to it. -/
def token? (s : Scan) (c : Char) (rest : List Char) : Option (Scan × Nat) :=
  let atStart := s.place.column = 0
  let isMark := s.isInside || endsWord rest
  if atStart && c = '%' then
    (scanDirective rest).bind fun d => (s.directive d.1).map (·, d.2)
  else if atStart && isMarker (c :: rest) then
    (s.marker (if c = '-' then .documentStart else .documentEnd)).map (·, 2)
  else if c = '[' then (s.openFlow .openBracket).map (·, 0)
  else if c = '\x7b' then (s.openFlow .openBrace).map (·, 0)
  else if c = ']' then (s.closeFlow .closeBracket).map (·, 0)
  else if c = '\x7d' then (s.closeFlow .closeBrace).map (·, 0)
  else if c = ',' then s.comma.map (·, 0)
  else if c = '-' && endsWord rest then s.entry.map (·, 0)
  else if c = '?' && isMark then s.key.map (·, 0)
  else if c = ':' && isMark then s.value.map (·, 0)
  else if c = '*' then
    (anchorName? rest).bind fun n => (s.reference (String.ofList n)).map (·, n.length)
  else if c = '&' then
    (anchorName? rest).bind fun n => (s.anchor (String.ofList n)).map (·, n.length)
  else if c = '!' then
    (scanTag s.handles s.isInside rest).bind fun t => (s.node (.tag t.1)).map (·, t.2)
  else if c = '|' && !s.isInside then
    (scanBlock true s.margin rest).bind fun b => (s.block .literal b).map (·, b.taken)
  else if c = '>' && !s.isInside then
    (scanBlock false s.margin rest).bind fun b => (s.block .folded b).map (·, b.taken)
  else if c = '\'' || c = '"' then
    (scanQuoted c [] 0 rest).bind fun q => (s.quoted q).map (·, q.taken)
  else if startsPlain s.isInside c rest then
    (scanPlain s.isInside s.margin s.place.column (c :: rest)).bind fun p =>
      (s.plain p).map (·, p.taken - 1)
  else none

/-- The tokens of the text from here on, behind those read so far. Tabs separate tokens only where
no key may start. -/
def run (s : Scan) (cs : List Char) : Option (List Token) :=
  match cs with
  | [] => (s.closeBlocks 0).dropKey.map fun s => s.tokens.reverse
  | c :: rest =>
    if c = ' ' || (c = '\t' && (s.isInside || !s.keyAllowed)) then
      run { s with place := s.place.next c } rest
    else if isBreak c then
      run { s with place := s.place.next c, keyAllowed := s.keyAllowed || !s.isInside } rest
    else if c = '#' then
      let comment := firstLine rest
      run { s with place := s.place.after (c :: comment) } (rest.drop comment.length)
    else
      match s.dropOver with
      | none => none
      | some s =>
        match (s.closeBlocks (s.place.column + 1)).token? c rest with
        | none => none
        | some (next, more) =>
          run { next with place := s.place.after (c :: rest.take more) } (rest.drop more)
termination_by cs.length
decreasing_by
  all_goals simp only [List.length_drop, List.length_cons]; omega

end Scan

/-- The tokens of a text. A byte order mark at its front belongs to the first line. -/
def tokens? (text : String) : Option (List Token) :=
  let cs := text.toList
  if cs.all isPrintable then
    match unifyBreaks cs with
    | '\uFEFF' :: rest => (Scan.start ⟨1, 0, 1⟩).run rest
    | cs => (Scan.start ⟨0, 0, 0⟩).run cs
  else none

end Patchbay.Yaml
