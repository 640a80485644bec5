/-! The characters of a YAML text: which may stand in it, which separate words, and where in the
text they stand. -/
namespace Patchbay.Yaml

def isPrintable (c : Char) : Bool :=
  let n := c.toNat
  n = 0x09 || n = 0x0A || n = 0x0D || (0x20 ≤ n && n ≤ 0x7E) || n = 0x85 ||
    (0xA0 ≤ n && n ≤ 0xFFFD) || 0x10000 ≤ n

/-- A text in which every line ends in a line feed or in one of the two Unicode separators. -/
def unifyBreaks : List Char → List Char
  | [] => []
  | '\r' :: '\n' :: rest => '\n' :: unifyBreaks rest
  | c :: rest => (if c = '\r' || c = '\u0085' then '\n' else c) :: unifyBreaks rest

def isBreak (c : Char) : Bool := c = '\n' || c = '\u2028' || c = '\u2029'

def isBlank (c : Char) : Bool := c = ' ' || c = '\t'

def isSpace (c : Char) : Bool := isBlank c || isBreak c

def endsWord (cs : List Char) : Bool := cs.head?.all isSpace

def isMarker : List Char → Bool
  | '-' :: '-' :: '-' :: rest | '.' :: '.' :: '.' :: rest => endsWord rest
  | _ => false

def firstLine (cs : List Char) : List Char := cs.takeWhile (!isBreak ·)

/-- How many characters are left on the line, if they are blanks and a comment. -/
def lineRest? (cs : List Char) : Option Nat :=
  let line := firstLine cs
  if (line.dropWhile isBlank).head?.all (· = '#') then some line.length else none

/-- A place in the text: how many characters stand before it, and its line and column. -/
structure Place where
  index : Nat
  line : Nat
  column : Nat
  deriving Repr, DecidableEq

def Place.next (p : Place) (c : Char) : Place :=
  if isBreak c then ⟨p.index + 1, p.line + 1, 0⟩ else ⟨p.index + 1, p.line, p.column + 1⟩

def Place.after (p : Place) (cs : List Char) : Place := cs.foldl Place.next p

end Patchbay.Yaml
