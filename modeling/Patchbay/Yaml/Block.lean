import Patchbay.Yaml.Scalar

/-! Block scalars: lines further in than what they belong to, kept as they are or folded. -/
namespace Patchbay.Yaml

/-- What becomes of the line breaks at the end: none is left, one, or all. -/
inductive Chomping where
  | strip
  | clip
  | keep
  deriving Repr, DecidableEq

def Chomping.apply (breaks : List Char) : Chomping → List Char
  | strip => []
  | clip => breaks.take 1
  | keep => breaks

def chomping? : Char → Option Chomping
  | '-' => some .strip
  | '+' => some .keep
  | _ => none

def step? (c : Char) : Option Nat :=
  if '1' ≤ c && c ≤ '9' then some (c.toNat - '0'.toNat) else none

def isIndicator (c : Char) : Bool := c = '+' || c = '-' || c.isDigit

/-- What the indicators behind the mark of a block scalar say. Without a digit the first line tells
how far in the lines are. -/
def indicators? : List Char → Option (Chomping × Option Nat)
  | [] => some (.clip, none)
  | [c] =>
    match chomping? c with
    | some chomping => some (chomping, none)
    | none => (step? c).map fun step => (.clip, some step)
  | [c, d] =>
    match chomping? c with
    | some chomping => (step? d).map fun step => (chomping, some step)
    | none => (step? c).bind fun step => (chomping? d).map (·, some step)
  | _ => none

/-- The empty lines in front of a line, as their line breaks, and the column in which its text
starts. `widest` is the widest indentation seen. -/
structure Indentation where
  breaks : List Char
  taken : Nat
  column : Nat
  widest : Nat

/-- The indentation of the next line with text, up to the given column if there is one. No tab may
stand in it. -/
def indentation? (upTo : Option Nat) (column : Nat) : List Char → Option Indentation
  | [] => some ⟨[], 0, column, column⟩
  | c :: rest =>
    if isBreak c then
      (indentation? upTo 0 rest).map fun i =>
        ⟨c :: i.breaks, i.taken + 1, i.column, max column i.widest⟩
    else if isBlank c && upTo.all (column < ·) then
      if c = '\t' then none
      else
        (indentation? upTo (column + 1) rest).map fun i =>
          ⟨i.breaks, i.taken + 1, i.column, i.widest⟩
    else some ⟨[], 0, column, column⟩

/-- A line of a block scalar and the line breaks behind it. -/
structure BlockLine where
  text : List Char
  breaks : List Char

def BlockLine.isIndented (l : BlockLine) : Bool := l.text.head?.any isBlank

/-- The lines in the given column, and how many characters they take up. -/
def blockLines (column : Nat) (cs : List Char) : Option (List BlockLine × Nat) :=
  if cs.isEmpty then some ([], 0)
  else
    let line := firstLine cs
    match h : cs.drop line.length with
    | [] => some ([⟨line, []⟩], line.length)
    | b :: rest =>
      have : rest.length < cs.length := by
        have hl := congrArg List.length h
        simp only [List.length_drop, List.length_cons] at hl
        omega
      match indentation? (some column) 0 rest with
      | none => none
      | some gap =>
        let taken := line.length + 1 + gap.taken
        if gap.column = column then
          (blockLines column (rest.drop gap.taken)).map fun more =>
            (⟨line, b :: gap.breaks⟩ :: more.1, taken + more.2)
        else some ([⟨line, b :: gap.breaks⟩], taken)
termination_by cs.length
decreasing_by simp only [List.length_drop]; omega

/-- The text of the lines without the line breaks at the end. A break between two lines is folded
unless one of them is indented. -/
def joinLines (literal : Bool) : List BlockLine → List Char
  | [] => []
  | [l] => l.text
  | l :: next :: rest =>
    l.text ++ (if literal || l.isIndented || next.isIndented then l.breaks else foldSpaces l.breaks)
      ++ joinLines literal (next :: rest)

/-- The text of a block scalar: the line breaks in front of it, its lines, and what is left of the
line breaks at the end. -/
def blockText (literal : Bool) (chomping : Chomping) (front : List Char) (lines : List BlockLine) :
    List Char :=
  match lines.getLast? with
  | none => if chomping = .keep then front else []
  | some last => front ++ joinLines literal lines ++ chomping.apply last.breaks

/-- A block scalar behind its mark. Its lines start at the margin or further in. -/
def scanBlock (literal : Bool) (margin : Nat) (cs : List Char) : Option Scalar := do
  let indicators := cs.takeWhile isIndicator
  let (chomping, step) ← indicators? indicators
  let more ← lineRest? (cs.drop indicators.length)
  let head := indicators.length + more + 1
  let body := cs.drop head
  let upTo := step.map (margin - 1 + ·)
  let first ← indentation? upTo 0 body
  let column := upTo.getD (max first.widest (max margin 1))
  if first.column = column then
    let lines ← blockLines column (body.drop first.taken)
    return ⟨blockText literal chomping first.breaks lines.1, head + first.taken + lines.2⟩
  else return ⟨blockText literal chomping first.breaks [], head + first.taken⟩

end Patchbay.Yaml
