import Patchbay.Text.Hex
import Patchbay.Yaml.Character

/-! Scalars in the text of a line: plain ones and those in quotes. They may go on over several
lines, which are folded. -/
namespace Patchbay.Yaml
open Text

/-- A scalar's text, and how many characters of the document it takes up. -/
structure Scalar where
  text : List Char
  taken : Nat

/-- What a run of spaces inside a scalar stands for. One line feed alone is a space; of several the
first is left out. Blanks beside a line break are left out. -/
def foldSpaces (gap : List Char) : List Char :=
  match gap.filter isBreak with
  | [] => gap
  | ['\n'] => [' ']
  | '\n' :: more => more
  | breaks => breaks

/-- The front of a plain scalar up to the next space or to its end. Inside brackets a colon must
not stand in front of another mark. -/
def plainWord (inside : Bool) : List Char → Option (List Char)
  | [] => some []
  | c :: rest =>
    if isSpace c || (c = ':' && endsWord rest) then some []
    else if inside && c = ':' && rest.head?.any (",?[]\x7b\x7d".contains ·) then none
    else if inside && ",[]\x7b\x7d".contains c then some []
    else (plainWord inside rest).map (c :: ·)

/-- Whether a tab stands in front of the margin on one of the lines. -/
def tabBefore (margin : Nat) (column : Nat) : List Char → Bool
  | [] => false
  | c :: rest =>
    if isBreak c then tabBefore margin 0 rest
    else (c = '\t' && column < margin) || tabBefore margin (column + 1) rest

/-- A plain scalar, and whether it ends on a later line than its last word. -/
structure PlainScalar extends Scalar where
  broken : Bool

theorem length_drop_takeWhile_lt {cs : List Char} {p : Char → Bool} (k : Nat)
    (h : (cs.drop k).takeWhile p ≠ []) :
    ((cs.drop k).drop ((cs.drop k).takeWhile p).length).length < cs.length := by
  have hl := (List.takeWhile_sublist (l := cs.drop k) p).length_le
  have hp := List.length_pos_iff.mpr h
  simp only [List.length_drop] at *
  omega

/-- A plain scalar that starts in the given column. On later lines it must not come before the
margin, inside brackets its tabs must not. -/
def scanPlain (inside : Bool) (margin column : Nat) (cs : List Char) : Option PlainScalar :=
  if (column = 0 && isMarker cs) || cs.head? = some '#' then some ⟨⟨[], 0⟩, false⟩
  else
    match plainWord inside cs with
    | none => none
    | some word =>
      if h : (cs.drop word.length).takeWhile isSpace = [] then some ⟨⟨word, word.length⟩, false⟩
      else
        let gap := (cs.drop word.length).takeWhile isSpace
        let column := (Place.after ⟨0, 0, column + word.length⟩ gap).column
        let taken := word.length + gap.length
        if tabBefore margin 0 (gap.dropWhile (!isBreak ·)) then none
        else if !inside && column < margin then some ⟨⟨word, taken⟩, gap.any isBreak⟩
        else
          (scanPlain inside margin column ((cs.drop word.length).drop gap.length)).map fun more =>
            if more.taken = 0 then ⟨⟨word, taken⟩, gap.any isBreak⟩
            else ⟨⟨word ++ foldSpaces gap ++ more.text, taken + more.taken⟩, more.broken⟩
termination_by cs.length
decreasing_by exact length_drop_takeWhile_lt word.length h

def escape? : Char → Option Char
  | '0' => some '\x00'
  | 'a' => some '\x07'
  | 'b' => some '\x08'
  | 't' | '\t' => some '\t'
  | 'n' => some '\n'
  | 'v' => some '\x0b'
  | 'f' => some '\x0c'
  | 'r' => some '\r'
  | 'e' => some '\x1b'
  | ' ' => some ' '
  | '"' => some '"'
  | '/' => some '/'
  | '\\' => some '\\'
  | 'N' => some '\u0085'
  | '_' => some '\u00a0'
  | 'L' => some '\u2028'
  | 'P' => some '\u2029'
  | _ => none

def escapeDigits? : Char → Option Nat
  | 'x' => some 2
  | 'u' => some 4
  | 'U' => some 8
  | _ => none

/-- The character that a letter behind a backslash stands for with the text behind it, and how many
digits of that it needs. -/
def escaped? (letter : Char) (rest : List Char) : Option (Char × Nat) :=
  match escapeDigits? letter with
  | some digits =>
    if rest.length < digits then none
    else ((hexNumber? (rest.take digits)).bind ofCodePoint?).map (·, digits)
  | none => (escape? letter).map (·, 0)

/-- Whether a document marker follows a run of spaces that ends a line. -/
def markerBehind (gap rest : List Char) : Bool := gap.getLast?.any isBreak && isMarker rest

/-- A scalar up to its closing quote, behind what is read of it so far. A single quote in single
quotes is written twice; a line break behind a backslash is left out. -/
def scanQuoted (quote : Char) (done : List Char) (taken : Nat) (cs : List Char) : Option Scalar :=
  match cs with
  | [] => none
  | c :: rest =>
    if isSpace c then
      let more := rest.takeWhile isSpace
      if markerBehind (c :: more) (rest.drop more.length) then none
      else
        scanQuoted quote ((foldSpaces (c :: more)).reverse ++ done) (taken + more.length + 1)
          (rest.drop more.length)
    else if c = quote && quote = '\'' && rest.head? = some '\'' then
      scanQuoted quote ('\'' :: done) (taken + 2) (rest.drop 1)
    else if c = quote then some ⟨done.reverse, taken + 1⟩
    else if c = '\\' && quote = '"' then
      match rest with
      | [] => none
      | letter :: rest =>
        if isBreak letter then
          let gap := rest.takeWhile isSpace
          if markerBehind (letter :: gap) (rest.drop gap.length) then none
          else
            scanQuoted quote ((gap.filter isBreak).reverse ++ done) (taken + gap.length + 2)
              (rest.drop gap.length)
        else
          match escaped? letter rest with
          | some (e, digits) =>
            scanQuoted quote (e :: done) (taken + digits + 2) (rest.drop digits)
          | none => none
    else scanQuoted quote (c :: done) (taken + 1) rest
termination_by cs.length
decreasing_by
  all_goals simp only [List.length_drop, List.length_cons]; omega

end Patchbay.Yaml
