import Patchbay.Table
import Patchbay.Text.Hex
import Patchbay.Yaml.Character

/-! What may stand in front of a node or of a document: anchors, tags and directives. -/
namespace Patchbay.Yaml
open Text

def isNameChar (c : Char) : Bool := c.isAlphanum || c = '-' || c = '_'

def anchorName? (cs : List Char) : Option (List Char) :=
  let name := cs.takeWhile isNameChar
  let next := cs.drop name.length
  if !name.isEmpty && (endsWord next || next.head?.any ("?:,]\x7d%@`".contains ·)) then some name
  else none

def octet? : List Char → Option Nat
  | '%' :: c :: d :: _ => hexNumber? [c, d]
  | _ => none

def octetWidth? (first : Nat) : Option Nat :=
  if first < 0x80 then some 1
  else if 0xC0 ≤ first && first < 0xE0 then some 2
  else if 0xE0 ≤ first && first < 0xF0 then some 3
  else if 0xF0 ≤ first && first < 0xF8 then some 4
  else none

def octets? (cs : List Char) : Option (List Nat) := do
  let first ← octet? cs
  let width ← octetWidth? first
  let more ← (List.range (width - 1)).mapM fun i =>
    (octet? (cs.drop (3 * (i + 1)))).filter fun o => 0x80 ≤ o && o < 0xC0
  return first :: more

def isTagChar (list : Bool) (c : Char) : Bool :=
  isNameChar c || ";/?:@&=+$.!~*'()".contains c || (list && ",[]".contains c)

/-- The characters of a tag, and how many characters of the text they take up. Octets count as
characters of their own. -/
def tagText? (list : Bool) (cs : List Char) : Option (List Char × Nat) :=
  match cs with
  | [] => some ([], 0)
  | c :: rest =>
    if c = '%' then
      match octets? (c :: rest) with
      | none => none
      | some octets =>
        (tagText? list (rest.drop (3 * octets.length - 1))).map fun more =>
          (octets.map Char.ofNat ++ more.1, 3 * octets.length + more.2)
    else if isTagChar list c then
      (tagText? list rest).map fun more => (c :: more.1, more.2 + 1)
    else some ([], 0)
termination_by cs.length
decreasing_by
  all_goals simp only [List.length_drop, List.length_cons]; omega

def tagPart? (list : Bool) (cs : List Char) : Option (List Char × Nat) :=
  (tagText? list cs).filter fun part => part.2 ≠ 0

def handleMeaning? (handles : Table String) (handle : String) : Option String :=
  (handles.get? handle).or
    (if handle = "!" then some "!" else if handle = "!!" then some "tag:yaml.org,2002:" else none)

/-- A tag behind its mark, written out in full, and how many characters it takes up: in angle
brackets, behind a handle, or by itself. -/
def tagName? (handles : Table String) (cs : List Char) : Option (String × Nat) :=
  match cs with
  | '<' :: rest => do
    let part ← tagPart? true rest
    if (rest.drop part.2).head? = some '>' then return (String.ofList part.1, part.2 + 2) else none
  | cs => do
    let name := cs.takeWhile isNameChar
    if (cs.drop name.length).head? = some '!' then
      let handle ← handleMeaning? handles (String.ofList ('!' :: name ++ ['!']))
      let part ← tagPart? false (cs.drop (name.length + 1))
      return (handle ++ String.ofList part.1, name.length + 1 + part.2)
    else
      let part ← tagText? false cs
      if part.2 = 0 then return ("!", 0)
      else return ((← handleMeaning? handles "!") ++ String.ofList part.1, part.2)

def scanTag (handles : Table String) (inside : Bool) (cs : List Char) : Option (String × Nat) :=
  (tagName? handles cs).filter fun tag =>
    let next := cs.drop tag.2
    endsWord next || (inside && next.head? = some ',')

inductive Directive where
  | version
  | handle (name meaning : String)
  deriving Repr

def versionNumber? (cs : List Char) : Option (Nat × Nat) :=
  let digits := cs.takeWhile Char.isDigit
  if digits.isEmpty || 9 < digits.length then none
  else some (digits.foldl (fun n c => 10 * n + (c.toNat - '0'.toNat)) 0, digits.length)

/-- A version that is known, and how many characters it takes up. -/
def version? (cs : List Char) : Option (Directive × Nat) := do
  let major ← versionNumber? cs
  let rest := cs.drop major.2
  let minor ← versionNumber? (rest.drop 1)
  if rest.head? = some '.' && major.1 = 1 && (minor.1 = 1 || minor.1 = 2) then
    return (.version, major.2 + 1 + minor.2)
  else none

/-- A handle and what it stands for, and how many characters they take up. -/
def handle? (cs : List Char) : Option (Directive × Nat) :=
  match cs with
  | '!' :: rest => do
    let name := rest.takeWhile isNameChar
    let closing := (rest.drop name.length).takeWhile (· = '!') |>.take 1
    let handle := '!' :: name ++ closing
    let gap := (cs.drop handle.length).takeWhile isBlank
    let meaning ← tagPart? true (cs.drop (handle.length + gap.length))
    let taken := handle.length + gap.length + meaning.2
    if (name.isEmpty || !closing.isEmpty) && !gap.isEmpty && endsWord (cs.drop taken) then
      return (.handle (String.ofList handle) (String.ofList meaning.1), taken)
    else none
  | _ => none

/-- A directive behind its mark, and how many characters it takes up with the end of its line. -/
def scanDirective (cs : List Char) : Option (Directive × Nat) := do
  let name := cs.takeWhile isNameChar
  let gap := (cs.drop name.length).takeWhile isBlank
  let head := name.length + gap.length
  let value := cs.drop head
  let (directive, taken) ←
    if gap.isEmpty then none
    else if name = "YAML".toList then version? value
    else if name = "TAG".toList then handle? value
    else none
  let more ← lineRest? (value.drop taken)
  return (directive, head + taken + more + 1)

end Patchbay.Yaml
