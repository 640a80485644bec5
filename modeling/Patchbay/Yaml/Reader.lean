import Patchbay.Yaml.Token

/-! Reading YAML tokens as a document. -/
namespace Patchbay.Yaml

/-- Something read off the front of some tokens, and the tokens left. -/
structure Reading (β : Type) (ts : List Token) where
  value : β
  rest : List Token
  le : rest.length ≤ ts.length

namespace Reading

def missing (ts : List Token) : Reading Yaml ts := ⟨.missing, ts, Nat.le_refl _⟩

def behind {ts more : List Token} (h : ts.length ≤ more.length) (r : Reading β ts) :
    Reading β more :=
  ⟨r.value, r.rest, Nat.le_trans r.le h⟩

def map (f : β → γ) (r : Reading β ts) : Reading γ ts := ⟨f r.value, r.rest, r.le⟩

def behindToken (t : Token) (r : Reading β ts) : Reading β (t :: ts) :=
  r.behind (Nat.le_succ _)

theorem length_lt {r : Reading β ts} {t : Token} {rest : List Token} (h : r.rest = t :: rest) :
    rest.length < ts.length := by
  have := r.le
  simp only [h, List.length_cons] at this
  omega

end Reading

/-- The anchor and the tag in front of a node. -/
structure Label where
  anchor : Option Nat
  tag : Option String

def Label.isEmpty (l : Label) : Bool := l.anchor.isNone && l.tag.isNone

def readLabel : (ts : List Token) → Reading Label ts
  | .anchor a :: .tag t :: rest => ⟨⟨some a, some t⟩, rest, Nat.le_add_right _ 2⟩
  | .tag t :: .anchor a :: rest => ⟨⟨some a, some t⟩, rest, Nat.le_add_right _ 2⟩
  | .anchor a :: rest => ⟨⟨some a, none⟩, rest, Nat.le_succ _⟩
  | .tag t :: rest => ⟨⟨none, some t⟩, rest, Nat.le_succ _⟩
  | ts => ⟨⟨none, none⟩, ts, Nat.le_refl _⟩

/-- What is read where no node starts: behind a label there is an empty scalar. -/
def Reading.labelled? (r : Reading Label ts) : Option (Reading Yaml ts) :=
  if r.value.isEmpty then none else some (r.map fun l => .scalar l.anchor l.tag .plain "")

/-- Where a node stands, which decides what it may be. -/
inductive Site where
  | bracketed
  | item
  /-- The items of a sequence need not be further in than the key that it belongs to. -/
  | member
  deriving Repr, DecidableEq

/-- The tokens in front of which a part of a member is missing. -/
def endsMember (t : Token) : Bool := t = .key || t = .value || t = .blockEnd

def endsItem (t : Token) : Bool := t = .entry || t = .blockEnd

/-- The tokens in front of which an item is missing that is no further in than its key. -/
def endsLooseItem (t : Token) : Bool := t = .entry || endsMember t

/-- The tokens in front of which a part of something in brackets is missing. -/
def endsPart (close : Token) (t : Token) : Bool := t = .value || t = .comma || t = close

mutual

/-- A node. Behind an anchor or a tag it may be missing. -/
def readNode (site : Site) (ts : List Token) : Option (Reading Yaml ts) :=
  let label := readLabel ts
  let anchor := label.value.anchor
  match h : label.rest with
  | [] => label.labelled?
  | t :: rest =>
    have hl := Reading.length_lt h
    match t with
    | .reference a =>
      if label.value.isEmpty then some ⟨.reference a, rest, Nat.le_of_lt hl⟩ else label.labelled?
    | .scalar style text =>
      some ⟨.scalar anchor label.value.tag style text, rest, Nat.le_of_lt hl⟩
    | .openBracket =>
      (readFlowItems [] rest).map fun r => (r.map (.sequence anchor)).behind (Nat.le_of_lt hl)
    | .openBrace =>
      (readFlowMembers [] rest).map fun r => (r.map (.mapping anchor)).behind (Nat.le_of_lt hl)
    | .blockSequence =>
      if site = .bracketed then label.labelled?
      else (readItems [] rest).map fun r => (r.map (.sequence anchor)).behind (Nat.le_of_lt hl)
    | .blockMapping =>
      if site = .bracketed then label.labelled?
      else (readMembers [] rest).map fun r => (r.map (.mapping anchor)).behind (Nat.le_of_lt hl)
    | .entry =>
      if site = .member then
        (readLooseItems [] rest).map fun r => (r.map (.sequence anchor)).behind (Nat.le_of_lt hl)
      else label.labelled?
    | _ => label.labelled?
termination_by 4 * ts.length

def readOptional (site : Site) (ends : Token → Bool) (ts : List Token) :
    Option (Reading Yaml ts) :=
  if ts.head?.any ends then some (.missing ts) else readNode site ts
termination_by 4 * ts.length + 1

/-- The value behind a key. Without a mark it is missing. -/
def readValue (site : Site) (ends : Token → Bool) (ts : List Token) : Option (Reading Yaml ts) :=
  match ts with
  | .value :: rest => (readOptional site ends rest).map (.behindToken .value)
  | ts => some (.missing ts)
termination_by 4 * ts.length + 1

/-- The items of a sequence up to the end of its block, behind those read so far. -/
def readItems (done : List Yaml) (ts : List Token) : Option (Reading (List Yaml) ts) :=
  match ts with
  | .blockEnd :: rest => some ⟨done.reverse, rest, Nat.le_succ _⟩
  | .entry :: inner =>
    match readOptional .item endsItem inner with
    | none => none
    | some item =>
      have := item.le
      (readItems (item.value :: done) item.rest).map (.behind (Nat.le_succ_of_le item.le))
  | _ => none
termination_by 4 * ts.length

/-- The items of a sequence that are no further in than its key: one behind a dash, and further
ones while dashes follow. -/
def readLooseItems (done : List Yaml) (ts : List Token) : Option (Reading (List Yaml) ts) :=
  match readOptional .item endsLooseItem ts with
  | none => none
  | some item =>
    match h : item.rest with
    | .entry :: more =>
      have hl := Reading.length_lt h
      (readLooseItems (item.value :: done) more).map (.behind (Nat.le_of_lt hl))
    | _ => some (item.map fun y => (y :: done).reverse)
termination_by 4 * ts.length + 2

/-- The members of a mapping up to the end of its block, behind those read so far. -/
def readMembers (done : List (Yaml × Yaml)) (ts : List Token) :
    Option (Reading (List (Yaml × Yaml)) ts) :=
  match ts with
  | .blockEnd :: rest => some ⟨done.reverse, rest, Nat.le_succ _⟩
  | .key :: inner =>
    match readOptional .member endsMember inner with
    | none => none
    | some key =>
      have hk := key.le
      match readValue .member endsMember key.rest with
      | none => none
      | some value =>
        have hv := value.le
        (readMembers ((key.value, value.value) :: done) value.rest).map
          (.behind (Nat.le_succ_of_le (Nat.le_trans hv hk)))
  | _ => none
termination_by 4 * ts.length

/-- The items up to the closing bracket, behind those read so far. -/
def readFlowItems (done : List Yaml) (ts : List Token) : Option (Reading (List Yaml) ts) :=
  match ts with
  | .closeBracket :: rest => some ⟨done.reverse, rest, Nat.le_succ _⟩
  | ts =>
    match readFlowItem ts with
    | none => none
    | some item =>
      match h : item.rest with
      | .comma :: more =>
        have hl := Reading.length_lt h
        (readFlowItems (item.value :: done) more).map (.behind (Nat.le_of_lt hl))
      | .closeBracket :: more =>
        have hl := Reading.length_lt h
        some ⟨(item.value :: done).reverse, more, Nat.le_of_lt hl⟩
      | _ => none
termination_by 4 * ts.length + 3

/-- An item in brackets. A key and its value are a mapping of their own. Where the key is missing,
the token that shows this is left out. -/
def readFlowItem (ts : List Token) : Option (Reading Yaml ts) :=
  match ts with
  | .key :: inner =>
    match readFlowKey inner with
    | none => none
    | some key =>
      have hk := key.le
      match readValue .bracketed (endsPart .closeBracket) key.rest with
      | none => none
      | some value =>
        some ⟨.mapping none [(key.value, value.value)], value.rest,
          Nat.le_succ_of_le (Nat.le_trans value.le hk)⟩
  | ts => readNode .bracketed ts
termination_by 4 * ts.length + 2

def readFlowKey (ts : List Token) : Option (Reading Yaml ts) :=
  match ts with
  | t :: rest =>
    if endsPart .closeBracket t then some ((Reading.missing rest).behindToken t)
    else readNode .bracketed (t :: rest)
  | [] => none
termination_by 4 * ts.length + 1

/-- The members up to the closing brace, behind those read so far. Without a mark in front of it, a
key has no value. -/
def readFlowMembers (done : List (Yaml × Yaml)) (ts : List Token) :
    Option (Reading (List (Yaml × Yaml)) ts) :=
  match ts with
  | .closeBrace :: rest => some ⟨done.reverse, rest, Nat.le_succ _⟩
  | ts =>
    match readFlowMember ts with
    | none => none
    | some member =>
      match h : member.rest with
      | .comma :: more =>
        have hl := Reading.length_lt h
        (readFlowMembers (member.value :: done) more).map (.behind (Nat.le_of_lt hl))
      | .closeBrace :: more =>
        have hl := Reading.length_lt h
        some ⟨(member.value :: done).reverse, more, Nat.le_of_lt hl⟩
      | _ => none
termination_by 4 * ts.length + 3

def readFlowMember (ts : List Token) : Option (Reading (Yaml × Yaml) ts) :=
  match ts with
  | .key :: inner =>
    match readOptional .bracketed (endsPart .closeBrace) inner with
    | none => none
    | some key =>
      have hk := key.le
      match readValue .bracketed (endsPart .closeBrace) key.rest with
      | none => none
      | some value =>
        some ⟨(key.value, value.value), value.rest, Nat.le_succ_of_le (Nat.le_trans value.le hk)⟩
  | ts => (readNode .bracketed ts).map fun key => key.map fun y => (y, .missing)
termination_by 4 * ts.length + 2

end

def isBare (ts : List Token) : Bool :=
  ts.head?.all fun t => t = .directive || t = .documentStart || t = .documentEnd

def readDocument (ts : List Token) : Option Yaml :=
  match readNode .item ts with
  | none => none
  | some r => if r.rest.all (· = .documentEnd) then some r.value else none

/-- The document that some tokens stand for. There must be no second one. Directives need a marker
behind them, and behind a marker the document may be empty. -/
def ofTokens? (ts : List Token) : Option Yaml :=
  match ts.dropWhile (· = .directive) with
  | .documentStart :: rest =>
    if isBare rest then if rest.all (· = .documentEnd) then some .missing else none
    else readDocument rest
  | _ => if ts.isEmpty then some .missing else readDocument ts

def ofText? (text : String) : Option Yaml := do ofTokens? (← tokens? text)

end Patchbay.Yaml
