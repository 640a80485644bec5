import Patchbay.Json.Basic
import Patchbay.Text.Hex

/-! Reading JSON text. A document is one value with blanks around it; anything else is refused. -/
namespace Patchbay.Json
open Decimal Text

/-- Something read off the front of a text, and the rest. -/
structure Reading (α : Type) (cs : List Char) where
  value : α
  rest : List Char
  shorter : rest.length < cs.length

def isGap (c : Char) : Bool := c = ' ' || c = '\n' || c = '\t' || c = '\r'

def skipGap (cs : List Char) : List Char := cs.dropWhile isGap

theorem length_skipGap_le (cs : List Char) : (skipGap cs).length ≤ cs.length :=
  (List.dropWhile_suffix _).length_le

def shortEscape? : Char → Option Char
  | '"' => some '"'
  | '\\' => some '\\'
  | '/' => some '/'
  | 'b' => some '\x08'
  | 'f' => some '\x0c'
  | 'n' => some '\n'
  | 'r' => some '\r'
  | 't' => some '\t'
  | _ => none

/-- A part of a string: a character, or the sixteen-bit unit of a numeric escape. -/
inductive Piece where
  | char (c : Char)
  | unit (value : Nat)

/-- The parts of a string up to its closing quote, behind those read so far, and the rest. Control
characters have to be escaped. -/
def readPieces (done : List Piece) : List Char → Option (List Piece × List Char)
  | [] => none
  | '"' :: rest => some (done.reverse, rest)
  | '\\' :: 'u' :: a :: b :: c :: d :: rest =>
    match hexNumber? [a, b, c, d] with
    | some value => readPieces (.unit value :: done) rest
    | none => none
  | '\\' :: e :: rest =>
    match shortEscape? e with
    | some c => readPieces (.char c :: done) rest
    | none => none
  | c :: rest => if c.toNat < 0x20 || c = '\\' then none else readPieces (.char c :: done) rest

theorem length_of_readPieces {done : List Piece} {cs : List Char} {r : List Piece × List Char}
    (h : readPieces done cs = some r) : r.2.length < cs.length := by
  fun_induction readPieces done cs with
  | case1 => simp at h
  | case2 => cases h; simp
  | case3 done a b c d rest value _ ih => have := ih h; simp only [List.length_cons]; omega
  | case4 => simp at h
  | case5 done e rest _ c _ ih => have := ih h; simp only [List.length_cons]; omega
  | case6 => simp at h
  | case7 => simp at h
  | case8 done c rest _ _ _ _ ih => have := ih h; simp only [List.length_cons]; omega

/-- The text of the parts behind the characters joined so far. A high and a low surrogate make one
character, and each alone makes none. -/
def joinPieces (done : List Char) : List Piece → Option String
  | [] => some (String.ofList done.reverse)
  | .char c :: rest => joinPieces (c :: done) rest
  | .unit high :: .unit low :: rest =>
    if 0xD800 ≤ high && high < 0xDC00 then
      if 0xDC00 ≤ low && low < 0xE000 then
        joinPieces (Char.ofNat (0x10000 + (high - 0xD800) * 0x400 + (low - 0xDC00)) :: done) rest
      else none
    else if 0xDC00 ≤ high && high < 0xE000 then none
    else joinPieces (Char.ofNat high :: done) (.unit low :: rest)
  | .unit value :: rest =>
    if 0xD800 ≤ value && value < 0xE000 then none
    else joinPieces (Char.ofNat value :: done) rest

def readString (cs : List Char) : Option (Reading (Option String) cs) :=
  match h : readPieces [] cs with
  | none => none
  | some r => some ⟨joinPieces [] r.1, r.2, length_of_readPieces h⟩

/-- The whole part of a number: no zero stands before another digit. -/
def wholePart? : List Char → Option (List Char)
  | '0' :: _ => some ['0']
  | c :: rest => if isDigit c then some (c :: rest.takeWhile isDigit) else none
  | [] => none

/-- The fraction of a number, with at least one digit behind the point. -/
def fractionPart? : List Char → Option (List Char)
  | '.' :: rest =>
    match rest.takeWhile isDigit with
    | [] => none
    | digits => some ('.' :: digits)
  | _ => some []

/-- The power of a number, with at least one digit behind the letter and the sign. -/
def powerPart? : List Char → Option (List Char)
  | [] => some []
  | e :: rest =>
    if e = 'e' || e = 'E' then
      let sign := (rest.take 1).filter fun c => c = '+' || c = '-'
      match (rest.drop sign.length).takeWhile isDigit with
      | [] => none
      | digits => some (e :: sign ++ digits)
    else some []

def number? (cs : List Char) : Option Number :=
  let negative := cs.head? = some '-'
  let afterSign := cs.drop (if negative then 1 else 0)
  match wholePart? afterSign with
  | none => none
  | some whole =>
    let afterWhole := afterSign.drop whole.length
    match fractionPart? afterWhole with
    | none => none
    | some fraction =>
      match powerPart? (afterWhole.drop fraction.length) with
      | none => none
      | some power => some ⟨negative, whole, fraction, power⟩

private theorem wholePart_ne_nil {cs whole : List Char} (h : wholePart? cs = some whole) :
    whole ≠ [] ∧ cs ≠ [] := by
  unfold wholePart? at h
  split at h
  · cases h; simp
  · split at h
    · cases h; simp
    · simp at h
  · simp at h

theorem text_length_of_number? {cs : List Char} {n : Number} (h : number? cs = some n) :
    0 < n.text.length ∧ 0 < cs.length := by
  simp only [number?] at h
  split at h
  · simp at h
  · next whole hw =>
    have hne := wholePart_ne_nil hw
    have hcs : 0 < cs.length := by
      cases cs with
      | nil => exact absurd (by simp) hne.2
      | cons => simp
    split at h
    · simp at h
    · split at h
      · simp at h
      · cases h
        have := List.length_pos_iff.mpr hne.1
        exact ⟨by simp only [Number.text, List.length_append]; omega, hcs⟩

mutual

/-- The value at the front of a text that starts with no gap. -/
def readValue (cs : List Char) : Option (Reading Json cs) :=
  match cs with
  | 'n' :: 'u' :: 'l' :: 'l' :: rest =>
    some ⟨null, rest, by simp only [List.length_cons]; omega⟩
  | 't' :: 'r' :: 'u' :: 'e' :: rest =>
    some ⟨bool true, rest, by simp only [List.length_cons]; omega⟩
  | 'f' :: 'a' :: 'l' :: 's' :: 'e' :: rest =>
    some ⟨bool false, rest, by simp only [List.length_cons]; omega⟩
  | '"' :: rest =>
    match readString rest with
    | none => none
    | some r =>
      some ⟨string r.value, r.rest, by have := r.shorter; simp only [List.length_cons]; omega⟩
  | '[' :: rest =>
    have := length_skipGap_le rest
    match h : skipGap rest with
    | ']' :: after =>
      some ⟨array [], after, by simp only [h, List.length_cons] at *; omega⟩
    | next =>
      match readItems [] next with
      | none => none
      | some r =>
        some ⟨array r.value, r.rest, by
          have := r.shorter
          simp only [h, List.length_cons] at *
          omega⟩
  | '\x7b' :: rest =>
    have := length_skipGap_le rest
    match h : skipGap rest with
    | '\x7d' :: after =>
      some ⟨object [], after, by simp only [h, List.length_cons] at *; omega⟩
    | next =>
      match readMembers [] next with
      | none => none
      | some r =>
        some ⟨object r.value, r.rest, by
          have := r.shorter
          simp only [h, List.length_cons] at *
          omega⟩
  | cs =>
    match h : number? cs with
    | none => none
    | some n =>
      some ⟨number n, cs.drop n.text.length, by
        have := text_length_of_number? h
        simp only [List.length_drop]; omega⟩
termination_by 2 * cs.length
decreasing_by
  all_goals simp only [h, List.length_cons] at *; omega

/-- The items of an array up to its closing bracket, behind those read so far. -/
def readItems (done : List Json) (cs : List Char) : Option (Reading (List Json) cs) :=
  match readValue cs with
  | none => none
  | some item =>
    have := item.shorter
    have := length_skipGap_le item.rest
    match h : skipGap item.rest with
    | ']' :: rest =>
      some ⟨(item.value :: done).reverse, rest, by simp only [h, List.length_cons] at *; omega⟩
    | ',' :: rest =>
      have := length_skipGap_le rest
      match readItems (item.value :: done) (skipGap rest) with
      | none => none
      | some r =>
        some ⟨r.value, r.rest, by have := r.shorter; simp only [h, List.length_cons] at *; omega⟩
    | _ => none
termination_by 2 * cs.length + 1
decreasing_by
  · omega
  · simp only [h, List.length_cons] at *; omega

/-- The members of an object up to its closing brace, behind those read so far. -/
def readMembers (done : List (Option String × Json)) (cs : List Char) :
    Option (Reading (List (Option String × Json)) cs) :=
  match cs with
  | '"' :: cs =>
    match readString cs with
    | none => none
    | some key =>
      have := key.shorter
      have := length_skipGap_le key.rest
      match hk : skipGap key.rest with
      | ':' :: rest =>
        have := length_skipGap_le rest
        match readValue (skipGap rest) with
        | none => none
        | some item =>
          have := item.shorter
          have := length_skipGap_le item.rest
          match hi : skipGap item.rest with
          | '\x7d' :: after =>
            some ⟨((key.value, item.value) :: done).reverse, after, by
              simp only [hk, hi, List.length_cons] at *; omega⟩
          | ',' :: after =>
            have := length_skipGap_le after
            match readMembers ((key.value, item.value) :: done) (skipGap after) with
            | none => none
            | some r =>
              some ⟨r.value, r.rest, by
                have := r.shorter; simp only [hk, hi, List.length_cons] at *; omega⟩
          | _ => none
      | _ => none
  | _ => none
termination_by 2 * cs.length + 1
decreasing_by
  · simp only [hk, List.length_cons] at *; omega
  · simp only [hk, hi, List.length_cons] at *; omega

end

def ofText? (text : String) : Option Json :=
  match readValue (skipGap text.toList) with
  | none => none
  | some r => if (skipGap r.rest).isEmpty then some r.value else none

end Patchbay.Json
