import Patchbay.Text.Blank
import Patchbay.Token.Basic

/-! Splitting a patch text into tokens. No text is refused: characters at which no token starts
are passed over. Letters and digits are ASCII only. -/
namespace Patchbay.Token
open Text Decimal

def isLetter (c : Char) : Bool := ('a' ≤ c && c ≤ 'z') || ('A' ≤ c && c ≤ 'Z')

def isNameStart (c : Char) : Bool := isLetter c || c = '_'

def isNameChar (c : Char) : Bool := isLetter c || isDigit c || c = '_'

def isPlace (c : Char) : Bool := isDigit c || c = '_'

def isUnitChar (c : Char) : Bool := isLetter c || c = '%'

/-- A numeric literal by its written parts. Fraction, power and unit may be empty. -/
structure Literal where
  whole : List Char
  fraction : List Char
  power : List Char
  unit : List Char

def Literal.text (l : Literal) : List Char := l.whole ++ l.fraction ++ l.power ++ l.unit

def Literal.value (l : Literal) : Float :=
  (Decimal.ofParts l.whole l.fraction (powerValue l.power)).toFloat

/-- The fraction at the front of the text, which may be a point alone. -/
def scanFraction : List Char → List Char
  | '.' :: rest => '.' :: rest.takeWhile isPlace
  | _ => []

/-- The power of ten at the front of the text. Without a digit after its sign the letter `e` is
left to the unit. -/
def scanPower : List Char → List Char
  | [] => []
  | e :: rest =>
    let sign := (rest.take 1).filter fun c => c = '+' || c = '-'
    let digits := (rest.drop sign.length).takeWhile isPlace
    if (e = 'e' || e = 'E') && digits.head?.any isDigit then e :: sign ++ digits else []

/-- The literal at the front of a text that starts with a digit. -/
def scanLiteral (cs : List Char) : Literal :=
  let whole := cs.takeWhile isPlace
  let afterWhole := cs.drop whole.length
  let fraction := scanFraction afterWhole
  let afterFraction := afterWhole.drop fraction.length
  let power := scanPower afterFraction
  ⟨whole, fraction, power, (afterFraction.drop power.length).takeWhile isUnitChar⟩

/-- The operator at the front of the text; arrows win over the signs they are made of. -/
def operator? : List Char → Option Operator
  | '=' :: '>' :: _ => some .arrow
  | '<' :: '=' :: _ => some .backArrow
  | '+' :: _ => some .plus
  | '-' :: _ => some .minus
  | '*' :: _ => some .star
  | '=' :: _ => some .assign
  | _ => none

/-- A token and the characters it takes up. -/
structure Lexeme where
  kind : Kind
  text : List Char

def wordKind (word : String) : Kind :=
  match Keyword.ofWord? word with
  | some k => .keyword k
  | none => .name word

/-- The token at the front of a text, if one starts there. -/
def lexeme? : List Char → Option Lexeme
  | [] => none
  | c :: rest =>
    if isDigit c then
      let l := scanLiteral (c :: rest)
      some ⟨.number l.value (String.ofList l.unit), l.text⟩
    else
      match operator? (c :: rest) with
      | some o => some ⟨.operator o, o.text.toList⟩
      | none =>
        if isNameStart c then
          let word := (c :: rest).takeWhile isNameChar
          some ⟨wordKind (String.ofList word), word⟩
        else (Mark.ofChar? c).map fun m => ⟨.mark m, [c]⟩

private theorem operator_text_ne_nil (o : Operator) : o.text.toList ≠ [] := by
  cases o <;> decide

theorem text_ne_nil_of_lexeme? {cs : List Char} {l : Lexeme} (h : lexeme? cs = some l) :
    l.text ≠ [] := by
  cases cs with
  | nil => simp [lexeme?] at h
  | cons c rest =>
    simp only [lexeme?] at h
    split at h
    · next hd =>
      cases h
      simp [Literal.text, scanLiteral, isPlace, hd]
    · split at h
      · cases h; exact operator_text_ne_nil _
      · split at h
        · next hn =>
          cases h
          have : isNameChar c = true := by
            simp only [isNameStart, isNameChar, Bool.or_eq_true] at hn ⊢
            exact hn.elim (fun h => .inl (.inl h)) .inr
          simp [this]
        · obtain ⟨m, -, rfl⟩ := Option.map_eq_some_iff.mp h
          simp

/-- A comment runs from two slashes to the end of its line. -/
def startsComment : List Char → Bool
  | '/' :: '/' :: _ => true
  | _ => false

/-- The tokens of a text whose first character stands at offset `start`. -/
def scanFrom (start : Nat) (cs : List Char) : List Token :=
  match cs with
  | [] => []
  | c :: rest =>
    if isBlank c then scanFrom (start + 1) rest
    else if startsComment (c :: rest) then
      let comment := rest.takeWhile (· ≠ '\n')
      scanFrom (start + 1 + comment.length) (rest.drop comment.length)
    else
      match h : lexeme? (c :: rest) with
      | none => scanFrom (start + 1) rest
      | some l =>
        ⟨l.kind, start, start + l.text.length⟩ ::
          scanFrom (start + l.text.length) ((c :: rest).drop l.text.length)
termination_by cs.length
decreasing_by
  · simp
  · simp only [List.length_drop, List.length_cons]; omega
  · simp
  · have := List.length_pos_iff.mpr (text_ne_nil_of_lexeme? h)
    simp only [List.length_drop, List.length_cons]; omega

def scan (source : String) : List Token := scanFrom 0 source.toList

end Patchbay.Token
