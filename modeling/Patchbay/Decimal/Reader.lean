import Patchbay.Decimal.Basic

/-! Numbers written by hand: digits with a point and a power of ten, signed, infinite or no number
at all. Nothing may stand around them. -/
namespace Patchbay.Decimal

/-- Whether a text is a power of ten: a letter, an optional sign and at least one digit. -/
def isPower : List Char → Bool
  | e :: rest =>
    let digits := if rest.head?.any (fun c => c = '+' || c = '-') then rest.drop 1 else rest
    (e = 'e' || e = 'E') && !digits.isEmpty && digits.all isDigit
  | [] => false

/-- An unsigned number. A digit stands on at least one side of the point. -/
def magnitude? (cs : List Char) : Option Decimal :=
  let whole := cs.takeWhile isDigit
  let rest := cs.drop whole.length
  let afterPoint := if rest.head? = some '.' then rest.drop 1 else []
  let fraction := afterPoint.takeWhile isDigit
  let power := if rest.head? = some '.' then afterPoint.drop fraction.length else rest
  if whole.isEmpty && fraction.isEmpty then none
  else if power.isEmpty || isPower power then some (ofParts whole fraction (powerValue power))
  else none

/-- The value of an unsigned text. Its words are read in any case. -/
def unsigned? (cs : List Char) : Option Float :=
  let word := String.ofList (cs.map Char.toLower)
  if word = "inf" || word = "infinity" then some (1.0 / 0.0)
  else if word = "nan" then some (0.0 / 0.0)
  else (magnitude? cs).map toFloat

def value? : List Char → Option Float
  | '-' :: rest => (unsigned? rest).map (- ·)
  | '+' :: rest => unsigned? rest
  | rest => unsigned? rest

def integer? : List Char → Option Int
  | '-' :: rest => if !rest.isEmpty && rest.all isDigit then some (-(valueOf rest)) else none
  | '+' :: rest => if !rest.isEmpty && rest.all isDigit then some (valueOf rest) else none
  | rest => if !rest.isEmpty && rest.all isDigit then some (valueOf rest) else none

end Patchbay.Decimal
