/-! Decimal numbers as whole digits scaled by a power of ten, and their binary64 value. -/
namespace Patchbay

structure Decimal where
  digits : Nat
  exponent : Int
  deriving Repr, DecidableEq

namespace Decimal

def isDigit (c : Char) : Bool := '0' ≤ c && c ≤ '9'

/-- The value of a run of digits, most significant first. Other characters are passed over. -/
def valueOf (cs : List Char) : Nat :=
  cs.foldl (fun n c => if isDigit c then 10 * n + (c.toNat - '0'.toNat) else n) 0

def digitCount (cs : List Char) : Nat := (cs.filter isDigit).length

/-- The number written with the digits `whole`, a point, the digits `fraction` and a power of
ten. -/
def ofParts (whole fraction : List Char) (power : Int) : Decimal :=
  ⟨valueOf (whole ++ fraction), power - digitCount fraction⟩

/-- The power of ten that a written power stands for: a letter, an optional sign and digits. -/
def powerValue : List Char → Int
  | _ :: '-' :: digits => -(valueOf digits)
  | digits => valueOf digits

/-- The nearest binary64 value, ties to even. The two outer cases only avoid huge powers of ten:
such numbers lie far beyond the largest and below half the least positive value. -/
def toFloat (d : Decimal) : Float :=
  if d.digits = 0 then 0.0
  else if 400 < d.exponent then 1.0 / 0.0
  else if d.exponent + d.digits.log2 / 3 < -360 then 0.0
  else Float.ofScientific d.digits (d.exponent < 0) d.exponent.natAbs

end Patchbay.Decimal
