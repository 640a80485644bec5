import Patchbay.Decimal.Shortest

/-! Written forms of numbers: the shortest digits in a given layout, and a fixed number of
places. -/
namespace Patchbay.Decimal

/-- The decisions of a written form beyond its digits. -/
structure Layout where
  /-- The powers of ten of the leading digit that are written without an exponent. -/
  positional : Int → Bool
  pointZero : Bool
  tie : Tie

def digitsOf (n : Nat) : List Char := Nat.toDigits 10 n

/-- The written parts of a magnitude. Fraction and power may be empty. -/
structure Written where
  whole : List Char
  fraction : List Char
  power : List Char
  deriving Repr, DecidableEq

def Written.text (w : Written) : List Char := w.whole ++ w.fraction ++ w.power

/-- The number written with as many digits before and after the point as it has. -/
def writePositional (pointZero : Bool) (d : Decimal) : Written :=
  let ds := digitsOf d.digits
  let places := (-d.exponent).toNat
  if 0 ≤ d.exponent then
    ⟨ds ++ List.replicate d.exponent.toNat '0', if pointZero then ['.', '0'] else [], []⟩
  else if places < ds.length then
    ⟨ds.take (ds.length - places), '.' :: ds.drop (ds.length - places), []⟩
  else ⟨['0'], '.' :: List.replicate (places - ds.length) '0' ++ ds, []⟩

/-- The number written as one digit, a fraction if it has more, and a signed power of ten. -/
def writeScientific (d : Decimal) (power : Int) : Written :=
  let ds := digitsOf d.digits
  ⟨ds.take 1, if ds.length ≤ 1 then [] else '.' :: ds.drop 1,
    'e' :: (if power < 0 then '-' else '+') :: digitsOf power.natAbs⟩

/-- Whether the sign of a number is set, also that of zero. -/
def isNegative (x : Float) : Bool := x.toBits >>> 63 = 1

def Layout.write (l : Layout) (x : Float) : Written :=
  if x == 0.0 then writePositional l.pointZero ⟨0, 0⟩
  else
    let d := shortest l.tie (Binary.ofFloat x)
    let power := d.exponent + (digitsOf d.digits).length - 1
    if l.positional power then writePositional l.pointZero d else writeScientific d power

def finiteText (l : Layout) (x : Float) : List Char :=
  if isNegative x then '-' :: (l.write x).text else (l.write x).text

/-- How literals are shown in messages: never with an exponent, whole numbers without a point. -/
def literal : Layout := ⟨fun _ => true, false, .up⟩

def literalText (x : Float) : String :=
  if x.isNaN then "NaN"
  else if x.isInf then (if x < 0.0 then "-inf" else "inf")
  else String.ofList (finiteText literal x)

def roundDiv (num den : Nat) (tie : Tie) : Nat :=
  let q := num / den
  match compare (2 * (num % den)) den, tie with
  | .lt, _ => q
  | .gt, _ => q + 1
  | .eq, .up => q + 1
  | .eq, .toEven => if q % 2 = 0 then q else q + 1

/-- The magnitude of a finite number in steps of `10 ^ i`, rounded to even at a tie. -/
def steps (x : Float) (i : Int) : Nat :=
  let b := Binary.ofFloat x
  roundDiv (b.mantissa * powerOf 2 b.exponent * powerOf 10 (-i))
    (powerOf 10 i * powerOf 2 (-b.exponent)) .toEven

/-- A number with a fixed count of places after the point, its exact value rounded to even at a
tie. The sign of zero is kept. -/
def fixedText (places : Nat) (x : Float) : String :=
  if x.isNaN then "NaN"
  else if x.isInf then (if x < 0.0 then "-inf" else "inf")
  else
    let digits := digitsOf (steps x (-places))
    let padded := List.replicate (places + 1 - digits.length) '0' ++ digits
    let whole := padded.take (padded.length - places)
    let text := if places = 0 then whole else whole ++ '.' :: padded.drop (padded.length - places)
    String.ofList (if isNegative x then '-' :: text else text)

end Patchbay.Decimal
