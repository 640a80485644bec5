import Patchbay.Decimal.Basic

/-! The fewest digits that read back to a binary64 value, selected by exact integer
arithmetic on its bits. -/
namespace Patchbay.Decimal

/-- A positive binary64 value `mantissa * 2 ^ exponent`. -/
structure Binary where
  mantissa : Nat
  exponent : Int
  /-- The gap to the value below is half the gap to the value above. -/
  narrowBelow : Bool

/-- The magnitude of a finite value. It ignores the sign, and NaN and the infinities are no such
value. -/
def Binary.ofFloat (x : Float) : Binary :=
  let bits := x.toBits
  let field := ((bits >>> 52) &&& 0x7FF).toNat
  let fraction := (bits &&& 0xFFFFFFFFFFFFF).toNat
  if field = 0 then ⟨fraction, -1074, false⟩
  else ⟨(1 <<< 52) + fraction, (field : Int) - 1075, fraction = 0 && 1 < field⟩

/-- Where an exact tie between two neighbours goes. -/
inductive Tie where
  | toEven
  | up

/-- A natural number to a power; one if the exponent is negative. -/
def powerOf (base : Nat) (exponent : Int) : Nat := Nat.pow base exponent.toNat

/-- Compare `a * 10 ^ i` with `n * 2 ^ j`. -/
def compareScaled (a : Nat) (i : Int) (n : Nat) (j : Int) : Ordering :=
  compare (a * powerOf 10 i * powerOf 2 (-j)) (n * powerOf 2 j * powerOf 10 (-i))

/-- Whether a decimal lies among the reals that round to `x`: up to halfway to either neighbour,
the ends included when the mantissa is even. -/
def Binary.readsBack (x : Binary) (d : Decimal) : Bool :=
  let low := if x.narrowBelow then 4 * x.mantissa - 1 else 4 * x.mantissa - 2
  let high := 4 * x.mantissa + 2
  let closed := x.mantissa % 2 = 0
  let fromLow := compareScaled d.digits d.exponent low (x.exponent - 2)
  let fromHigh := compareScaled d.digits d.exponent high (x.exponent - 2)
  (fromLow = .gt || (closed && fromLow = .eq)) && (fromHigh = .lt || (closed && fromHigh = .eq))

/-- The least power of ten above the value. The binary logarithm leaves three candidates. -/
def Binary.scale (x : Binary) : Int :=
  let guess := ((x.mantissa.log2 + x.exponent) * 30103).fdiv 100000
  if compareScaled 1 guess x.mantissa x.exponent = .gt then guess
  else if compareScaled 1 (guess + 1) x.mantissa x.exponent = .gt then guess + 1
  else guess + 2

def Binary.quotient (x : Binary) (i : Int) : Nat :=
  x.mantissa * powerOf 2 x.exponent * powerOf 10 (-i) / (powerOf 10 i * powerOf 2 (-x.exponent))

/-- A neighbour of the value on the grid of step `10 ^ i` that reads back; of two the nearer. -/
def Binary.onGrid (tie : Tie) (x : Binary) (i : Int) : Option Decimal :=
  let lower : Decimal := ⟨x.quotient i, i⟩
  let upper : Decimal := ⟨x.quotient i + 1, i⟩
  match x.readsBack lower, x.readsBack upper with
  | false, false => none
  | true, false => some lower
  | false, true => some upper
  | true, true =>
    match compareScaled (2 * lower.digits + 1) i (2 * x.mantissa) x.exponent, tie with
    | .gt, _ => some lower
    | .lt, _ => some upper
    | .eq, .up => some upper
    | .eq, .toEven => some (if lower.digits % 2 = 0 then lower else upper)

def Binary.exact (x : Binary) : Decimal :=
  ⟨x.mantissa * powerOf 2 x.exponent * powerOf 5 (-x.exponent), min x.exponent 0⟩

def stripZeros (d : Decimal) : Decimal :=
  if h : d.digits ≠ 0 ∧ d.digits % 10 = 0 then stripZeros ⟨d.digits / 10, d.exponent + 1⟩ else d
termination_by d.digits
decreasing_by exact Nat.div_lt_self (by omega) (by omega)

/-- The decimal of fewest digits that reads back to `x`, nearest to it among those. Seventeen
digits always suffice; the exact value stands behind them. -/
def shortest (tie : Tie) (x : Binary) : Decimal :=
  let top := x.scale
  stripZeros (((List.range 17).findSome? fun n => x.onGrid tie (top - (n + 1 : Nat))).getD x.exact)

end Patchbay.Decimal
