import Patchbay.Decimal.Basic

/-! JSON values as they are written: numbers keep their digits, members their order and repeats. -/
namespace Patchbay

structure Json.Number where
  negative : Bool
  whole : List Char
  fraction : List Char
  power : List Char
  deriving Repr, DecidableEq

/-- A JSON value. A string or key is `none` when it escapes half of a surrogate pair, so that it is
no Unicode text. -/
inductive Json where
  | null
  | bool (value : Bool)
  | number (value : Json.Number)
  | string (text : Option String)
  | array (items : List Json)
  | object (members : List (Option String × Json))
  deriving Repr, Inhabited

namespace Json

def Number.text (n : Number) : List Char :=
  (if n.negative then ['-'] else []) ++ n.whole ++ n.fraction ++ n.power

def Number.decimal (n : Number) : Decimal :=
  Decimal.ofParts n.whole n.fraction (Decimal.powerValue n.power)

/-- The nearest binary64 value; a number beyond the finite ones has none. -/
def Number.float? (n : Number) : Option Float :=
  let magnitude := n.decimal.toFloat
  if magnitude.isInf then none else some (if n.negative then -magnitude else magnitude)

/-- The number as a 64-bit natural number. It is one only when written without sign, point and
power. -/
def Number.natural? (n : Number) : Option Nat :=
  if n.negative || !n.fraction.isEmpty || !n.power.isEmpty then none
  else
    let value := Decimal.valueOf n.whole
    if value < UInt64.size then some value else none

def Number.ofNat (n : Nat) : Number := ⟨false, Nat.toDigits 10 n, [], []⟩

def ofNat (n : Nat) : Json := number (.ofNat n)

def ofString (s : String) : Json := string (some s)

def member? (name : String) : Json → Option Json
  | object members => members.lookup (some name)
  | _ => none

end Patchbay.Json
