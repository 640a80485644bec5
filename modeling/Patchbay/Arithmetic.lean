/-! The arithmetic that signals need. Everything computed from signals is stated over it, so that
it can be run on binary64 numbers and read over exact ones. -/
namespace Patchbay

/-- Numbers that signals are made of. Comparisons are tests, as an unordered pair has neither
order. -/
class Arithmetic (α : Type) extends Add α, Sub α, Mul α, Div α, Neg α where
  lt : α → α → Bool
  le : α → α → Bool
  natural : Nat → α
  ofFloat : Float → α
  pi : α
  exp2 : α → α
  log2 : α → α
  log10 : α → α
  pow : α → α → α
  sin : α → α
  tanh : α → α
  wrap : α → α
  whole : α → Nat
  /-- The nearest whole number of a positive number, a half going up; zero for all others. -/
  nearest : α → Nat

namespace Arithmetic

def truncate (x : Float) : Float := if x < 0.0 then x.ceil else x.floor

instance : Arithmetic Float where
  lt a b := a < b
  le a b := a ≤ b
  natural := Float.ofNat
  ofFloat := id
  pi := 3.141592653589793
  exp2 := Float.exp2
  log2 := Float.log2
  log10 := Float.log10
  pow := Float.pow
  sin := Float.sin
  tanh := Float.tanh
  wrap x :=
    let rest := x - truncate x
    if rest < 0.0 then rest + 1.0 else rest
  whole x := x.toUInt64.toNat
  nearest x := x.round.toUInt64.toNat

variable {α : Type} [Arithmetic α]

def ratio (m n : Nat) : α := natural m / natural n

/-- The greater of a number and a bound; the bound if they have no order. -/
def atLeast (bound x : α) : α := if lt bound x then x else bound

/-- The lesser of a number and a bound; the bound if they have no order. -/
def atMost (bound x : α) : α := if lt x bound then x else bound

/-- The number moved into an interval. A number without order stays as it is. -/
def clamp (low high x : α) : α := if lt x low then low else if lt high x then high else x

end Patchbay.Arithmetic
