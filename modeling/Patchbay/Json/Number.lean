import Patchbay.Decimal.Text
import Patchbay.Json.Basic

/-! Binary64 numbers in JSON. -/
namespace Patchbay.Json
open Decimal

/-- Numbers have the fewest digits that read back and always a point or a power. They are
positional from `0.00001` up to below `10 ^ 16`. -/
def numberLayout : Layout := ⟨fun power => -5 ≤ power && power < 16, true, .toEven⟩

def Number.ofFloat (x : Float) : Number :=
  let w := numberLayout.write x
  ⟨isNegative x, w.whole, w.fraction, w.power⟩

def ofFloat (x : Float) : Json := if x.isNaN || x.isInf then null else number (.ofFloat x)

end Patchbay.Json
