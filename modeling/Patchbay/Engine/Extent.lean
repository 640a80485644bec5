/-! Extents: stretches of numbered places, and laying them end to end. -/
namespace Patchbay

/-- The places from `start` up to but not including `stop`. -/
structure Extent where
  start : Nat
  stop : Nat
  deriving Repr, DecidableEq

namespace Extent

def size (e : Extent) : Nat := e.stop - e.start

def toList (e : Extent) : List Nat := List.range' e.start e.size

/-- Extents of the given sizes, each where the one before it ends. -/
def tile (start : Nat) : List Nat → List Extent
  | [] => []
  | size :: rest => ⟨start, start + size⟩ :: tile (start + size) rest

end Patchbay.Extent
