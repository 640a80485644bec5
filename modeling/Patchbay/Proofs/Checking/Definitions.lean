import Patchbay.Proofs.Checking.Distinct
import Patchbay.Proofs.Checking.Visits

/-! The first definition of a name counts. What the tables of names hold at any visit of a check,
and at its end, is told by the definitions visited before. -/
namespace Patchbay
open Checking

/-- What the check of a line comes to. -/
def Line.visits (catalog : Catalog) (line : Line) : List (Scope × Visit) :=
  (line.statement.visits catalog).map (line.scope, ·)

/-- What the check of a program comes to, in order. -/
def Program.visits (catalog : Catalog) (program : Program) : List (Scope × Visit) :=
  program.lines.flatMap (Line.visits catalog)

namespace Checking
variable {catalog : Catalog} {scope : Scope}

end Checking

namespace Checking
variable {catalog : Catalog} {scope : Scope}

theorem Names.table_put_of_ne (names : Names) {own : Scope} (h : own ≠ scope) (name : String)
    (d : Declaration) : (names.put own name d).table scope = names.table scope := by
  cases own <;> cases scope <;> first | rfl | exact absurd rfl h

end Checking
end Patchbay
