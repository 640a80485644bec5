import Patchbay.Building.Export
import Patchbay.Checking.Run
import Patchbay.Program.Reader
import Patchbay.Token.Scan

/-! From a patch text to a graph, with everything there is to say on the way. -/
namespace Patchbay

structure Compilation (α : Type) where
  tokens : List Token
  textFaults : List (Located Program.Fault)
  meaningFaults : List (Located Checking.Fault)
  outcome : Building.Outcome α

namespace Compilation
variable {α : Type}

def graph? (c : Compilation α) : Option (Graph α) := c.outcome.graph

def diagnostics (c : Compilation α) : List Diagnostic :=
  c.textFaults.map Program.Fault.report ++ c.meaningFaults.map Checking.Fault.report ++
    c.outcome.faults.map Building.Fault.report ++ c.outcome.warnings.map Building.Warning.report

def hasFaults (c : Compilation α) : Bool :=
  !(c.textFaults.isEmpty && c.meaningFaults.isEmpty && c.outcome.faults.isEmpty)

/-- Compile a patch text. It is read and checked in any case, and built only without faults. -/
def ofText [Arithmetic α] (catalog : Catalog) (o : Building.Options) (source : String) :
    Compilation α :=
  let tokens := Token.scan source
  let read := Program.ofTokens tokens
  let checked := Checking.check catalog read.program
  let outcome :=
    if read.faults.isEmpty && checked.faults.isEmpty then Building.build catalog o read.program
    else ⟨none, [], []⟩
  ⟨tokens, read.faults, checked.faults, outcome⟩

theorem stages_of_graph? [Arithmetic α] {catalog : Catalog} {o : Building.Options}
    {source : String} {g : Graph α} (h : (ofText catalog o source).graph? = some g) :
    let read := Program.ofTokens (Token.scan source)
    read.faults = [] ∧ (Checking.check catalog read.program).faults = [] ∧
      (Building.build catalog o read.program).graph = some g := by
  rw [graph?, ofText] at h
  dsimp only at h ⊢
  split at h
  · next hfaults =>
    rw [Bool.and_eq_true, List.isEmpty_iff, List.isEmpty_iff] at hfaults
    exact ⟨hfaults.1, hfaults.2, h⟩
  · cases h

end Patchbay.Compilation
