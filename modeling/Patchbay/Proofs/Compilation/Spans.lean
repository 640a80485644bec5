import Patchbay.Proofs.Building.Spans
import Patchbay.Proofs.Checking.Spans
import Patchbay.Proofs.Program.Placement
import Patchbay.Proofs.Token.Coverage

/-! Places in a patch text. Reading gives each node a place in the text that covers its parts, and
whatever is reported later concerns such places. -/
namespace Patchbay.Compilation
variable {α : Type}

/-- Every text is read as nodes that lie in it, each covering its parts. -/
theorem placed_reading (source : String) :
    (Program.ofTokens (Token.scan source)).Placed source.length := by
  obtain ⟨htokens, hapart, -⟩ := Token.accounts_scan source
  refine Program.placed_ofTokens (fun t ht => Nat.le_of_lt (htokens t ht).1) hapart fun t ht => ?_
  rw [← String.length_toList]
  exact (htokens t ht).2.1

/-- The places of a text, over all of its nodes and of what the stages report, whatever classes there
are. Each lies in the text, each node covers its parts, and only at the end of the text is a fault of
reading without a place. -/
theorem places_within_text [Arithmetic α] (catalog : Catalog) (o : Building.Options)
    (source : String) :
    let read := Program.ofTokens (Token.scan source)
    let outcome : Building.Outcome α := Building.build catalog o read.program
    (∀ line ∈ read.program.lines, line.statement.Nested 0 source.length) ∧
      (∀ f ∈ read.faults, f.Within 0 source.length ∧
        (f.span = none → (Program.Fault.report f).message = "Unexpected end of input")) ∧
      (∀ f ∈ (Checking.check catalog read.program).faults, f.Within 0 source.length) ∧
      (∀ f ∈ outcome.faults, f.Within 0 source.length) ∧
      ∀ w ∈ outcome.warnings, w.Within 0 source.length := by
  have hread := placed_reading source
  generalize Program.ofTokens (Token.scan source) = read at hread ⊢
  have hchecked := Checking.placed_check catalog hread.lines
  have hbuilt := Building.placed_build (α := α) catalog o hread.lines
  refine ⟨hread.lines, fun f hf => ?_, hchecked.faults, hbuilt.faults, hbuilt.warnings⟩
  obtain ⟨hwithin, hend⟩ := hread.faults f hf
  exact ⟨hwithin, fun hnone => congrArg Program.Fault.message (hend hnone)⟩

end Patchbay.Compilation
