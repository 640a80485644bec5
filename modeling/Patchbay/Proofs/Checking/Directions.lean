import Mathlib.Data.List.Permutation
import Patchbay.Library.Standard
import Patchbay.Proofs.Checking.Typing
import Patchbay.Proofs.Program.Directions

/-! Directions are checked twice: by form while a text is read, and by type in the check. Whatever
is refused by form is refused by type as well. -/
namespace Patchbay.Checking
variable {catalog : Catalog} {scope : Scope} {names names' : Names}

/-- What has a type has a form that fits: signals are read from forms that give some, and sent to
forms that take some. -/
def Judgment.Directed : Judgment → Prop
  | .expr e type => e.Directed ∧ (type.direction.output = true → e.isReadable = true) ∧
      (type.direction.input = true → e.isWritable = true)
  | .args _ _ values =>
    (∀ arg ∈ values, arg.value.Directed) ∧ ∀ arg ∈ values, arg.value.isReadable = true

theorem Typed.directed {judgment : Judgment} (h : Typed catalog scope names judgment names') :
    judgment.Directed := by
  induction h with
  | number => exact ⟨.number _ _ _, fun _ => rfl, fun h => h⟩
  | unary _ hout ih => exact ⟨.unary _ _ ih.1 (ih.2.1 hout), fun _ => rfl, fun h => h⟩
  | binary _ _ _ _ ihl ihr => exact ⟨.binary _ _ ihl.1 ihr.1, fun _ => rfl, fun h => h⟩
  | mapping _ hs _ _ _ _ ihs ihl ihh =>
    exact ⟨.mapping _ _ ihs.1 (ihs.2.1 hs) ihl.1 ihh.1, fun _ => rfl, fun h => h⟩
  | construction _ _ ih => exact ⟨.construction _ _ _ ih.1 ih.2, fun _ => rfl, fun _ => rfl⟩
  | socket => exact ⟨.socket _ _ _, fun h => h, fun _ => rfl⟩
  | output => exact ⟨.output _ _ _, fun _ => rfl, fun h => h⟩
  | name => exact ⟨.name _, fun _ => rfl, fun _ => rfl⟩
  | nil => exact ⟨by simp, by simp⟩
  | positional _ _ hout _ ihv ihr =>
    exact ⟨List.forall_mem_cons.mpr ⟨ihv.1, ihr.1⟩,
      List.forall_mem_cons.mpr ⟨ihv.2.1 hout, ihr.2⟩⟩
  | labelled _ _ hout _ ihv ihr =>
    exact ⟨List.forall_mem_cons.mpr ⟨ihv.1, ihr.1⟩,
      List.forall_mem_cons.mpr ⟨ihv.2.1 hout, ihr.2⟩⟩

theorem TypedLinks.directed {links : List Expr} (h : TypedLinks catalog scope names links names') :
    (∀ e ∈ links, e.Directed) ∧ (∀ e ∈ links.dropLast, e.isReadable = true) ∧
      (∀ e ∈ links, e.isWritable = true) ∧ links ≠ [] := by
  induction h with
  | last h hin =>
    obtain ⟨hd, _, hw⟩ := h.directed
    exact ⟨by simpa using hd, by simp, by simpa using hw hin, by simp⟩
  | step h hin hout _ ih =>
    obtain ⟨hd, hr, hw⟩ := h.directed
    obtain ⟨hds, hrs, hws, hne⟩ := ih
    refine ⟨List.forall_mem_cons.mpr ⟨hd, hds⟩, ?_, List.forall_mem_cons.mpr ⟨hw hin, hws⟩, by simp⟩
    rw [List.dropLast_cons_of_ne_nil hne]
    exact List.forall_mem_cons.mpr ⟨hr hout, hrs⟩

theorem TypedStatement.directed {statement : Statement}
    (h : TypedStatement catalog scope names statement names') : statement.Directed := by
  cases h with
  | definition h _ => exact h.directed.1
  | construction h => exact h.directed.1
  | chain h hout hlinks =>
    obtain ⟨hd, hr, _⟩ := h.directed
    obtain ⟨hds, hrs, hws, hne⟩ := hlinks.directed
    refine ⟨List.forall_mem_cons.mpr ⟨hd, hds⟩, ⟨?_, hws⟩⟩
    rw [List.cons_append, List.dropLast_cons_of_ne_nil hne]
    exact List.forall_mem_cons.mpr ⟨hr hout, hrs⟩

theorem TypedLines.directed {lines : List Line} (h : TypedLines catalog names lines names') :
    Program.Directed ⟨lines⟩ := by
  induction h with
  | nil => exact fun line hline => absurd hline List.not_mem_nil
  | cons h _ ih => exact List.forall_mem_cons.mpr ⟨h.directed, ih⟩

/-- Where reading refuses the direction of a part of a program without error nodes, the check finds
something wrong with the program too, whatever classes there are. -/
theorem direction_fault_checked (catalog : Catalog) (ts : List Token)
    (herror : (Program.ofTokens ts).program.ErrorFree)
    (h : ∃ f ∈ (Program.ofTokens ts).faults, f.fault = .unreadable ∨ f.fault = .unwritable) :
    (check catalog (Program.ofTokens ts).program).faults ≠ [] := by
  intro hnone
  obtain ⟨f, hf, hdirection⟩ := h
  have hquiet := Program.quiet_ofTokens (typedLines_of_check herror hnone).directed f hf
  rcases hdirection with hdirection | hdirection
  · rw [hdirection] at hquiet
    cases hquiet
  · rw [hdirection] at hquiet
    cases hquiet

/-- A chain into an output. -/
def backflow : String := "gate => gate:output"

theorem direction_fault_checked_backflow :
    (Program.ofTokens (Token.scan backflow)).program.ErrorFree ∧
      (∃ f ∈ (Program.ofTokens (Token.scan backflow)).faults,
        f.fault = .unreadable ∨ f.fault = .unwritable) ∧
      (check Library.standard.catalog (Program.ofTokens (Token.scan backflow)).program).faults ≠
        [] := by
  have hread : Program.ofTokens (Token.scan backflow) =
      ⟨⟨[⟨.global, .chain (.name ⟨"gate", ⟨0, 4⟩⟩) []
        (.output ⟨"gate", ⟨8, 12⟩⟩ ⟨"output", ⟨13, 19⟩⟩ ⟨8, 19⟩) ⟨0, 19⟩⟩]⟩,
        [⟨.unwritable, some ⟨8, 19⟩⟩]⟩ := by
    cbv
  have herror : (Program.ofTokens (Token.scan backflow)).program.ErrorFree := by
    rw [hread]
    exact List.forall_mem_singleton.mpr ⟨.name _, by simp, .output _ _ _⟩
  have hdirection : ∃ f ∈ (Program.ofTokens (Token.scan backflow)).faults,
      f.fault = .unreadable ∨ f.fault = .unwritable := by
    rw [hread]
    exact ⟨_, List.mem_singleton_self _, .inr rfl⟩
  exact ⟨herror, hdirection, direction_fault_checked _ _ herror hdirection⟩

end Patchbay.Checking
