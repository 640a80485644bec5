import Mathlib.Data.List.Permutation
import Patchbay.Compilation
import Patchbay.Proofs.Building.Canonical
import Patchbay.Proofs.Building.Faults
import Patchbay.Proofs.Checking.Accord
import Patchbay.Proofs.Checking.Canonical

/-! Names are interchangeable: a program and its canonical form are checked alike and built into the
same graph. -/
namespace Patchbay
open Building
variable {α : Type} [Arithmetic α]

theorem Building.built_canonical (program : Program) :
    (built (program.canonical α .both Library.standard.catalog) : State α) = built program := by
  have hvalid : Valid Library.standard.catalog (seed inputClass outputClass : State α) :=
    valid_seed inputClass outputClass resolve?_userInput resolve?_stereoOutput
  rw [built_eq, built_eq, Program.canonical, run_start resolve?_userInput resolve?_stereoOutput]
  exact buildLines_canonical Library.standard_regular program.lines _ hvalid

/-- With the standard units it does not matter which of its names a class, a socket or an output is
called by. A program and its canonical form, in which each part of an object has its proper name
wherever check and building agree on it, have the same names and types and faults of meaning at the
same places in the same order, and building them gives the same graph, faults and warnings. -/
theorem Program.canonical_alike (program : Program) :
    let other := program.canonical α .both Library.standard.catalog
    let a := Checking.check Library.standard.catalog program
    let b := Checking.check Library.standard.catalog other
    b.names = a.names ∧ b.typeTable = a.typeTable ∧
      b.faults.map Located.span = a.faults.map Located.span ∧
      ∀ o, (build Library.standard.catalog o other : Outcome α) =
        build Library.standard.catalog o program := by
  intro other a b
  have halike := Checking.alike_check (α := α) Library.standard_regular program
  refine ⟨halike.names, congrArg (List.foldl _ []) halike.types, halike.places, fun o => ?_⟩
  rw [build_standard, build_standard, built_canonical]

section Accounts
variable {catalog : Catalog}

omit [Arithmetic α] in
theorem Building.Sane.accords {names : Checking.Names} {s : State α}
    (h : Sane catalog noName names s) (scope : Scope) :
    (Sight.mk names (s.class? scope)).Accords catalog scope := by
  intro name c hc
  obtain ⟨d, hd, hc⟩ := Option.bind_eq_some_iff.mp hc
  obtain ⟨className, hclass, hc⟩ := Option.bind_eq_some_iff.mp hc
  have hfind := (h.agrees scope).find? name (·.2)
  rw [show names.find? scope name = some d from hd] at hfind
  have hclasses : (Sight.mk names (s.class? scope)).classes name =
      (s.find? scope name).bind classOf := rfl
  rw [hclasses]
  generalize s.find? scope name = bound at hfind ⊢
  cases hfind with
  | some hv =>
    obtain ⟨ref, span, rfl, hres, _⟩ := hv.object className hclass
    exact hres.symm.trans hc

/-- Lines without faults have one canonical form by any account. -/
theorem canonicalLines_authority (hops : Operable catalog) (hk : catalog.Regular)
    {lines : List Line} (he : ∀ line ∈ lines, line.statement.ErrorFree) {found : Checking.State}
    {s : State α} (h : Sane catalog noName found.names s)
    (hcheck : ((Checking.checkLines catalog lines).run found).2.faults = [])
    (hbuild : (buildLines catalog s lines).faults = []) (authority : Authority) :
    canonicalLines authority catalog found s lines =
      canonicalLines .both catalog found s lines := by
  induction lines generalizing found s with
  | nil => rfl
  | cons line rest ih =>
    -- Faults are never forgotten: where none are left at the end, this line has none either.
    have hrest := (Checking.finds_checkLines catalog rest
      ((Checking.checkStatement catalog line.scope line.statement).run found).2).1
    have hfound : ((Checking.checkStatement catalog line.scope line.statement).run found).2.faults =
        [] := List.prefix_nil.mp (hcheck ▸ hrest)
    have htyped := (Checking.finds_checkStatement catalog line.scope line.statement found).2 hfound
      (he line List.mem_cons_self)
    have haccords := h.accords line.scope
    have hsane := h.clear hops hk htyped
      ((faults_buildLines catalog _ rest hbuild).trans
        (faults_buildLines catalog s (line :: rest) hbuild).symm)
    have hform := (Checking.clear_checkStatement hk line.statement found).2 hfound _ rfl haccords
    rw [canonicalLines, canonicalLines, hform authority,
      ih (fun l hl => he l (List.mem_cons_of_mem _ hl)) hsane hcheck hbuild]

end Accounts

/-- Of a program without error nodes in which neither check nor building finds a fault, there is one
canonical form: the check knows every object under its class, and so does building. -/
theorem Program.canonical_authority {program : Program} (he : program.ErrorFree)
    (hcheck : (Checking.check Library.standard.catalog program).faults = [])
    (hbuild : (built program : State α).faults = []) (authority : Authority) :
    program.canonical α authority Library.standard.catalog =
      program.canonical α .both Library.standard.catalog := by
  rw [built_eq] at hbuild
  rw [Program.canonical, Program.canonical, run_start resolve?_userInput resolve?_stereoOutput]
  exact congrArg Program.mk (canonicalLines_authority standard_operable Library.standard_regular he
    sane_seed hcheck hbuild authority)

/-- A name for an envelope and, in the voice block, for an attenuator as well. The check goes by the
attenuator, but building gives its line up over the knob. -/
def contestedText : String :=
  "ADSRlin x()\nstartvoice\nKnob q() => Attenuator x()\ngate => x.a\nendvoice"

/-- The lines of the text, with a name for the socket in the last one. -/
private def contestedLines (socket : String) : List Line :=
  [⟨.global, .construction ⟨⟨"ADSRlin", ⟨0, 7⟩⟩, some ⟨"x", ⟨8, 9⟩⟩, [], ⟨0, 11⟩⟩⟩,
    ⟨.voice, .chain (.construction ⟨⟨"Knob", ⟨23, 27⟩⟩, some ⟨"q", ⟨28, 29⟩⟩, [], ⟨23, 31⟩⟩) []
      (.construction ⟨⟨"Attenuator", ⟨35, 45⟩⟩, some ⟨"x", ⟨46, 47⟩⟩, [], ⟨35, 49⟩⟩) ⟨23, 49⟩⟩,
    ⟨.voice, .chain (.name ⟨"gate", ⟨50, 54⟩⟩) []
      (.socket ⟨"x", ⟨58, 59⟩⟩ ⟨socket, ⟨60, 61⟩⟩ ⟨58, 61⟩) ⟨50, 61⟩⟩]

private theorem program_contestedText :
    (Program.ofTokens (Token.scan contestedText)).program = ⟨contestedLines "a"⟩ := by
  cbv

private theorem canonical_check_contested :
    (Program.mk (contestedLines "a")).canonical Float .check Library.standard.catalog =
      ⟨contestedLines "amount"⟩ := by
  rw [Program.canonical, run_start resolve?_userInput resolve?_stereoOutput]
  cbv

private theorem canonical_building_contested :
    (Program.mk (contestedLines "a")).canonical Float .building Library.standard.catalog =
      ⟨contestedLines "attack"⟩ := by
  rw [Program.canonical, run_start resolve?_userInput resolve?_stereoOutput]
  cbv

private theorem faults_contested (o : Options) :
    (build Library.standard.catalog o ⟨contestedLines "a"⟩ : Outcome Float).faults =
      [⟨.voiceParameter, some ⟨28, 29⟩⟩] := by
  rw [build_standard, built_eq]
  rfl

private theorem faults_contested_check (o : Options) :
    (build Library.standard.catalog o ⟨contestedLines "amount"⟩ : Outcome Float).faults =
      [⟨.voiceParameter, some ⟨28, 29⟩⟩, ⟨.undefinedSocket "amount" "ADSRlin", some ⟨60, 61⟩⟩] := by
  rw [build_standard, built_eq]
  rfl

/-- Where they do not agree, neither account alone will do: with the proper names by the check
building finds another fault, and with the proper names by building the check does. -/
theorem canonical_contested :
    let p := (Program.ofTokens (Token.scan contestedText)).program
    let checked := p.canonical Float .check Library.standard.catalog
    let built := p.canonical Float .building Library.standard.catalog
    (build Library.standard.catalog .standard checked : Outcome Float).faults.length ≠
        (build Library.standard.catalog .standard p : Outcome Float).faults.length ∧
      (Checking.check Library.standard.catalog built).faults.map Located.span ≠
        (Checking.check Library.standard.catalog p).faults.map Located.span := by
  dsimp only
  rw [program_contestedText, canonical_check_contested, canonical_building_contested]
  refine ⟨?_, ?_⟩
  · rw [faults_contested, faults_contested_check]
    decide
  · have hfaults : (Checking.check Library.standard.catalog ⟨contestedLines "a"⟩).faults = [] := rfl
    have hmore : (Checking.check Library.standard.catalog ⟨contestedLines "attack"⟩).faults =
        [⟨.undefinedSocket "attack" "Attenuator", some ⟨60, 61⟩⟩] := rfl
    rw [hfaults, hmore]
    decide

end Patchbay
