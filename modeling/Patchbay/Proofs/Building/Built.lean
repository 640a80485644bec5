import Patchbay.Building.Export
import Patchbay.Compilation
import Patchbay.Proofs.Building.Invariant

/-! The state behind a graph: the built-in objects, then the work on all lines. -/
namespace Patchbay.Building
variable {α : Type}

/-- One built-in object more, bound to its name. -/
def State.withBuiltin (cls : UnitClass) (scope : Scope) (s : State α) (name : String) : State α :=
  (s.add (.fresh cls scope .builtin none)).bind scope name [.object ⟨s.objects.length, cls⟩ none]

/-- The built-in objects of given classes, bound to their names. -/
def seed (input output : UnitClass) : State α :=
  let s := Builtin.globalInputs.foldl (State.withBuiltin input .global) .empty
  Builtin.voiceInputs.foldl (State.withBuiltin input .voice)
    (s.withBuiltin output .global Builtin.output)

private theorem leads_addBuiltin (cls : UnitClass) (scope : Scope) (name : String)
    {s : State α} {post : Unit → State α → Prop} {failed : Located Fault → State α → Prop} :
    Leads (addBuiltin cls scope name) s post failed ↔ post () (s.withBuiltin cls scope name) :=
  Iff.rfl

private theorem leads_addBuiltins (cls : UnitClass) (scope : Scope) (names : List String)
    {s : State α} {post : Unit → State α → Prop} {failed : Located Fault → State α → Prop} :
    Leads (addBuiltins cls scope names) s post failed ↔
      post () (names.foldl (State.withBuiltin cls scope) s) := by
  induction names generalizing s with
  | nil => rfl
  | cons name rest ih =>
    rw [addBuiltins, leads_bind, leads_addBuiltin]
    exact ih

/-- With the two classes at hand every program starts from the same state. -/
theorem leads_start {catalog : Catalog} {input output : UnitClass}
    (hi : catalog.resolve? Builtin.userInput = some input)
    (ho : catalog.resolve? Builtin.stereoOutput = some output)
    {post : Unit → State α → Prop} {failed : Located Fault → State α → Prop} :
    Leads (start catalog) .empty post failed ↔ post () (seed input output) := by
  rw [start, leads_bind, leads_classUnder, hi]
  dsimp only
  rw [leads_bind, leads_classUnder, ho]
  dsimp only
  rw [leads_bind, leads_addBuiltins, leads_bind, leads_addBuiltin, leads_addBuiltins]
  rfl

theorem run_start {catalog : Catalog} {input output : UnitClass}
    (hi : catalog.resolve? Builtin.userInput = some input)
    (ho : catalog.resolve? Builtin.stereoOutput = some output) :
    (start catalog).run (.empty : State α) = (.ok (), seed input output) := by
  have hs : Leads (start catalog) (.empty : State α) (fun _ s => s = seed input output)
      fun _ _ => False := (leads_start hi ho).mpr rfl
  rw [Leads] at hs
  generalize (start catalog).run (.empty : State α) = result at hs ⊢
  rcases result with ⟨_ | _, s⟩
  · exact hs.elim
  · exact hs ▸ rfl

/-- The shapes of the built-in objects, in their order. -/
def builtinShapes (input output : UnitClass) : List Shape :=
  List.replicate 4 ⟨input, false, none, .builtin⟩ ++ [⟨output, false, none, .builtin⟩] ++
    List.replicate 5 ⟨input, true, none, .builtin⟩

theorem shapes_seed (input output : UnitClass) :
    (seed input output : State α).shapes = builtinShapes input output := by
  simp only [seed, Builtin.globalInputs, Builtin.voiceInputs, List.foldl, State.withBuiltin,
    State.shapes_bind, State.shapes_add]
  rfl

/-- What holds of nothing and is kept by each built-in object holds of the start of all programs. -/
theorem seed_induction {P : State α → Prop} (input output : UnitClass) (empty : P .empty)
    (add : ∀ s cls scope name, cls = input ∨ cls = output → P s → P (s.withBuiltin cls scope name)) :
    P (seed input output) := by
  have all : ∀ (scope : Scope) (names : List String) {s : State α}, P s →
      P (names.foldl (State.withBuiltin input scope) s) := by
    intro scope names
    induction names with
    | nil => exact id
    | cons name rest ih => exact fun h => ih (add _ input scope name (.inl rfl) h)
  exact all .voice _ (add _ output .global _ (.inr rfl) (all .global _ empty))

theorem valid_seed {catalog : Catalog} (input output : UnitClass)
    (hi : catalog.resolve? input.name = some input)
    (ho : catalog.resolve? output.name = some output) :
    Valid catalog (seed input output : State α) := by
  refine seed_induction input output ?_ fun s cls scope name hcls h => ?_
  · refine ⟨?_, ?_, ?_, ?_, ?_, ?_, ?_⟩ <;> simp [State.empty, State.classes, State.shapes,
      Table.get?, Table.empty]
  · have hc : catalog.resolve? cls.name = some cls := by
      rcases hcls with rfl | rfl
      · exact hi
      · exact ho
    have ha := h.add hc scope .builtin none
    exact (ha.valid.bind (.singleton (validAtom_added cls scope .builtin none none)) scope name).valid

/-- A graph is finished where there is no fault and the objects can be put into an order. -/
theorem State.of_graph_finish {s : State α} {o : Options} {g : Graph α}
    (h : (s.finish o).graph = some g) :
    s.faults = [] ∧ ∃ order, Graph.schedule (s.objects.map Draft.dependencies)
      Builtin.outputObject = .ok order ∧ g = s.graph o order := by
  rw [State.finish] at h
  split at h
  · next hf =>
    split at h
    · cases h
    · next order hs => exact ⟨List.isEmpty_iff.mp hf, order, hs, (Option.some.inj h).symm⟩
  · cases h

section Standard

/-- The class of the note inputs among the standard units. -/
def inputClass : UnitClass := ⟨Builtin.userInput, [], [⟨["output"]⟩], [], some "UserInterface"⟩

/-- The class of the final signal among the standard units. -/
def outputClass : UnitClass :=
  ⟨Builtin.stereoOutput, [⟨["left"]⟩, ⟨["right"]⟩], [], [], some "UserInterface"⟩

theorem resolve?_userInput :
    Library.standard.catalog.resolve? Builtin.userInput = some inputClass := by decide

theorem resolve?_stereoOutput :
    Library.standard.catalog.resolve? Builtin.stereoOutput = some outputClass := by decide

variable [Arithmetic α]

/-- What is there once all lines of a program are worked through, with the standard units. -/
def built (program : Program) : State α :=
  buildLines Library.standard.catalog ((start Library.standard.catalog).run .empty).2 program.lines

theorem built_eq (program : Program) :
    (built program : State α) =
      buildLines Library.standard.catalog (seed inputClass outputClass) program.lines := by
  rw [built, run_start resolve?_userInput resolve?_stereoOutput]

theorem build_standard (o : Options) (program : Program) :
    build Library.standard.catalog o program = (built program : State α).finish o := by
  rw [build, built, run_start resolve?_userInput resolve?_stereoOutput]

/-- A graph is what a program has built, with its objects in order. -/
theorem graph_of_build {o : Options} {program : Program} {g : Graph α}
    (h : (build Library.standard.catalog o program).graph = some g) :
    (built program : State α).faults = [] ∧
      ∃ order, Graph.schedule ((built program : State α).objects.map Draft.dependencies)
        Builtin.outputObject = .ok order ∧ g = (built program : State α).graph o order :=
  State.of_graph_finish ((congrArg Outcome.graph (build_standard o program)).symm.trans h)

/-- What a program has built is valid and starts with the built-in objects. -/
theorem built_extends (program : Program) :
    Valid Library.standard.catalog (built program : State α) ∧
      builtinShapes inputClass outputClass <+: (built program : State α).shapes := by
  have hs : Valid Library.standard.catalog (seed inputClass outputClass : State α) :=
    valid_seed inputClass outputClass resolve?_userInput resolve?_stereoOutput
  have h := extends_buildLines hs Library.standard_regular program.lines
  rw [built_eq]
  exact ⟨h.valid, shapes_seed (α := α) inputClass outputClass ▸ h.shapes⟩

/-- A text has a graph once nothing is wrong with it and its objects can be put into an order. -/
theorem graph?_of_schedule {o : Options} {source : String}
    (hread : (Program.ofTokens (Token.scan source)).faults = [])
    (hcheck : (Checking.check Library.standard.catalog
      (Program.ofTokens (Token.scan source)).program).faults = [])
    (hfaults : (built (Program.ofTokens (Token.scan source)).program : State α).faults = [])
    {dependencies : List (List Nat)} {order : List Nat}
    (hdependencies : (built (Program.ofTokens (Token.scan source)).program : State α).objects.map
      Draft.dependencies = dependencies)
    (hschedule : Graph.schedule dependencies Builtin.outputObject = .ok order) :
    (Compilation.ofText Library.standard.catalog o source).graph? =
      some ((built (Program.ofTokens (Token.scan source)).program : State α).graph o order) := by
  rw [Compilation.graph?, Compilation.ofText]
  dsimp only
  rw [hread, hcheck, List.isEmpty_nil, List.isEmpty_nil, Bool.and_self, if_pos rfl, build_standard,
    State.finish, hfaults, hdependencies, hschedule]
  rfl

end Standard
end Patchbay.Building
