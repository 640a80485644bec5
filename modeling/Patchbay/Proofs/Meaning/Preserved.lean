import Mathlib.Analysis.SpecialFunctions.Log.Base
import Mathlib.Data.List.Permutation
import Patchbay.Decimal.Shortest
import Patchbay.Proofs.Building.WellFormed
import Patchbay.Proofs.Meaning.Lowering

/-! A graph does what its program says. The sum at each socket of each object of the program is the
sum of all that the program sends there, if only operators are computed. -/
namespace Patchbay.Meaning
open Building Checking
variable {α : Type} [ExactArithmetic α] {rate : α} {seed : UInt64}

/-- Between lines: all names fit, and the state agrees with the story. -/
structure Follows (rate : α) (seed : UInt64) (names : Names) (s : Building.State α) (t : Story α) :
    Prop where
  global : TablesFit catalog noName s.shapes names.global s.global
  voice : TablesFit catalog noName s.shapes names.voice s.voice
  tells : Tells rate seed s t

section Lines
variable {scope : Scope} {names names' : Names} {s : Building.State α} {t : Story α}

theorem Follows.statement (h : Follows rate seed names s t) {statement : Statement}
    (ht : TypedStatement catalog scope names statement names')
    (hf : (s.after (buildStatement catalog scope statement)).faults = []) :
    ∃ t', (evalStatement catalog scope statement).run t = some ((), t') ∧
      Follows rate seed names' (s.after (buildStatement catalog scope statement)) t' := by
  have hlowers := lowers_buildStatement ht ⟨fun _ => False.elim, h.global, fun _ => h.voice⟩ h.tells
  have hframe := (stable_others scope).moves_buildStatement catalog statement s
  refine Leads.after (fun s' => s'.faults = [] → ∃ t', (evalStatement catalog scope statement).run t =
    some ((), t') ∧ Follows rate seed names' s' t') (Leads.imp (hlowers.and hframe) ?_ ?_) hf
  · rintro _ s' ⟨⟨_, t', hrun, htells, hgrown, h'⟩, hothers, _⟩ _
    refine ⟨t', hrun, ?_⟩
    cases scope with
    | voice => exact ⟨h'.global, h'.voice rfl, htells⟩
    | global =>
      have hvoice : s'.voice = s.voice := hothers
      have hnames : names'.voice = names.voice := ht.others
      refine ⟨h'.global, ?_, htells⟩
      rw [hvoice, hnames]
      exact h.voice.mono hgrown.shapes fun _ => id
  · intro f s' _ hnil
    exact absurd (List.append_eq_nil_iff.mp hnil).2 (List.cons_ne_nil _ _)

/-- Typed lines that leave no fault make sense, and what is built of them agrees with it. -/
theorem Follows.lines {lines : List Line} (ht : TypedLines catalog names lines names')
    (h : Follows rate seed names s t) (hf : (buildLines catalog s lines).faults = []) :
    ∃ t', (evalLines catalog lines).run t = some ((), t') ∧
      Follows rate seed names' (buildLines catalog s lines) t' := by
  induction ht generalizing s t with
  | nil => exact ⟨t, rfl, h⟩
  | @cons names names₁ names₂ line rest hline _ ih =>
    obtain ⟨t₁, hrun, h₁⟩ := h.statement hline (faults_buildLines _ _ rest hf)
    obtain ⟨t₂, hrest, h₂⟩ := ih h₁ hf
    refine ⟨t₂, ?_, h₂⟩
    rw [evalLines, StateT.run_bind, hrun]
    exact hrest

end Lines

theorem Tells.withBuiltin {s : Building.State α} {t : Story α} (h : Tells rate seed s t)
    (cls : UnitClass) (scope : Scope) (name : String) :
    Tells rate seed (s.withBuiltin cls scope name) (t.withBuiltin cls scope name) := by
  have ho : Building.Origin.builtin ≠ .operator := Building.Origin.noConfusion
  refine (h.add cls scope ho none).bind (.object ?_) scope name
  rw [h.length_objects]
  exact getElem?_places_length s ho

theorem tells_seed (input output : UnitClass) :
    Tells rate seed (Building.seed input output) (start input output) := by
  have all : ∀ (cls : UnitClass) (scope : Scope) (names : List String) {s : Building.State α}
      {t : Story α}, Tells rate seed s t →
        Tells rate seed (names.foldl (State.withBuiltin cls scope) s)
          (names.foldl (Story.withBuiltin cls scope) t) := by
    intro cls scope names
    induction names with
    | nil => exact fun h => h
    | cons name rest ih => exact fun h => ih (h.withBuiltin cls scope name)
  have hempty : Tells rate seed (State.empty : Building.State α) ⟨[], .empty, .empty, []⟩ := by
    refine ⟨rfl, fun x hx => absurd hx List.not_mem_nil, fun _ => .none, fun _ => .none,
      fun r hr => absurd hr List.not_mem_nil, ?_⟩
    intro k id i d mix hk
    cases hk
  have hglobal := all input .global Builtin.globalInputs hempty
  have houtput := hglobal.withBuiltin output .global Builtin.output
  rw [Building.seed, start]
  exact all input .voice Builtin.voiceInputs houtput

/-- Of a program without faults, state and story agree at the end. -/
theorem tells_built {program : Program} (he : program.ErrorFree)
    (hcheck : (check catalog program).faults = [])
    (hf : (built program : Building.State α).faults = []) :
    ∃ t, (evalLines catalog program.lines).run (start inputClass outputClass) = some ((), t) ∧
      Tells rate seed (built program) t := by
  rw [built_eq] at hf ⊢
  have hseed := sane_seed (α := α)
  have hstart : Follows rate seed .builtin (Building.seed inputClass outputClass)
      (start inputClass outputClass) :=
    ⟨hseed.global, hseed.voice, tells_seed inputClass outputClass⟩
  obtain ⟨t, hrun, h⟩ := hstart.lines (typedLines_of_check he hcheck) hf
  exact ⟨t, hrun, h.tells⟩

section Graphs
variable {o : Options} {d : Draft α} (σ : Signals α)

theorem total_stripSpan (mix : List (Contribution α)) :
    total σ (mix.map Contribution.stripSpan) = total σ mix := by
  have hvalue : Contribution.value σ ∘ Contribution.stripSpan = Contribution.value σ := by
    funext c
    cases c <;> rfl
  rw [total, List.map_map, hvalue, total]

/-- Places do not matter to the sums at the sockets. -/
theorem total_finished (key : String) :
    ((d.finished o).mixes.get? key).map (total σ) = ((d.node o).mixes.get? key).map (total σ) := by
  rcases get?_finished o d key with h | h
  · rw [h]
  · rw [h, Option.map_map]
    exact congrArg (Option.map · _) (funext (total_stripSpan σ))

variable (h : d.cls.Regular) (hl : d.mixes.length = d.cls.sockets.length)
include h hl

/-- At the proper names of its sockets, in order, an object receives the sums of its mixes. -/
theorem totals_finished :
    d.cls.sockets.map (fun j => total σ (((d.finished o).mixes.get? j.canonical).getD [])) =
      d.mixes.map (total σ) := by
  refine List.ext_getElem (by rw [List.length_map, List.length_map, hl]) fun i hi hi' => ?_
  rw [List.length_map] at hi hi'
  have hget := get?_canonical (o := o) h hl (List.getElem?_eq_getElem hi)
    (List.getElem?_eq_getElem hi')
  have htotal := total_finished σ (o := o) (d := d) d.cls.sockets[i].canonical
  rw [hget] at htotal
  obtain ⟨mix, hmix, htotal⟩ := Option.map_eq_some_iff.mp htotal
  rw [List.getElem_map, List.getElem_map, hmix, Option.getD_some, htotal]

/-- Whatever an object receives under some name is the mix of the socket of that name. -/
theorem mix_of_get?_finished {name : String} {mix : List (Contribution α)}
    (hm : (d.finished o).mixes.get? name = some mix) :
    ∃ i old, d.cls.socketIndex? name = some i ∧ d.mixes[i]? = some old ∧
      total σ mix = total σ old := by
  have htotal := total_finished σ (o := o) (d := d) name
  rw [hm] at htotal
  obtain ⟨old, hold, htotal⟩ := Option.map_eq_some_iff.mp htotal.symm
  have hentry := (perm_entries h hl).mem_iff.mp ((SortedMap.get?_eq_some_iff _ _ _).mp hold)
  obtain ⟨⟨j, mix'⟩, hz, hn⟩ := List.mem_flatMap.mp hentry
  obtain ⟨name', hname, he⟩ := List.mem_map.mp hn
  cases he
  obtain ⟨i, hi⟩ := List.getElem?_of_mem hz
  obtain ⟨hj, hmix⟩ := List.getElem?_zip_eq_some.mp hi
  have hnames := (UnitClass.namesOf_sublist o (h.socketsNamed j (List.mem_of_getElem? hj))).subset
  exact ⟨i, old, h.socketIndex?_eq hj (hnames hname), hmix, htotal.symm⟩

end Graphs

/-- The outputs of an object are what its unit computes from the sums at its sockets. -/
def Computed (rate : α) (seed : UInt64) (σ : Signals α) (g : Graph α) (id : Nat) : Prop :=
  ∀ n c u, g.nodes[id]? = some n → catalog.resolve? n.className = some c →
    Library.standard.create? n.className rate seed = some u →
      c.outputs.map (fun j => σ id j.canonical) =
        (u.process (c.sockets.map fun j => total σ ((n.mixes.get? j.canonical).getD []))).2

section Built
variable {s : Building.State α} (h : Valid catalog s) (o : Options) (order : List Nat)
include h

omit [ExactArithmetic α] in
private theorem regular {id : Nat} {d : Draft α} (hd : s.objects[id]? = some d) :
    d.cls.Regular ∧ d.mixes.length = d.cls.sockets.length ∧
      catalog.resolve? d.cls.name = some d.cls := by
  have hc : s.classes[id]? = some d.cls := by rw [State.classes_getElem?, hd, Option.map_some]
  exact ⟨h.regular Library.standard_regular hc, h.sockets d (List.mem_of_getElem? hd),
    h.classes d.cls (List.mem_of_getElem? hc)⟩

omit [ExactArithmetic α] h in
theorem getElem?_nodes (id : Nat) :
    (s.graph o order).nodes[id]? = s.objects[id]?.map (Draft.finished o) := by
  rw [State.nodes_graph, List.getElem?_map]

theorem settled_of_computed {σ : Signals α}
    (hσ : ∀ id, id ∉ places s.shapes → Computed rate seed σ (s.graph o order) id) :
    Settled rate seed σ s := by
  intro id d u hd ho hu
  obtain ⟨hreg, hl, hres⟩ := regular h hd
  have hid : id ∉ places s.shapes := by
    intro hmem
    obtain ⟨x, hx, hne⟩ := mem_places.mp hmem
    rw [State.shapes, List.getElem?_map, hd] at hx
    exact hne (Option.some.inj hx ▸ ho)
  have hn : (s.graph o order).nodes[id]? = some (d.finished o) := by
    rw [getElem?_nodes, hd, Option.map_some]
  have hcomputed := hσ id hid (d.finished o) d.cls u hn
  rw [className_finished] at hcomputed
  rw [hcomputed hres hu, totals_finished σ hreg hl]

omit h
variable {t : Story α} (htells : Tells rate seed s t)
include htells

private theorem class_of_place {k id : Nat} {d : Draft α} (hk : (places s.shapes)[k]? = some id)
    (hd : s.objects[id]? = some d) : t.objects[k]? = some d.cls := by
  have hshape : s.shapes[id]? = some d.shape := by
    rw [State.shapes, List.getElem?_map, hd, Option.map_some]
  have hplace : ((places s.shapes).map fun id => s.shapes[id]?)[k]? =
      ((s.shapes.filter (·.origin ≠ .operator)).map some)[k]? := by rw [map_places]
  rw [List.getElem?_map, hk, Option.map_some, hshape, List.getElem?_map] at hplace
  obtain ⟨x, hx, he⟩ := Option.map_eq_some_iff.mp hplace.symm
  rw [htells.objects, List.getElem?_map, hx, Option.some.inj he]
  rfl

/-- The objects of the text, in order, are those of the graph that are no operators. -/
private theorem classes_nodes :
    (places s.shapes).map (fun id => (s.graph o order).nodes[id]?.map Node.className) =
      t.objects.map fun c => some c.name := by
  have hnode : (fun id => (s.graph o order).nodes[id]?.map Node.className) =
      fun id : Nat => s.shapes[id]?.map fun x : Shape => x.cls.name := by
    funext id
    rw [getElem?_nodes, State.shapes, List.getElem?_map, Option.map_map, Option.map_map]
    refine congrArg (Option.map · _) (funext fun d => ?_)
    exact className_finished o d
  calc
    _ = ((places s.shapes).map fun id => s.shapes[id]?).map
        (Option.map fun x : Shape => x.cls.name) := by
      rw [hnode, List.map_map]
      rfl
    _ = _ := by
      rw [map_places, htells.objects, List.map_map, List.map_map]
      rfl

private theorem operator_of_node {id : Nat} {n : Node α} (hn : (s.graph o order).nodes[id]? = some n)
    (hid : id ∉ places s.shapes) : n.className ∈ operatorClasses := by
  rw [getElem?_nodes] at hn
  obtain ⟨d, hd, rfl⟩ := Option.map_eq_some_iff.mp hn
  have hshape : s.shapes[id]? = some d.shape := by
    rw [State.shapes, List.getElem?_map, hd, Option.map_some]
  rw [className_finished]
  refine htells.operators d.shape (List.mem_of_getElem? hshape) ?_
  by_contra ho
  exact hid (mem_places.mpr ⟨d.shape, hshape, ho⟩)

end Built

/-- The graph of a text that reads and checks without faults does what the text says. The text makes
sense; each of its objects is there, and all others are operators. Whatever the outputs of all
objects are, if those of the operators are what their units compute, then the sum at each socket of
each object of the text is the sum of all signals that the text sends there. -/
theorem build_preserves_meaning (source : String)
    (hread : (Program.ofTokens (Token.scan source)).faults = [])
    (hcheck : (check catalog (Program.ofTokens (Token.scan source)).program).faults = [])
    (o : Options) (g : Graph α)
    (hg : (build catalog o (Program.ofTokens (Token.scan source)).program).graph = some g)
    (rate : α) (seed : UInt64) :
    let program := (Program.ofTokens (Token.scan source)).program
    let ids := places (built program : Building.State α).shapes
    ∃ t, (evalLines catalog program.lines).run (start inputClass outputClass) = some ((), t) ∧
      ids.map (fun id => g.nodes[id]?.map Node.className) = t.objects.map (fun c => some c.name) ∧
      (∀ id n, g.nodes[id]? = some n → id ∉ ids → n.className ∈ operatorClasses) ∧
      ∀ σ : Signals α, (∀ id, id ∉ ids → Computed rate seed σ g id) →
        ∀ k id c n, ids[k]? = some id → t.objects[k]? = some c → g.nodes[id]? = some n →
          ∀ name mix, n.mixes.get? name = some mix → ∃ i, c.socketIndex? name = some i ∧
            total σ mix = t.received k i fun k => σ (ids.getD k 0) := by
  intro program ids
  obtain ⟨hf, order, _, rfl⟩ := graph_of_build hg
  have hvalid := (built_extends (α := α) program).1
  obtain ⟨t, hrun, h⟩ : ∃ t, _ ∧ Tells rate seed (built program) t :=
    tells_built (Program.errorFree_ofTokens hread) hcheck hf
  refine ⟨t, hrun, classes_nodes o order h, fun id n => operator_of_node o order h, ?_⟩
  intro σ hσ k id c n hk hc hn name mix hmix
  rw [getElem?_nodes] at hn
  obtain ⟨d, hd, rfl⟩ := Option.map_eq_some_iff.mp hn
  obtain ⟨hreg, hl, _⟩ := regular hvalid hd
  obtain ⟨i, old, hi, hold, htotal⟩ := mix_of_get?_finished σ hreg hl hmix
  rw [class_of_place h hk hd] at hc
  refine ⟨i, Option.some.inj hc ▸ hi, ?_⟩
  rw [htotal]
  refine h.received k id i d old hk hd hold σ _ (settled_of_computed hvalid o order hσ) ?_
  intro k id hk
  show σ (ids.getD k 0) = σ id
  rw [List.getD_eq_getElem?_getD, show ids[k]? = some id from hk, Option.getD_some]

/-- Real numbers, for written numbers that are finite. -/
noncomputable instance : ExactArithmetic ℝ where
  lt x y := decide (x < y)
  le x y := decide (x ≤ y)
  natural n := n
  ofFloat x :=
    let binary := Decimal.Binary.ofFloat x
    let magnitude : ℝ := binary.mantissa * Nat.cast 2 ^ binary.exponent
    if x < 0 then -magnitude else magnitude
  pi := Real.pi
  exp2 x := Nat.cast 2 ^ x
  log2 := Real.logb (Nat.cast 2)
  log10 := Real.logb (Nat.cast 10)
  pow x y := x ^ y
  sin := Real.sin
  tanh := Real.tanh
  wrap := Int.fract
  whole x := ⌊x⌋₊
  nearest x := ⌊x + 1 / Nat.cast 2⌋₊
  natural_eq _ := rfl

/-- Noise turned over, at the level of a knob. -/
def negatedNoise : String := "Knob k()\nNoise n()\nk * -n => output"

private abbrev noiseProgram : Program := (Program.ofTokens (Token.scan negatedNoise)).program

private theorem lines_negatedNoise : noiseProgram.lines =
    [⟨.global, .construction ⟨⟨"Knob", ⟨0, 4⟩⟩, some ⟨"k", ⟨5, 6⟩⟩, [], ⟨0, 8⟩⟩⟩,
      ⟨.global, .construction ⟨⟨"Noise", ⟨9, 14⟩⟩, some ⟨"n", ⟨15, 16⟩⟩, [], ⟨9, 18⟩⟩⟩,
      ⟨.global, .chain (.binary .multiply (.name ⟨"k", ⟨19, 20⟩⟩)
        (.unary .minus (.name ⟨"n", ⟨24, 25⟩⟩) ⟨23, 25⟩) ⟨19, 25⟩) []
        (.name ⟨"output", ⟨29, 35⟩⟩) ⟨19, 35⟩⟩] := by
  cbv

private theorem places_negatedNoise :
    places (built noiseProgram : Building.State ℝ).shapes = List.range 12 := by
  rw [built_eq, lines_negatedNoise]
  rfl

private theorem graph_negatedNoise :
    (build catalog .standard noiseProgram : Outcome ℝ).graph =
      some ((built noiseProgram).graph .standard [11, 12, 10, 13, 4]) := by
  have hdependencies : (built noiseProgram : Building.State ℝ).objects.map Draft.dependencies =
      [[], [], [], [], [13, 13], [], [], [], [], [], [], [], [11], [12, 10]] := by
    rw [built_eq, lines_negatedNoise]
    rfl
  have hfaults : (built noiseProgram : Building.State ℝ).faults = [] := by
    rw [built_eq, lines_negatedNoise]
    rfl
  have hschedule : Graph.schedule [[], [], [], [], [13, 13], [], [], [], [], [], [], [], [11],
      [12, 10]] Builtin.outputObject = .ok [11, 12, 10, 13, 4] := by cbv
  rw [build_standard, State.finish, hfaults, hdependencies, hschedule]
  rfl

private theorem left_negatedNoise (order : List Nat) :
    ∃ n mix, ((built noiseProgram : Building.State ℝ).graph .standard order).nodes[4]? = some n ∧
      n.mixes.get? "left" = some mix := by
  rw [built_eq, lines_negatedNoise]
  exact ⟨_, _, rfl, rfl⟩

private theorem told_negatedNoise :
    ∃ t : Story ℝ, (evalLines catalog noiseProgram.lines).run (start inputClass outputClass) =
      some ((), t) ∧ t.objects[4]? = some outputClass ∧
        ∀ ρ, t.received 4 0 ρ = ρ 10 "output" * -ρ 11 "output" := by
  rw [lines_negatedNoise]
  refine ⟨_, rfl, rfl, fun ρ => ?_⟩
  show [ρ 10 "output" * -ρ 11 "output"].sum = _
  exact List.sum_singleton

/-- The left side of the final signal is the knob times the negative of the noise. -/
theorem build_preserves_meaning_negatedNoise :
    (Program.ofTokens (Token.scan negatedNoise)).faults = [] ∧
    (check catalog (Program.ofTokens (Token.scan negatedNoise)).program).faults = [] ∧
    ∃ g : Graph ℝ,
      (build catalog .standard (Program.ofTokens (Token.scan negatedNoise)).program).graph = some g ∧
      ∀ σ : Signals ℝ, (∀ id, 12 ≤ id → Computed 44100 0 σ g id) →
        ∃ n mix, g.nodes[4]? = some n ∧ n.mixes.get? "left" = some mix ∧
          total σ mix = σ 10 "output" * -σ 11 "output" := by
  have hread : (Program.ofTokens (Token.scan negatedNoise)).faults = [] := by cbv
  have hcheck : (check catalog noiseProgram).faults = [] := by cbv
  refine ⟨hread, hcheck, _, graph_negatedNoise, fun σ hσ => ?_⟩
  obtain ⟨t, hrun, _, _, h⟩ := build_preserves_meaning negatedNoise hread hcheck .standard _
    graph_negatedNoise 44100 0
  obtain ⟨t', hrun', houtput, hleft⟩ := told_negatedNoise
  obtain rfl : t' = t := by
    rw [hrun] at hrun'
    exact (Prod.mk.inj (Option.some.inj hrun')).2.symm
  obtain ⟨n, mix, hn, hmix⟩ := left_negatedNoise [11, 12, 10, 13, 4]
  rw [places_negatedNoise] at h
  have hoperators : ∀ id, id ∉ List.range 12 → Computed 44100 0 σ _ id :=
    fun id hid => hσ id (by simpa using hid)
  obtain ⟨i, hi, htotal⟩ := h σ hoperators 4 4 outputClass n rfl houtput hn "left" mix hmix
  rw [show outputClass.socketIndex? "left" = some 0 by decide] at hi
  obtain rfl := Option.some.inj hi
  exact ⟨n, mix, hn, hmix, htotal.trans (hleft _)⟩

end Patchbay.Meaning
