import Mathlib.Data.List.Permutation
import Patchbay.Compilation
import Patchbay.Proofs.Building.Origin
import Patchbay.Proofs.Graph.RoundTrip

/-! Compiled graphs as text. A graph of finite constants is read back from its text, and every
constant is folded from literals of the patch. -/
namespace Patchbay
open Json.Number (ReadsBack)

namespace Token

/-- A literal of a patch text. -/
def IsLiteral (source : String) (value : Float) (unit : String) : Prop :=
  ∃ span, ⟨.number value unit, span⟩ ∈ scan source

/-- What programs are made of that are read from a text. -/
def material (source : String) : Material where
  literal := IsLiteral source
  place span := span.start ≤ source.length ∧ span.stop ≤ source.length
  join := by
    rintro ⟨start, stop⟩ ⟨start', stop'⟩ ⟨h, h'⟩ ⟨hother, hother'⟩
    exact ⟨(Nat.min_le_left _ _).trans h, Nat.max_le.mpr ⟨h', hother'⟩⟩

theorem covers_scan (source : String) : Grammar.Covers (material source) (scan source) := by
  intro t ht
  obtain ⟨hstart, hstop⟩ := (scanFrom_within 0 source.toList).2 t ht
  rw [Nat.zero_add, String.length_toList] at hstart hstop
  refine ⟨⟨hstart, hstop⟩, ?_⟩
  rintro value unit hkind
  obtain ⟨kind, span⟩ := t
  cases hkind
  exact ⟨span, ht⟩

end Token

namespace Building

/-- A graph with few objects that is made of a short text fits. -/
theorem fits_of_made {o : Options} {g : Graph Float} {m : Material}
    (hg : WellFormed Library.standard.catalog o g) (hmade : ∀ n ∈ g.nodes, MadeNode m n)
    (hplace : ∀ span, m.place span → span.Fits) (hlength : g.nodes.length ≤ UInt64.size) :
    g.Fits := by
  have hobject : ∀ {object : Nat}, object < g.nodes.length → object < UInt64.size := fun h =>
    Nat.lt_of_lt_of_le h hlength
  refine ⟨fun p hp => hobject (hg.parameters p hp), fun n hn => ⟨fun mix hmix c hc => ?_, fun s hs =>
    hplace s ((hmade n hn).span s hs)⟩, fun object hm => hobject (hg.lt_of_mem_order hm)⟩
  have hc' := (hmade n hn).mixes mix hmix c hc
  cases c with
  | constant value span => exact fun s hs => hplace s (hc'.2 s hs)
  | output object name span =>
    obtain ⟨_, _, hthere, _⟩ := hg.contributions n hn mix hmix object name span hc
    exact ⟨hobject (List.getElem?_eq_some_iff.mp hthere).1, fun s hs => hplace s (hc' s hs)⟩

theorem folded_of_made {g : Graph Float} {m : Material} (hmade : ∀ n ∈ g.nodes, MadeNode m n) :
    ∀ x ∈ g.constants, Folded m.literal x := by
  intro x hx
  obtain ⟨n, hn, hx⟩ := List.mem_flatMap.mp hx
  obtain ⟨c, hc, hx⟩ := List.mem_filterMap.mp hx
  obtain ⟨mix, hmix, hc⟩ := List.mem_flatten.mp hc
  have hc' := (hmade n hn).mixes mix hmix c hc
  cases c with
  | output object name span => cases hx
  | constant value span =>
    cases hx
    exact hc'.1

end Building

namespace Compilation
open Building

/-- What a text compiles to fits, as no text has `2 ^ 63` characters or more, and its constants are
folded from literals of the text. -/
theorem fits_of_ofText {o : Options} {source : String} (hsource : source.length < 2 ^ 63)
    {g : Graph Float} (hg : (ofText Library.standard.catalog o source).graph? = some g) :
    g.Fits ∧ ∀ x ∈ g.constants, Folded (Token.IsLiteral source) x := by
  obtain ⟨hfaults, _, hbuild⟩ := stages_of_graph? hg
  obtain ⟨hexprs, hsize⟩ := (Program.text_ofTokens hfaults).drawnAll (m := Token.material source)
  obtain ⟨hmade, hlength⟩ := made_of_build (hexprs (Token.covers_scan source)) hbuild
  have htokens : (Token.scan source).length ≤ source.length :=
    source.length_toList ▸ (Token.scanFrom_within 0 source.toList).1
  have hten : Builtin.objectCount = 10 := rfl
  have hwidth : UInt64.size = 2 ^ 64 := rfl
  have hcount : g.nodes.length ≤ UInt64.size := by omega
  have hplace : ∀ span, (Token.material source).place span → span.Fits := by
    rintro span ⟨hstart, hstop⟩
    constructor <;> omega
  exact ⟨fits_of_made (wellFormed_of_build hbuild) hmade hplace hcount, folded_of_made hmade⟩

/-- A text whose graph has the built-in objects alone, of which the output reads no other. -/
private theorem ofText_of_constants {source : String} {program : Program}
    (hread : Program.ofTokens (Token.scan source) = ⟨program, []⟩)
    (hcheck : (Checking.check Library.standard.catalog program).faults = [])
    (hfaults : (built program : State Float).faults = [])
    (hdependencies : (built program : State Float).objects.map Draft.dependencies =
      List.replicate 10 [])
    (hwarnings : (built program : State Float).warnings ++
      (built program : State Float).unconnected [4] = []) :
    (ofText Library.standard.catalog .standard source).graph? =
        some ((built program : State Float).graph .standard [4]) ∧
      (ofText (α := Float) Library.standard.catalog .standard source).diagnostics = [] := by
  have hschedule : Graph.schedule (List.replicate 10 []) Builtin.outputObject = .ok [4] := by cbv
  have hfinish : (built program : State Float).finish .standard =
      ⟨some ((built program).graph .standard [4]), [], []⟩ := by
    rw [State.finish, hfaults, hdependencies, hschedule, ← hwarnings]
    rfl
  rw [graph?, diagnostics, ofText]
  dsimp only
  rw [hread, hcheck, build_standard, hfinish]
  exact ⟨rfl, rfl⟩

/-- The graph that a text compiles to is read back from its own text if all its constants are finite;
if not, its text stands for no graph at all. Each constant is a literal of the patch on the scale of
signals, or the negative or product of such. It is taken for granted that the digits of a finite
constant read back to it. -/
theorem ofText_roundTrip (o : Options) {source : String} (hsource : source.length < 2 ^ 63)
    {g : Graph Float} (hg : (ofText Library.standard.catalog o source).graph? = some g)
    (hreads : ∀ x ∈ g.constants, ReadsBack x) :
    (∀ x ∈ g.constants, Folded (Token.IsLiteral source) x) ∧
    Graph.ofText? g.toText =
      if ∀ x ∈ g.constants, x.isFinite = true then some g else none := by
  obtain ⟨hfits, hfolded⟩ := fits_of_ofText hsource hg
  exact ⟨hfolded, Graph.ofText?_toText_eq hfits hreads⟩

/-- A constant that is folded from two literals. -/
def faint : String := "-0.5 * 0.25 => output"

private def faintProgram (x y : Float) : Program :=
  ⟨[⟨.global, .chain (.binary .multiply (.unary .minus (.number x "" ⟨1, 4⟩) ⟨0, 4⟩)
    (.number y "" ⟨7, 11⟩) ⟨0, 11⟩) [] (.name ⟨"output", ⟨15, 21⟩⟩) ⟨0, 21⟩⟩]⟩

theorem ofText_roundTrip_faint :
    ∃ g, faint.length < 2 ^ 63 ∧
      (ofText Library.standard.catalog .standard faint).graph? = some g ∧
      (∀ x ∈ g.constants, ReadsBack x) ∧ g.constants = [-0.5 * 0.25, -0.5 * 0.25] ∧
      (∀ x ∈ g.constants, Folded (Token.IsLiteral faint) x) ∧
      Graph.ofText? g.toText = some g := by
  have hsource : faint.length < 2 ^ 63 := by decide
  have hscan : Token.scan faint =
      [⟨.operator .minus, ⟨0, 1⟩⟩, ⟨.number 0.5 "", ⟨1, 4⟩⟩, ⟨.operator .star, ⟨5, 6⟩⟩,
        ⟨.number 0.25 "", ⟨7, 11⟩⟩, ⟨.operator .arrow, ⟨12, 14⟩⟩, ⟨.name "output", ⟨15, 21⟩⟩] := by
    decide +kernel
  have hread : ∀ x y, Program.ofTokens
      [⟨.operator .minus, ⟨0, 1⟩⟩, ⟨.number x "", ⟨1, 4⟩⟩, ⟨.operator .star, ⟨5, 6⟩⟩,
        ⟨.number y "", ⟨7, 11⟩⟩, ⟨.operator .arrow, ⟨12, 14⟩⟩, ⟨.name "output", ⟨15, 21⟩⟩] =
      ⟨faintProgram x y, []⟩ := by
    intro x y
    cbv
  obtain ⟨hgraph, _⟩ := ofText_of_constants (hscan ▸ hread 0.5 0.25) rfl
    (by rw [built_eq]; decide +kernel) (by rw [built_eq]; decide +kernel)
    (by rw [built_eq]; decide +kernel)
  generalize hg : (built (faintProgram 0.5 0.25) : State Float).graph .standard [4] = g at hgraph
  have hconstants : g.constants = [-0.5 * 0.25, -0.5 * 0.25] := by
    rw [← hg, built_eq]
    decide +kernel
  have hreads : ∀ x ∈ g.constants, ReadsBack x := by
    rw [hconstants]
    decide +kernel
  have hfinite : ∀ x ∈ g.constants, x.isFinite = true := by
    rw [hconstants]
    decide +kernel
  obtain ⟨hfolded, hback⟩ := ofText_roundTrip .standard hsource hgraph hreads
  rw [if_pos hfinite] at hback
  exact ⟨g, hsource, hgraph, hreads, hconstants, hfolded, hback⟩

/-- A literal beyond the largest number. -/
def endless : String := "1e999 => output"

private def endlessProgram (x : Float) : Program :=
  ⟨[⟨.global, .chain (.number x "" ⟨0, 5⟩) [] (.name ⟨"output", ⟨9, 15⟩⟩) ⟨0, 15⟩⟩]⟩

/-- It compiles without a finding to a constant that is not finite, and no graph can be read from
the text of its graph. -/
theorem ofText?_toText_endless :
    (ofText (α := Float) Library.standard.catalog .standard endless).diagnostics = [] ∧
    ∃ g, (ofText Library.standard.catalog .standard endless).graph? = some g ∧
      g.constants = [1.0 / 0.0, 1.0 / 0.0] ∧ Graph.ofText? g.toText = none := by
  have hscan : Token.scan endless =
      [⟨.number (1.0 / 0.0) "", ⟨0, 5⟩⟩, ⟨.operator .arrow, ⟨6, 8⟩⟩,
        ⟨.name "output", ⟨9, 15⟩⟩] := by
    decide +kernel
  have hread : ∀ x, Program.ofTokens [⟨.number x "", ⟨0, 5⟩⟩, ⟨.operator .arrow, ⟨6, 8⟩⟩,
      ⟨.name "output", ⟨9, 15⟩⟩] = ⟨endlessProgram x, []⟩ := by
    intro x
    cbv
  obtain ⟨hgraph, hsilent⟩ := ofText_of_constants (hscan ▸ hread (1.0 / 0.0)) rfl
    (by rw [built_eq]; decide +kernel) (by rw [built_eq]; decide +kernel)
    (by rw [built_eq]; decide +kernel)
  generalize hg : (built (endlessProgram (1.0 / 0.0)) : State Float).graph .standard [4] = g
    at hgraph
  have hconstants : g.constants = [1.0 / 0.0, 1.0 / 0.0] := by
    rw [← hg, built_eq]
    decide +kernel
  have hinfinite : ∀ x ∈ g.constants, x.isFinite = false := by
    rw [hconstants]
    decide +kernel
  have hreads : ∀ x ∈ g.constants, ReadsBack x := fun x hx h => by
    rw [hinfinite x hx] at h
    cases h
  have hnone : ¬ ∀ x ∈ g.constants, x.isFinite = true := by
    rw [hconstants]
    decide +kernel
  have hback := Graph.ofText?_toText_eq (fits_of_ofText (by decide) hgraph).1 hreads
  rw [if_neg hnone] at hback
  exact ⟨hsilent, g, hgraph, hconstants, hback⟩

end Compilation
end Patchbay
