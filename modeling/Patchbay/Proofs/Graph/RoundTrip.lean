import Patchbay.Graph.Json
import Patchbay.Proofs.Json.Record
import Patchbay.Proofs.SortedMap

/-! Graphs are read back from their text, and so is every graph that was read from some text. -/
namespace Patchbay
open Json.Number (ReadsBack)

/-- The numbers of a place fit into 64 bits. -/
def Span.Fits (s : Span) : Prop := s.start < UInt64.size ∧ s.stop < UInt64.size

instance (s : Span) : Decidable s.Fits := inferInstanceAs (Decidable (_ ∧ _))

namespace Contribution

def Fits {α : Type} : Contribution α → Prop
  | output object _ span => object < UInt64.size ∧ ∀ s ∈ span, s.Fits
  | constant _ span => ∀ s ∈ span, s.Fits

instance {α : Type} : (c : Contribution α) → Decidable c.Fits
  | output object _ span => inferInstanceAs (Decidable (object < _ ∧ ∀ s ∈ span, s.Fits))
  | constant _ span => inferInstanceAs (Decidable (∀ s ∈ span, s.Fits))

/-- The constant it is. -/
def constant? {α : Type} : Contribution α → Option α
  | output _ _ _ => none
  | constant value _ => some value

end Contribution

namespace Node
variable {α : Type}

structure Fits (n : Node α) : Prop where
  mixes : ∀ cs ∈ n.mixes.values, ∀ c ∈ cs, c.Fits
  span : ∀ s ∈ n.span, s.Fits

/-- The constants at the sockets. -/
def constants (n : Node α) : List α := n.mixes.values.flatten.filterMap Contribution.constant?

end Node

namespace Graph
variable {α : Type}

/-- All numbers of objects and places fit into 64 bits. -/
structure Fits (g : Graph α) : Prop where
  parameters : ∀ p ∈ g.parameters, p.object < UInt64.size
  nodes : ∀ n ∈ g.nodes, n.Fits
  order : ∀ object ∈ g.order, object < UInt64.size

/-- All constants at sockets of objects. -/
def constants (g : Graph α) : List α := g.nodes.flatMap Node.constants

end Graph

theorem Span.ofJson?_toJson {s : Span} (h : s.Fits) : Span.ofJson? s.toJson = some s := by
  have hfields : s.toJson.fields? ["start", "end"] =
      some [some (Json.ofNat s.start), some (Json.ofNat s.stop)] := by
    simp [toJson, Json.fields?, List.lookup_cons]
  simp [ofJson?, hfields, Json.natural?_ofNat h.1, Json.natural?_ofNat h.2]

namespace Graph

theorem optional?_spanMember {span : Option Span} (h : ∀ s ∈ span, s.Fits) :
    Json.optional? Span.ofJson? (span.map Span.toJson) = some span := by
  cases span with
  | none => rfl
  | some s =>
    have hread := Span.ofJson?_toJson (h s rfl)
    rw [Span.toJson] at hread
    rw [Option.map_some, Span.toJson, Json.optional?, hread]
    · rfl
    · exact Json.noConfusion

theorem membersArePlain_spanMember {span : Option Span} (h : ∀ s ∈ span, s.Fits) {depth : Nat}
    (hdepth : 0 < depth) : Json.membersArePlain depth (spanMember span) = true := by
  cases span with
  | none => rfl
  | some s =>
    obtain ⟨hstart, hstop⟩ := h s rfl
    simp [spanMember, Span.toJson, Json.membersArePlain, Json.memberIsPlain, Json.isPlain,
      Json.isPlain_ofNat hstart, Json.isPlain_ofNat hstop, hdepth]

/-- What a written reading of an output has beside its kind. -/
theorem kindOf?_output {object : Nat} {span : Option Span} (hobject : object < UInt64.size)
    (hspan : ∀ s ∈ span, s.Fits) (name : String) : ∃ rest,
      kindOf? (contributionJson (.output object name span)) = some ("output", rest) ∧
      rest.isPlain (unknownDepth + 1) = true ∧
      rest.fields? ["object", "output", "span"] =
        some [some (.ofNat object), some (.ofString name), span.map Span.toJson] := by
  refine ⟨.object ([(some "object", .ofNat object), (some "output", .ofString name)] ++
    spanMember span), ?_, ?_, ?_⟩
  · cases span <;> simp [kindOf?, contributionJson, spanMember, Json.ofString]
  · simp [Json.isPlain, Json.membersArePlain, Json.memberIsPlain, Json.isPlain_ofNat hobject,
      membersArePlain_spanMember hspan, unknownDepth, Json.ofString]
  · cases span <;> simp [spanMember, Json.fields?, List.lookup_cons]

theorem kindOf?_constant {x : Float} {span : Option Span} (hreads : ReadsBack x)
    (hspan : ∀ s ∈ span, s.Fits) : ∃ rest,
      kindOf? (contributionJson (.constant x span)) = some ("constant", rest) ∧
      rest.isPlain (unknownDepth + 1) = true ∧
      rest.fields? ["value", "span"] = some [some (.ofFloat x), span.map Span.toJson] := by
  refine ⟨.object ([(some "value", .ofFloat x)] ++ spanMember span), ?_, ?_, ?_⟩
  · cases span <;> simp [kindOf?, contributionJson, spanMember, Json.ofString]
  · simp [Json.isPlain, Json.membersArePlain, Json.memberIsPlain, Json.isPlain_ofFloat hreads,
      membersArePlain_spanMember hspan, unknownDepth]
  · cases span <;> simp [spanMember, Json.fields?, List.lookup_cons]

theorem contribution?_contributionJson {c : Contribution Float} (h : c.Fits)
    (hc : ∀ x ∈ c.constant?, x.isFinite = true ∧ ReadsBack x) :
    contribution? (contributionJson c) = some c := by
  cases c with
  | output object name span =>
    obtain ⟨hobject, hspan⟩ := h
    obtain ⟨rest, hkind, hplain, hfields⟩ := kindOf?_output hobject hspan name
    simp [contribution?, hkind, hplain, hfields, Json.natural?_ofNat hobject,
      optional?_spanMember hspan]
  | constant x span =>
    obtain ⟨hfinite, hreads⟩ := hc x rfl
    obtain ⟨rest, hkind, hplain, hfields⟩ := kindOf?_constant hreads h
    simp [contribution?, hkind, hplain, hfields, Json.float?_ofFloat hfinite hreads,
      optional?_spanMember h]

theorem mixes?_entries {m : SortedMap (List (Contribution Float))}
    (h : ∀ e ∈ m.entries, ∀ c ∈ e.2, contribution? (contributionJson c) = some c) :
    mixes? (.object (m.entries.map fun e => (some e.1, .array (e.2.map contributionJson)))) =
      some m := by
  have hread : (m.entries.map fun e =>
      (some e.1, Json.array (e.2.map contributionJson))).mapM (fun m => do
        return (← m.1, ← m.2.list? contribution?)) = some m.entries :=
    Json.mapM_map fun e he => by simp [Json.list?_map (h e he)]
  rw [mixes?, hread]
  exact congrArg some m.ofList_entries

theorem fields?_nodeJson (n : Node Float) :
    (nodeJson n).fields? ["class_name", "per_voice", "socket_mixes", "span"] =
      some [some (.ofString n.className), some (.bool n.perVoice),
        some (.object (n.mixes.entries.map fun e =>
          (some e.1, .array (e.2.map contributionJson)))), n.span.map Span.toJson] := by
  rw [nodeJson]
  cases n.span <;> simp [spanMember, Json.fields?, List.lookup_cons]

theorem node?_nodeJson {n : Node Float} (h : n.Fits)
    (hc : ∀ x ∈ n.constants, x.isFinite = true ∧ ReadsBack x) :
    node? (nodeJson n) = some n := by
  have hmixes := mixes?_entries (m := n.mixes) fun e he c hm => by
    have hvalue : e.2 ∈ n.mixes.values := List.mem_map_of_mem he
    refine contribution?_contributionJson (h.mixes _ hvalue c hm) fun x hx => hc x ?_
    exact List.mem_filterMap.mpr ⟨c, List.mem_flatten.mpr ⟨e.2, hvalue, hm⟩, hx⟩
  simp [node?, fields?_nodeJson, hmixes, Json.bool?, optional?_spanMember h.span]

theorem parameterOf?_parameterJson {p : Parameter} (h : p.object < UInt64.size) :
    parameterOf? (parameterJson p) = some p := by
  have hfields : (parameterJson p).fields? ["name", "object"] =
      some [some (.ofString p.name), some (.ofNat p.object)] := by
    simp [parameterJson, Json.fields?, List.lookup_cons]
  simp [parameterOf?, hfields, Json.natural?_ofNat h]

theorem fields?_toJson (g : Graph Float) :
    g.toJson.fields? ["user_input_names", "user_output_names", "user_per_voice_input_names",
      "parameters", "objects", "recalculation_order"] =
      some [some (.array (g.inputNames.map .ofString)), some (.array (g.outputNames.map .ofString)),
        some (.array (g.voiceInputNames.map .ofString)),
        some (.array (g.parameters.map parameterJson)), some (.array (g.nodes.map nodeJson)),
        some (.array (g.order.map .ofNat))] := by
  simp [toJson, Json.fields?, List.lookup_cons]

theorem ofJson?_toJson {g : Graph Float} (h : g.Fits)
    (hc : ∀ x ∈ g.constants, x.isFinite = true ∧ ReadsBack x) : ofJson? g.toJson = some g := by
  have hnames : ∀ names : List String,
      (Json.array (names.map .ofString)).list? Json.text? = some names := fun names =>
    Json.list?_map fun name _ => Json.text?_ofString name
  have hparameters := Json.list?_map fun p hp => parameterOf?_parameterJson (h.parameters p hp)
  have horder := Json.list?_map fun object hm => Json.natural?_ofNat (h.order object hm)
  have hnodes := Json.list?_map fun n hn => node?_nodeJson (h.nodes n hn) fun x hx =>
    hc x (List.mem_flatMap.mpr ⟨n, hn, hx⟩)
  simp [ofJson?, fields?_toJson, hnames, hparameters, hnodes, horder]

theorem proper_spanMember (span : Option Span) :
    ∀ m ∈ spanMember span, m.1.isSome = true ∧ m.2.Proper := by
  cases span <;> simp [spanMember, Span.toJson, Json.proper_object]

theorem proper_contributionJson {c : Contribution Float} (hc : ∀ x ∈ c.constant?, ReadsBack x) :
    (contributionJson c).Proper := by
  cases c with
  | output object name span =>
    refine Json.proper_object.mpr (List.forall_mem_append.mpr ⟨?_, proper_spanMember span⟩)
    simp
  | constant x span =>
    have hx := Json.proper_ofFloat (hc x rfl)
    refine Json.proper_object.mpr (List.forall_mem_append.mpr ⟨?_, proper_spanMember span⟩)
    simp [hx]

theorem proper_nodeJson {n : Node Float} (hc : ∀ x ∈ n.constants, ReadsBack x) :
    (nodeJson n).Proper := by
  have hmixes : ∀ e ∈ n.mixes.entries, ∀ c ∈ e.2, (contributionJson c).Proper := by
    intro e he c hm
    refine proper_contributionJson fun x hx => hc x (List.mem_filterMap.mpr ⟨c, ?_, hx⟩)
    exact List.mem_flatten.mpr ⟨e.2, List.mem_map_of_mem he, hm⟩
  refine Json.proper_object.mpr (List.forall_mem_append.mpr ⟨?_, proper_spanMember n.span⟩)
  simp only [List.forall_mem_cons, Option.isSome_some, true_and, Json.proper_ofString,
    Json.proper_bool, Json.proper_object, Json.proper_array, List.forall_mem_map]
  exact ⟨hmixes, by simp⟩

theorem proper_toJson {g : Graph Float} (hc : ∀ x ∈ g.constants, ReadsBack x) :
    g.toJson.Proper := by
  have hnodes : ∀ n ∈ g.nodes, (nodeJson n).Proper := fun n hn =>
    proper_nodeJson fun x hx => hc x (List.mem_flatMap.mpr ⟨n, hn, hx⟩)
  refine Json.proper_object.mpr ?_
  simpa [Json.proper_array, Json.proper_object, parameterJson] using hnodes

theorem ofText?_of_fits {g : Graph Float} (h : g.Fits)
    (hc : ∀ x ∈ g.constants, x.isFinite = true ∧ ReadsBack x) : ofText? g.toText = some g := by
  have htext := Json.ofText?_prettyText (proper_toJson fun x hx => (hc x hx).2)
  rw [ofText?, toText, htext]
  exact ofJson?_toJson h hc

theorem isFinite_of_contribution? {x : Float} {span : Option Span} (hreads : ReadsBack x)
    (hspan : ∀ s ∈ span, s.Fits) {c : Contribution Float}
    (h : contribution? (contributionJson (.constant x span)) = some c) : x.isFinite = true := by
  obtain ⟨rest, hkind, hplain, hfields⟩ := kindOf?_constant hreads hspan
  simp only [contribution?, hkind, hplain, hfields, if_true] at h
  obtain ⟨y, hy, _⟩ := Option.bind_eq_some_iff.mp h
  exact Json.isFinite_of_float?_ofFloat hy

theorem isFinite_of_node? {n n' : Node Float} (hfits : n.Fits)
    (hreads : ∀ x ∈ n.constants, ReadsBack x) (h : node? (nodeJson n) = some n') :
    ∀ x ∈ n.constants, x.isFinite = true := by
  intro x hx
  have hback := hreads x hx
  obtain ⟨c, hc, hx⟩ := List.mem_filterMap.mp hx
  obtain ⟨cs, hcs, hc⟩ := List.mem_flatten.mp hc
  obtain ⟨e, he, rfl⟩ := List.mem_map.mp hcs
  rw [node?, fields?_nodeJson] at h
  obtain ⟨_, _, h⟩ := Option.bind_eq_some_iff.mp h
  obtain ⟨_, _, h⟩ := Option.bind_eq_some_iff.mp h
  obtain ⟨mixes, hmixes, _⟩ := Option.bind_eq_some_iff.mp h
  obtain ⟨entries, hentries, _⟩ := Option.bind_eq_some_iff.mp hmixes
  obtain ⟨entry, hentry⟩ := Json.isSome_of_mapM hentries _ (List.mem_map_of_mem he)
  obtain ⟨_, _, hentry⟩ := Option.bind_eq_some_iff.mp hentry
  obtain ⟨read, hread, _⟩ := Option.bind_eq_some_iff.mp hentry
  obtain ⟨c', hc'⟩ := Json.isSome_of_mapM hread _ (List.mem_map_of_mem hc)
  cases c with
  | output object name span => cases hx
  | constant value span =>
    cases hx
    exact isFinite_of_contribution? hback (hfits.mixes _ hcs _ hc) hc'

/-- The text of a graph stands for it just if all constants are finite, and for no other graph. -/
theorem ofText?_toText_eq {g : Graph Float} (hfits : g.Fits)
    (hreads : ∀ x ∈ g.constants, ReadsBack x) :
    ofText? g.toText = if ∀ x ∈ g.constants, x.isFinite = true then some g else none := by
  split
  · next hfinite => exact ofText?_of_fits hfits fun x hx => ⟨hfinite x hx, hreads x hx⟩
  · next hinfinite =>
    refine Option.eq_none_iff_forall_not_mem.mpr fun g' hg' => hinfinite fun x hx => ?_
    rw [Option.mem_def, ofText?, toText, Json.ofText?_prettyText (proper_toJson hreads)] at hg'
    rw [Option.bind_eq_bind, Option.bind_some, ofJson?, fields?_toJson] at hg'
    obtain ⟨_, _, hg'⟩ := Option.bind_eq_some_iff.mp hg'
    obtain ⟨_, _, hg'⟩ := Option.bind_eq_some_iff.mp hg'
    obtain ⟨_, _, hg'⟩ := Option.bind_eq_some_iff.mp hg'
    obtain ⟨_, _, hg'⟩ := Option.bind_eq_some_iff.mp hg'
    obtain ⟨nodes, hnodes, _⟩ := Option.bind_eq_some_iff.mp hg'
    obtain ⟨n, hn, hx⟩ := List.mem_flatMap.mp hx
    obtain ⟨n', hn'⟩ := Json.isSome_of_mapM hnodes _ (List.mem_map_of_mem hn)
    exact isFinite_of_node? (hfits.nodes n hn)
      (fun y hy => hreads y (List.mem_flatMap.mpr ⟨n, hn, hy⟩)) hn' x hx

theorem fits_of_spanOfJson? {j : Json} {s : Span} (h : Span.ofJson? j = some s) : s.Fits := by
  rw [Span.ofJson?] at h
  split at h
  · obtain ⟨start, hstart, h⟩ := Option.bind_eq_some_iff.mp h
    obtain ⟨stop, hstop, h⟩ := Option.bind_eq_some_iff.mp h
    cases h
    exact ⟨Json.lt_of_natural? hstart, Json.lt_of_natural? hstop⟩
  · cases h

theorem fits_of_optional? {j : Option Json} {span : Option Span}
    (h : Json.optional? Span.ofJson? j = some span) : ∀ s ∈ span, s.Fits := by
  intro s hs
  obtain ⟨_, hread⟩ := Json.exists_of_optional? h s hs
  exact fits_of_spanOfJson? hread

theorem fits_of_contribution? {j : Json} {c : Contribution Float} (h : contribution? j = some c) :
    c.Fits ∧ ∀ x ∈ c.constant?, x.isFinite = true := by
  rw [contribution?] at h
  split at h
  · cases h
  · split at h
    · split at h
      · split at h
        · obtain ⟨object, hobject, h⟩ := Option.bind_eq_some_iff.mp h
          obtain ⟨name, _, h⟩ := Option.bind_eq_some_iff.mp h
          obtain ⟨span, hspan, h⟩ := Option.bind_eq_some_iff.mp h
          cases h
          exact ⟨⟨Json.lt_of_natural? hobject, fits_of_optional? hspan⟩, by rintro x ⟨⟩⟩
        · cases h
      · split at h
        · obtain ⟨x, hx, h⟩ := Option.bind_eq_some_iff.mp h
          obtain ⟨span, hspan, h⟩ := Option.bind_eq_some_iff.mp h
          cases h
          refine ⟨fits_of_optional? hspan, ?_⟩
          rintro _ ⟨⟩
          exact Json.isFinite_of_float? hx
        · cases h
      · cases h
    · cases h

theorem fits_of_mixes? {j : Json} {m : SortedMap (List (Contribution Float))}
    (h : mixes? j = some m) :
    ∀ cs ∈ m.values, ∀ c ∈ cs, c.Fits ∧ ∀ x ∈ c.constant?, x.isFinite = true := by
  cases j with
  | object members =>
    obtain ⟨entries, hentries, h⟩ := Option.bind_eq_some_iff.mp h
    cases h
    intro cs hcs c hc
    obtain ⟨e, he, rfl⟩ := List.mem_map.mp hcs
    obtain ⟨member, hread⟩ := Json.exists_of_mapM hentries e (SortedMap.mem_ofList he)
    obtain ⟨name, _, hread⟩ := Option.bind_eq_some_iff.mp hread
    obtain ⟨cs, hlist, hread⟩ := Option.bind_eq_some_iff.mp hread
    cases hread
    obtain ⟨item, hitem⟩ := Json.exists_of_list? hlist c hc
    exact fits_of_contribution? hitem
  | _ => cases h

theorem fits_of_node? {j : Json} {n : Node Float} (h : node? j = some n) :
    n.Fits ∧ ∀ x ∈ n.constants, x.isFinite = true := by
  rw [node?] at h
  split at h
  · obtain ⟨className, _, h⟩ := Option.bind_eq_some_iff.mp h
    obtain ⟨perVoice, _, h⟩ := Option.bind_eq_some_iff.mp h
    obtain ⟨mixes, hmixes, h⟩ := Option.bind_eq_some_iff.mp h
    obtain ⟨span, hspan, h⟩ := Option.bind_eq_some_iff.mp h
    cases h
    have hfits := fits_of_mixes? hmixes
    refine ⟨⟨fun cs hcs c hc => (hfits cs hcs c hc).1, fits_of_optional? hspan⟩, fun x hx => ?_⟩
    obtain ⟨c, hc, hx⟩ := List.mem_filterMap.mp hx
    obtain ⟨cs, hcs, hc⟩ := List.mem_flatten.mp hc
    exact (hfits cs hcs c hc).2 x hx
  · cases h

theorem lt_of_parameterOf? {j : Json} {p : Parameter} (h : parameterOf? j = some p) :
    p.object < UInt64.size := by
  rw [parameterOf?] at h
  split at h
  · obtain ⟨name, _, h⟩ := Option.bind_eq_some_iff.mp h
    obtain ⟨object, hobject, h⟩ := Option.bind_eq_some_iff.mp h
    cases h
    exact Json.lt_of_natural? hobject
  · cases h

theorem fits_of_ofJson? {j : Json} {g : Graph Float} (h : ofJson? j = some g) :
    g.Fits ∧ ∀ x ∈ g.constants, x.isFinite = true := by
  rw [ofJson?] at h
  split at h
  · obtain ⟨inputs, _, h⟩ := Option.bind_eq_some_iff.mp h
    obtain ⟨outputs, _, h⟩ := Option.bind_eq_some_iff.mp h
    obtain ⟨voiceInputs, _, h⟩ := Option.bind_eq_some_iff.mp h
    obtain ⟨parameters, hparameters, h⟩ := Option.bind_eq_some_iff.mp h
    obtain ⟨nodes, hnodes, h⟩ := Option.bind_eq_some_iff.mp h
    obtain ⟨order, horder, h⟩ := Option.bind_eq_some_iff.mp h
    cases h
    have hfits : ∀ n ∈ nodes, n.Fits ∧ ∀ x ∈ n.constants, x.isFinite = true := by
      intro n hn
      obtain ⟨_, hread⟩ := Json.exists_of_list? hnodes n hn
      exact fits_of_node? hread
    refine ⟨⟨fun p hp => ?_, fun n hn => (hfits n hn).1, fun object hm => ?_⟩, fun x hx => ?_⟩
    · obtain ⟨_, hread⟩ := Json.exists_of_list? hparameters p hp
      exact lt_of_parameterOf? hread
    · obtain ⟨_, hread⟩ := Json.exists_of_list? horder object hm
      exact Json.lt_of_natural? hread
    · obtain ⟨n, hn, hx⟩ := List.mem_flatMap.mp hx
      exact (hfits n hn).2 x hx
  · cases h

theorem fits_of_ofText? {text : String} {g : Graph Float} (h : ofText? text = some g) :
    g.Fits ∧ ∀ x ∈ g.constants, x.isFinite = true := by
  obtain ⟨j, _, h⟩ := Option.bind_eq_some_iff.mp h
  exact fits_of_ofJson? h

/-- A graph of finite constants is read back from its text, and so is every graph that was read
from any text: writing it again gives a text that stands for it. This takes for granted that the
digits of a finite constant read back to it. -/
theorem ofText?_toText :
    (∀ g : Graph Float, g.Fits → (∀ x ∈ g.constants, x.isFinite = true) →
      (∀ x ∈ g.constants, ReadsBack x) → ofText? g.toText = some g) ∧
    (∀ (text : String) (g : Graph Float), ofText? text = some g →
      (∀ x ∈ g.constants, ReadsBack x) → ofText? g.toText = some g) := by
  constructor
  · intro g hfits hfinite hreads
    exact ofText?_of_fits hfits fun x hx => ⟨hfinite x hx, hreads x hx⟩
  · intro text g hread hreads
    obtain ⟨hfits, hfinite⟩ := fits_of_ofText? hread
    exact ofText?_of_fits hfits fun x hx => ⟨hfinite x hx, hreads x hx⟩

/-- A graph with everything that is hard to write: escaped and non-ASCII names, the largest number
of an object, a negative zero, places that are there and places that are not, empty lists. -/
def intricate : Graph Float where
  inputNames := ["\"é\"\n\x01", ""]
  outputNames := []
  voiceInputNames := ["𝄞"]
  parameters := [⟨"a\\b", 18446744073709551615⟩]
  nodes := [
    { className := "Zähler"
      perVoice := true
      mixes := ⟨[("", [.constant (-0.0) none]),
        ("in", [.output 18446744073709551615 "out" (some ⟨0, 18446744073709551615⟩),
          .constant 0.1 (some ⟨3, 6⟩)]), ("last", [])], by decide +kernel⟩
      span := some ⟨1, 2⟩ },
    { className := "", perVoice := false, mixes := .empty, span := none }]
  order := [1, 0]

/-- A value that stands for a graph although no graph is written so: places are null, a constant is
a whole number and the members come in another order. -/
def untidy : Json :=
  .object [(some "recalculation_order", .array [.ofNat 0]), (some "user_input_names", .array []),
    (some "user_output_names", .array []), (some "user_per_voice_input_names", .array []),
    (some "parameters", .array []), (some "objects", .array [.object [(some "span", .null),
      (some "class_name", .ofString "Zähler"), (some "per_voice", .bool true),
      (some "socket_mixes", .object [(some "in", .array [.object [(some "value", .ofNat 1),
        (some "type", .ofString "constant"), (some "span", .null)]])])]])]

/-- The graph that the untidy value stands for. -/
def tidied : Graph Float where
  inputNames := []
  outputNames := []
  voiceInputNames := []
  parameters := []
  nodes := [⟨"Zähler", true, ⟨[("in", [.constant 1.0 none])], List.pairwise_singleton _ _⟩, none⟩]
  order := [0]

theorem ofText?_toText_intricate :
    (intricate.Fits ∧ (∀ x ∈ intricate.constants, x.isFinite = true) ∧
      (∀ x ∈ intricate.constants, ReadsBack x) ∧ ofText? intricate.toText = some intricate) ∧
    (ofText? untidy.prettyText = some tidied ∧ (∀ x ∈ tidied.constants, ReadsBack x) ∧
      ofText? tidied.toText = some tidied) := by
  have hmixes : ∀ n ∈ intricate.nodes, ∀ cs ∈ n.mixes.values, ∀ c ∈ cs, c.Fits := by decide
  have hspans : ∀ n ∈ intricate.nodes, ∀ s ∈ n.span, s.Fits := by decide
  have hfits : intricate.Fits :=
    ⟨by decide, fun n hn => ⟨hmixes n hn, hspans n hn⟩, by decide⟩
  have hfinite : ∀ x ∈ intricate.constants, x.isFinite = true := by decide +kernel
  have hreads : ∀ x ∈ intricate.constants, ReadsBack x := by decide +kernel
  have huntidy : untidy.Proper := by
    simp [untidy, Json.proper_object, Json.proper_array, Json.Proper.null]
  have htidied : ofText? untidy.prettyText = some tidied := by
    rw [ofText?, Json.ofText?_prettyText huntidy]
    rfl
  have hone : ∀ x ∈ tidied.constants, ReadsBack x := by decide +kernel
  exact ⟨⟨hfits, hfinite, hreads, ofText?_toText.1 intricate hfits hfinite hreads⟩,
    htidied, hone, ofText?_toText.2 untidy.prettyText tidied htidied hone⟩

end Graph
end Patchbay
