import Patchbay.Graph.Basic
import Patchbay.Json.Number
import Patchbay.Json.Printer
import Patchbay.Json.Reader
import Patchbay.Json.Record

/-! Graphs as JSON. Places are left out where there are none. -/
namespace Patchbay

def Span.toJson (s : Span) : Json :=
  .object [(some "start", .ofNat s.start), (some "end", .ofNat s.stop)]

def Span.ofJson? (j : Json) : Option Span :=
  match j.fields? ["start", "end"] with
  | some [some start, some stop] => do return ⟨← start.natural?, ← stop.natural?⟩
  | _ => none

namespace Graph

/-- A place as the last member of an object, if there is one. -/
def spanMember : Option Span → List (Option String × Json)
  | none => []
  | some s => [(some "span", s.toJson)]

def contributionJson : Contribution Float → Json
  | .output object name span =>
    .object ([(some "type", .ofString "output"), (some "object", .ofNat object),
      (some "output", .ofString name)] ++ spanMember span)
  | .constant value span =>
    .object ([(some "type", .ofString "constant"), (some "value", .ofFloat value)] ++
      spanMember span)

def nodeJson (n : Node Float) : Json :=
  .object ([(some "class_name", .ofString n.className), (some "per_voice", .bool n.perVoice),
    (some "socket_mixes",
      .object (n.mixes.entries.map fun e => (some e.1, .array (e.2.map contributionJson))))] ++
    spanMember n.span)

def parameterJson (p : Parameter) : Json :=
  .object [(some "name", .ofString p.name), (some "object", .ofNat p.object)]

def toJson (g : Graph Float) : Json :=
  .object [
    (some "user_input_names", .array (g.inputNames.map .ofString)),
    (some "user_output_names", .array (g.outputNames.map .ofString)),
    (some "user_per_voice_input_names", .array (g.voiceInputNames.map .ofString)),
    (some "parameters", .array (g.parameters.map parameterJson)),
    (some "objects", .array (g.nodes.map nodeJson)),
    (some "recalculation_order", .array (g.order.map .ofNat))]

def unknownDepth : Nat := 121

/-- The kind of a contribution and what else is in it. The kind is the member `type` of an object,
or the first item of an array. -/
def kindOf? : Json → Option (String × Json)
  | .object members =>
    match members.filter (·.1 == some "type") with
    | [(_, .string (some kind))] => some (kind, .object (members.filter (·.1 != some "type")))
    | _ => none
  | .array (.string (some kind) :: rest) => some (kind, .array rest)
  | _ => none

/-- A contribution. Members that mean nothing have to be plain values all the same. -/
def contribution? (j : Json) : Option (Contribution Float) :=
  match kindOf? j with
  | none => none
  | some (kind, rest) =>
    if rest.isPlain (unknownDepth + 1) then
      match kind with
      | "output" =>
        match rest.fields? ["object", "output", "span"] with
        | some [some object, some name, span] => do
          return .output (← object.natural?) (← name.text?) (← Json.optional? Span.ofJson? span)
        | _ => none
      | "constant" =>
        match rest.fields? ["value", "span"] with
        | some [some value, span] => do
          return .constant (← value.float?) (← Json.optional? Span.ofJson? span)
        | _ => none
      | _ => none
    else none

/-- The contributions to each socket. Of two lists for one socket the later one counts. -/
def mixes? : Json → Option (SortedMap (List (Contribution Float)))
  | .object members => do
    let entries ← members.mapM fun m => do
      return (← m.1, ← m.2.list? contribution?)
    return .ofList entries
  | _ => none

def node? (j : Json) : Option (Node Float) :=
  match j.fields? ["class_name", "per_voice", "socket_mixes", "span"] with
  | some [some className, some perVoice, some mixes, span] => do
    return ⟨← className.text?, ← perVoice.bool?, ← mixes? mixes, ← Json.optional? Span.ofJson? span⟩
  | _ => none

def parameterOf? (j : Json) : Option Parameter :=
  match j.fields? ["name", "object"] with
  | some [some name, some object] => do return ⟨← name.text?, ← object.natural?⟩
  | _ => none

def ofJson? (j : Json) : Option (Graph Float) :=
  match j.fields? ["user_input_names", "user_output_names", "user_per_voice_input_names",
    "parameters", "objects", "recalculation_order"] with
  | some [some inputs, some outputs, some voiceInputs, some parameters, some nodes,
      some order] => do
    return ⟨← inputs.list? Json.text?, ← outputs.list? Json.text?, ← voiceInputs.list? Json.text?,
      ← parameters.list? parameterOf?, ← nodes.list? node?, ← order.list? Json.natural?⟩
  | _ => none

def toText (g : Graph Float) : String := g.toJson.prettyText

def ofText? (text : String) : Option (Graph Float) := do ofJson? (← Json.ofText? text)

end Patchbay.Graph
