import Patchbay.Settings.Basic
import Patchbay.Yaml.Reader

/-! Settings from a YAML document. What is not set keeps its standard value; what is not known is
ignored. -/
namespace Patchbay

namespace Yaml
open Text

def text? (document y : Yaml) : Option String :=
  match document.target? y with
  | some (scalar _ _ _ text) => some text
  | _ => none

/-- The fields of a record, each if it is there. Every key of the mapping is a text, and each field
stands at most once. Nothing at all is a mapping without members. -/
def fields? (document : Yaml) (names : List String) (y : Yaml) : Option (List (Option Yaml)) :=
  match document.target? y with
  | some (scalar _ _ .plain "") => some (names.map fun _ => none)
  | some (mapping _ members) =>
    let named := members.map fun m => (document.text? m.1, m.2)
    if named.all (·.1.isSome) && names.all fun name => named.countP (·.1 == some name) ≤ 1 then
      some (names.map fun name => (named.find? (·.1 == some name)).map Prod.snd)
    else none
  | _ => none

/-- The text of a scalar that may be read as a value of another type: a plain one, or a block of
lines with the tag of the type. -/
def typedText? (document : Yaml) (tag : String) (y : Yaml) : Option String :=
  match document.target? y with
  | some (scalar _ _ .plain text) => some text
  | some (scalar _ (some t) .literal text) => if t = tag then some text else none
  | _ => none

def digitValue? (base : Nat) (c : Char) : Option Nat :=
  match hexValue? c with
  | some d => if d < base then some d else none
  | none => none

/-- A number by its digits, of which there is at least one. -/
def digits? (base : Nat) (cs : List Char) : Option Nat :=
  if cs.isEmpty then none
  else cs.foldlM (fun n c => (digitValue? base c).map (base * n + ·)) 0

/-- A natural number: decimal without leading zeros, or with a letter for its base behind a zero. A
plus sign may stand in front. -/
def number? (cs : List Char) : Option Nat :=
  let digits := if cs.head? = some '+' then cs.drop 1 else cs
  match digits with
  | '0' :: 'x' :: rest => digits? 16 rest
  | '0' :: 'o' :: rest => digits? 8 rest
  | '0' :: 'b' :: rest => digits? 2 rest
  | ['0'] => some 0
  | '0' :: _ => none
  | digits => digits? 10 digits

def natural? (document : Yaml) (bound : Nat) (y : Yaml) : Option Nat :=
  match document.typedText? "tag:yaml.org,2002:int" y with
  | none => none
  | some text =>
    match number? text.toList with
    | some n => if n < bound then some n else none
    | none => none

def bool? (document y : Yaml) : Option Bool :=
  match document.typedText? "tag:yaml.org,2002:bool" y with
  | none => none
  | some text =>
    if ["true", "True", "TRUE"].contains text then some true
    else if ["false", "False", "FALSE"].contains text then some false
    else none

def field? (standard : β) (read : Yaml → Option β) : Option Yaml → Option β
  | none => some standard
  | some value => read value

end Yaml

def EngineSettings.ofYaml? (document y : Yaml) : Option EngineSettings :=
  let s := EngineSettings.standard
  let word := document.natural? UInt64.size
  match document.fields? ["sample_rate", "voices", "seed", "block_size"] y with
  | some [sampleRate, voices, seed, blockSize] => do
    return ⟨← Yaml.field? s.sampleRate (document.natural? UInt32.size) sampleRate,
      ← Yaml.field? s.voices word voices, ← Yaml.field? s.seed word seed,
      ← Yaml.field? s.blockSize word blockSize⟩
  | _ => none

def Building.Options.ofYaml? (document y : Yaml) : Option Building.Options :=
  let s := Building.Options.standard
  match document.fields? ["remove_spans", "remove_aliases"] y with
  | some [removeSpans, removeAliases] => do
    return ⟨← Yaml.field? s.removeSpans document.bool? removeSpans,
      ← Yaml.field? s.removeAliases document.bool? removeAliases⟩
  | _ => none

namespace Settings

def ofYaml? (document : Yaml) : Option Settings :=
  match document.fields? ["engine", "compile"] document with
  | some [engine, compile] => do
    return ⟨← Yaml.field? .standard (EngineSettings.ofYaml? document) engine,
      ← Yaml.field? .standard (Building.Options.ofYaml? document) compile⟩
  | _ => none

def ofText? (text : String) : Option Settings := do ofYaml? (← Yaml.ofText? text)

end Patchbay.Settings
