import Patchbay.Command.Basic
import Patchbay.Decimal.Reader
import Patchbay.Text.Blank

/-! Reading a command from its arguments: the name of a task, the file of a patch, and options in
any place after the task. -/
namespace Patchbay.Command

inductive Key where
  | settings
  | out
  | note
  | velocity
  | length
  | hold
  | value
  deriving Repr, DecidableEq

namespace Key

def ofName? : String → Option Key
  | "config" => some settings
  | "out" => some out
  | "note" => some note
  | "velocity" => some velocity
  | "seconds" => some length
  | "hold" => some hold
  | "set" => some value
  | _ => none

def ofLetter? : Char → Option Key
  | 'o' => some out
  | 'n' => some note
  | 's' => some length
  | _ => none

end Key

/-- One part of a command: a word that stands alone, or an option and its value. -/
inductive Part where
  | word (text : String)
  | option (key : Key) (value : String)
  deriving Repr, DecidableEq

inductive Opening where
  | word
  | wordsOnly
  /-- It asks for more messages, which has no influence on the answer. -/
  | talkative
  | complete (key : Key) (value : String)
  | awaiting (key : Key)
  | unknown
  deriving Repr, DecidableEq

/-- How an argument of letters behind a single dash starts a part. A letter with a value takes all
that follows it, without the sign of equality in front. -/
def lettersOpening : List Char → Opening
  | [] => .talkative
  | 'v' :: rest => lettersOpening rest
  | c :: rest =>
    match Key.ofLetter? c, rest with
    | none, _ => .unknown
    | some key, [] => .awaiting key
    | some key, '=' :: value => .complete key (String.ofList value)
    | some key, value => .complete key (String.ofList value)

def nameOpening (cs : List Char) : Opening :=
  let name := cs.takeWhile (· ≠ '=')
  let value := cs.drop name.length
  if name = "verbose".toList then (if value.isEmpty then .talkative else .unknown)
  else
    match Key.ofName? (String.ofList name) with
    | none => .unknown
    | some key =>
      if value.isEmpty then .awaiting key else .complete key (String.ofList (value.drop 1))

def opening (argument : String) : Opening :=
  match argument.toList with
  | ['-', '-'] => .wordsOnly
  | '-' :: '-' :: name => nameOpening name
  | ['-'] => .word
  | '-' :: letters => lettersOpening letters
  | _ => .word

/-- The parts of a command. A value that is the next argument does not look like an option. -/
def parts? : List String → Option (List Part)
  | [] => some []
  | argument :: rest =>
    match opening argument, rest with
    | .word, rest => (parts? rest).map (.word argument :: ·)
    | .wordsOnly, rest => some (rest.map .word)
    | .talkative, rest => parts? rest
    | .complete key value, rest => (parts? rest).map (.option key value :: ·)
    | .awaiting key, value :: rest =>
      if opening value = .word then (parts? rest).map (.option key value :: ·) else none
    | .awaiting _, [] => none
    | .unknown, _ => none

def wordsOf (parts : List Part) : List String :=
  parts.filterMap fun
    | .word text => some text
    | .option _ _ => none

def valuesOf (key : Key) (parts : List Part) : List String :=
  parts.filterMap fun
    | .option k value => if k = key then some value else none
    | .word _ => none

/-- Whether a part may be there for a task other than rendering. -/
def isCommon : Part → Bool
  | .option key _ => key = .settings
  | .word _ => true

/-- An option that is given at most once, with its value if it is not given. -/
def single? (key : Key) (absent : β) (read : String → Option β) (parts : List Part) : Option β :=
  match valuesOf key parts with
  | [] => some absent
  | [value] => read value
  | _ => none

def path? (text : String) : Option String := if text.isEmpty then none else some text

def note? (text : String) : Option Nat :=
  match Decimal.integer? text.toList with
  | some n => if 0 ≤ n && n < 256 then some n.toNat else none
  | none => none

def float? (text : String) : Option Float := Decimal.value? text.toList

/-- A parameter and its value, with a sign of equality between them. -/
def assignment? (text : String) : Option (String × Float) :=
  let cs := text.toList
  let name := cs.takeWhile (· ≠ '=')
  match cs.drop name.length with
  | [] => none
  | _ :: value =>
    (Decimal.value? (Text.trim value)).map (String.ofList (Text.trim name), ·)

def Rendering.ofParts? (parts : List Part) : Option Rendering := do
  let out ← single? .out none (fun text => (path? text).map some) parts
  return {
    out := ← out
    note := ← single? .note 60 note? parts
    velocity := ← single? .velocity 1.0 float? parts
    length := ← single? .length 2.0 float? parts
    hold := ← single? .hold 1.0 float? parts
    values := ← (valuesOf .value parts).mapM assignment? }

def Task.ofParts? (name : String) (parts : List Part) : Option Task :=
  match name with
  | "check" => if parts.all isCommon then some .check else none
  | "ir" => if parts.all isCommon then some .graph else none
  | "render" => (Rendering.ofParts? parts).map .render
  | _ => none

/-- The command that arguments ask for. Options of a task stand behind its name. -/
def ofArguments? (arguments : List String) : Option Command := do
  let parts ← parts? arguments
  match wordsOf parts with
  | [name, patch] =>
    let beforeTask := parts.takeWhile fun
      | .option _ _ => true
      | .word _ => false
    if !beforeTask.all isCommon then none
    else return {
      settings := ← single? .settings none (fun text => (path? text).map some) parts
      patch := ← path? patch
      task := ← Task.ofParts? name parts }
  | _ => none

end Patchbay.Command
