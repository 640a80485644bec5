import Patchbay.Command.Basic
import Patchbay.Compilation
import Patchbay.Engine.Performance
import Patchbay.Graph.Json
import Patchbay.Library.Standard
import Patchbay.Recording
import Patchbay.Settings.Yaml
import Patchbay.Text.Quoted

/-! What a command answers, given the texts of the files that it reads. -/
namespace Patchbay.Command
open Text

/-- The texts of the files that a command reads. -/
structure Files where
  settings : Option String
  homeSettings : Option String
  patch : Except String String

/-- Why a command fails beyond what is said about the patch. -/
inductive Failure where
  | settingsUnreadable
  | settingsInvalid
  | patchUnreadable (path reason : String)
  | unplayable (fault : Engine.Fault)
  | unknownParameter (name : String)
  deriving Repr, DecidableEq

def recordText (name : String) (fields : List (String × String)) : String :=
  name ++ " \x7b " ++ ", ".intercalate (fields.map fun f => f.1 ++ ": " ++ f.2) ++ " \x7d"

def faultText : Engine.Fault → String
  | .unknownClass name => "UnknownClass(" ++ quote name ++ ")"
  | .missingBuiltin object className =>
    recordText "MissingBuiltin" [("index", toString object), ("expected", quote className)]
  | .tooManySockets className count =>
    recordText "TooManySockets" [("class", quote className), ("count", toString count)]
  | .objectOutOfRange object => recordText "ObjectOutOfRange" [("index", toString object)]
  | .unknownOutput className output =>
    recordText "UnknownOutput" [("class", quote className), ("output", quote output)]
  | .noVoices => "NoVoices"

def Failure.text : Failure → String
  | settingsUnreadable => "Io"
  | settingsInvalid => "Yaml"
  | patchUnreadable path reason => quote ("cannot read " ++ path ++ ": " ++ reason)
  | unplayable fault => faultText fault
  | unknownParameter name => quote ("unknown parameter: " ++ name)

structure Outcome where
  succeeded : Bool
  output : List String
  messages : List String
  recording : Option (String × Recording)

namespace Outcome

def after (messages : List String) (o : Outcome) : Outcome :=
  { o with messages := messages ++ o.messages }

def failed (f : Failure) : Outcome := ⟨false, [], ["Error: " ++ f.text], none⟩

def shown (line : String) : Outcome := ⟨true, [line], [], none⟩

end Outcome

/-- The settings of a command. Those of the user are passed over if they are invalid, those that
the command names are not. -/
def settingsFor (c : Command) (files : Files) : Except Failure Settings :=
  match c.settings, files.settings with
  | none, _ => .ok ((files.homeSettings.bind Settings.ofText?).getD .standard)
  | some _, none => .error .settingsUnreadable
  | some _, some text =>
    match Settings.ofText? text with
    | some s => .ok s
    | none => .error .settingsInvalid

def setValues (e : Engine Float) : List (String × Float) → Except Failure (Engine Float)
  | [] => .ok e
  | (name, value) :: rest =>
    match e.setParameter name value with
    | some e => setValues e rest
    | none => .error (.unknownParameter name)

def engineFor (r : Rendering) (s : EngineSettings) (g : Graph Float) :
    Except Failure (Engine Float) :=
  match Engine.ofGraph Library.standard s g with
  | .ok e => setValues e r.values
  | .error fault => .error (.unplayable fault)

def Rendering.performance (r : Rendering) (s : EngineSettings) : Performance Float :=
  ⟨r.note, r.velocity, Performance.framesWithin s.sampleRate r.length,
    Performance.framesWithin s.sampleRate r.hold, s.blockSize⟩

def render (r : Rendering) (s : EngineSettings) (g : Graph Float) : Outcome :=
  match engineFor r s g with
  | .error failure => .failed failure
  | .ok e =>
    let (_, frames) := e.play (r.performance s)
    let recorded := frames.map fun f => (f.1.toFloat32, f.2.toFloat32)
    let line := "wrote " ++ r.out ++ " (" ++ Decimal.fixedText 2 r.length ++ "s, " ++
      toString s.sampleRate ++ " Hz)"
    { Outcome.shown line with recording := some (r.out, ⟨s.sampleRate, recorded⟩) }

def perform (c : Command) (s : Settings) (g : Graph Float) : Outcome :=
  match c.task with
  | .check => .shown (c.patch ++ ": ok")
  | .graph => .shown g.toText
  | .render r => render r s.engine g

/-- What a command answers. Everything that is said about the patch comes first, and without a
graph nothing follows it. -/
def run (c : Command) (files : Files) : Outcome :=
  match settingsFor c files, files.patch with
  | .error failure, _ => .failed failure
  | .ok _, .error reason => .failed (.patchUnreadable c.patch reason)
  | .ok s, .ok source =>
    let compiled := Compilation.ofText Library.standard.catalog s.compile source
    let said := compiled.diagnostics.map fun d => c.patch ++ ": " ++ d.render source
    match compiled.graph? with
    | none => ⟨false, [], said, none⟩
    | some g => (c.perform s g).after said

end Patchbay.Command
