import Patchbay.Command.Arguments
import Patchbay.Command.Run

/-! The command line: reads the files of a command, writes what comes of it. -/
namespace Patchbay.Command

def usage : String :=
  "usage: [--config FILE] check PATCH | ir PATCH | render PATCH --out FILE [--note N] " ++
    "[--velocity X] [--seconds X] [--hold X] [--set NAME=X]..."

def reasonText : IO.Error → String
  | .noFileOrDirectory .. => "No such file or directory (os error 2)"
  | .permissionDenied .. => "Permission denied (os error 13)"
  | .inappropriateType .. => "Is a directory (os error 21)"
  | error => toString error

def readText (path : String) : IO (Except String String) := do
  try return .ok (← IO.FS.readFile path)
  catch error => return .error (reasonText error)

/-- The settings of the user: in the home directory, in a hidden one named for the program. -/
def readHomeSettings : IO (Option String) := do
  match ← IO.getEnv "HOME", (← IO.appPath).fileStem with
  | some home, some name => return (← readText s!"{home}/.{name}/config.yaml").toOption
  | _, _ => return none

def readFiles (c : Command) : IO Files := do
  let settings ← match c.settings with
    | some path => pure (← readText path).toOption
    | none => pure none
  return ⟨settings, ← readHomeSettings, ← readText c.patch⟩

def writeRecording (path : String) (r : Recording) : IO (Option String) := do
  try
    IO.FS.writeBinFile path r.bytes
    return none
  catch error => return some ("failed to create " ++ path ++ ": " ++ reasonText error)

def execute (c : Command) : IO Bool := do
  let outcome := c.run (← readFiles c)
  outcome.messages.forM IO.eprintln
  if let some (path, recording) := outcome.recording then
    if let some reason ← writeRecording path recording then
      IO.eprintln ("Error: " ++ Text.quote reason)
      return false
  outcome.output.forM IO.println
  return outcome.succeeded

end Patchbay.Command

open Patchbay in
def main (arguments : List String) : IO UInt32 := do
  match Command.ofArguments? arguments with
  | none =>
    IO.eprintln Command.usage
    return 2
  | some c => return if ← c.execute then 0 else 1
