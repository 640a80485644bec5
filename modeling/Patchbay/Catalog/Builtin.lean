/-! Names with a meaning of their own in every patch. -/
namespace Patchbay.Builtin

def userInput : String := "UserInput"

def stereoOutput : String := "UserStereoOutput"

def knob : String := "Knob"

def inverter : String := "Inverter"

def attenuator : String := "Attenuator"

def mapping : String := "Mapping"

def bipolarMapping : String := "BipolarMapping"

/-- The note inputs that all voices share, in the order of their objects. -/
def globalInputs : List String := ["trigger", "gate", "pitch", "velocity"]

def output : String := "output"

/-- The note inputs of each voice, in the order of their objects. -/
def voiceInputs : List String := ["trigger", "gate", "pitch", "velocity", "voiceT"]

/-- The object that takes the final signal; it follows the shared inputs. -/
def outputObject : Nat := globalInputs.length

/-- The first input object of the voices; it follows the final signal. -/
def firstVoiceInput : Nat := globalInputs.length + 1

def objectCount : Nat := globalInputs.length + 1 + voiceInputs.length

end Patchbay.Builtin
