import Patchbay.Building.Export

/-! Settings for compiling and playing patches. -/
namespace Patchbay

structure EngineSettings where
  sampleRate : Nat
  voices : Nat
  seed : Nat
  /-- Frames computed in one go when a patch is written to a file. -/
  blockSize : Nat
  deriving Repr, DecidableEq

def EngineSettings.standard : EngineSettings := ⟨44100, 5, 42, 128⟩

structure Settings where
  engine : EngineSettings
  compile : Building.Options
  deriving Repr, DecidableEq

def Settings.standard : Settings := ⟨.standard, .standard⟩

end Patchbay
