/-! Stereo recordings in single precision and the WAVE file of one. -/
namespace Patchbay

structure Recording where
  rate : Nat
  frames : List (Float32 × Float32)

namespace Recording

def channels : Nat := 2

def sampleBits : Nat := 32

def samples (r : Recording) : List Float32 := r.frames.flatMap fun f => [f.1, f.2]

def pushBytes (out : ByteArray) (n : Nat) : Nat → ByteArray
  | 0 => out
  | count + 1 => pushBytes (out.push (UInt8.ofNat n)) (n / 256) count

/-- The identifier of IEEE samples in an extended format, behind its first two bytes. -/
def ieeeSamples : List UInt8 :=
  [0x00, 0x00, 0x00, 0x00, 0x10, 0x00, 0x80, 0x00, 0x00, 0xAA, 0x00, 0x38, 0x9B, 0x71]

/-- The extended format of two IEEE channels, front left and front right. -/
def pushFormat (out : ByteArray) (rate : Nat) : ByteArray :=
  let frameBytes := channels * sampleBits / 8
  let fields : List (Nat × Nat) :=
    [(0xFFFE, 2), (channels, 2), (rate, 4), (rate * frameBytes, 4), (frameBytes, 2),
      (sampleBits, 2), (22, 2), (sampleBits, 2), (0x3, 4), (3, 2)]
  ieeeSamples.foldl ByteArray.push (fields.foldl (fun out f => pushBytes out f.1 f.2) out)

def bytes (r : Recording) : ByteArray :=
  let size := r.frames.length * (channels * sampleBits / 8)
  let out := pushBytes ("RIFF".toUTF8) (60 + size) 4
  let out := pushFormat (pushBytes (out ++ "WAVEfmt ".toUTF8) 40 4) r.rate
  let out := pushBytes (out ++ "data".toUTF8) size 4
  r.samples.foldl (fun out s => pushBytes out s.toBits.toNat 4) out

end Patchbay.Recording
