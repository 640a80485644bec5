import Patchbay.Arithmetic

/-! White noise from the ChaCha stream cipher with eight rounds. Its key is drawn from a seed. -/
namespace Patchbay

/-- A stream of 64-bit numbers: the key, the next block, and what is left of the present one. -/
structure Noise where
  key : List UInt32
  counter : UInt64
  left : List UInt64
  deriving Repr, DecidableEq

namespace Noise

def rotateLeft (x : UInt32) (n : UInt32) : UInt32 := (x <<< n) ||| (x >>> (32 - n))

def rotateRight (x : UInt32) (n : UInt32) : UInt32 :=
  if n = 0 then x else (x >>> n) ||| (x <<< (32 - n))

def nextKeyState (state : UInt64) : UInt64 := state * 6364136223846793005 + 11634580027462260723

def keyWord (state : UInt64) : UInt32 :=
  rotateRight (((state >>> 18) ^^^ state) >>> 27).toUInt32 (state >>> 59).toUInt32

def keyWords (state : UInt64) : Nat → List UInt32
  | 0 => []
  | n + 1 => keyWord (nextKeyState state) :: keyWords (nextKeyState state) n

def ofSeed (seed : UInt64) : Noise := ⟨keyWords seed 8, 0, []⟩

structure Quad where
  a : UInt32
  b : UInt32
  c : UInt32
  d : UInt32

def Quad.mix (q : Quad) : Quad :=
  let a := q.a + q.b
  let d := rotateLeft (q.d ^^^ a) 16
  let c := q.c + d
  let b := rotateLeft (q.b ^^^ c) 12
  let a := a + b
  let d := rotateLeft (d ^^^ a) 8
  let c := c + d
  let b := rotateLeft (b ^^^ c) 7
  ⟨a, b, c, d⟩

/-- The sixteen words of a block, by columns. -/
structure Square where
  first : Quad
  second : Quad
  third : Quad
  fourth : Quad

def Square.round (s : Square) : Square :=
  let p := s.first.mix
  let q := s.second.mix
  let r := s.third.mix
  let t := s.fourth.mix
  let i := (Quad.mk p.a q.b r.c t.d).mix
  let j := (Quad.mk q.a r.b t.c p.d).mix
  let k := (Quad.mk r.a t.b p.c q.d).mix
  let l := (Quad.mk t.a p.b q.c r.d).mix
  ⟨⟨i.a, l.b, k.c, j.d⟩, ⟨j.a, i.b, l.c, k.d⟩, ⟨k.a, j.b, i.c, l.d⟩, ⟨l.a, k.b, j.c, i.d⟩⟩

def Square.words (s : Square) : List UInt32 :=
  [s.first.a, s.second.a, s.third.a, s.fourth.a, s.first.b, s.second.b, s.third.b, s.fourth.b,
    s.first.c, s.second.c, s.third.c, s.fourth.c, s.first.d, s.second.d, s.third.d, s.fourth.d]

/-- The block before it is mixed: four fixed words, the key, the counter and an empty nonce. -/
def seedSquare (key : List UInt32) (counter : UInt64) : Square :=
  ⟨⟨0x61707865, key.getD 0 0, key.getD 4 0, counter.toUInt32⟩,
    ⟨0x3320646e, key.getD 1 0, key.getD 5 0, (counter >>> 32).toUInt32⟩,
    ⟨0x79622d32, key.getD 2 0, key.getD 6 0, 0⟩,
    ⟨0x6b206574, key.getD 3 0, key.getD 7 0, 0⟩⟩

def pairs : List UInt32 → List UInt64
  | low :: high :: rest => (low.toUInt64 ||| (high.toUInt64 <<< 32)) :: pairs rest
  | _ => []

def block (key : List UInt32) (counter : UInt64) : List UInt64 :=
  let start := seedSquare key counter
  let mixed := start.round.round.round.round
  pairs (List.zipWith (· + ·) mixed.words start.words)

def next (n : Noise) : Noise × UInt64 :=
  match n.left with
  | x :: left => ({ n with left }, x)
  | [] =>
    match block n.key n.counter with
    | x :: left => (⟨n.key, n.counter + 1, left⟩, x)
    | [] => (n, 0)

/-- A number from -1 up to 1, in steps of `2 ^ -51`. -/
def sample {α : Type} [Arithmetic α] (x : UInt64) : α :=
  Arithmetic.ratio (x >>> 12).toNat (1 <<< 51) - Arithmetic.natural 1

end Patchbay.Noise
