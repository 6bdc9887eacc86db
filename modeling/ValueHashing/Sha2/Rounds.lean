import ValueHashing.Absorber
import ValueHashing.Sha2.Tables

/-!
# SHA-2 compression

The compression function of both halves of the family. The message schedule lives in a
ring of sixteen words: the word of round `t` stands at index `t % 16`, where it replaces
the word of round `t - 16` that nothing needs any more.
-/

namespace ValueHashing.Sha2

/-- What the halves of the family choose for themselves: the round constants and the
four functions of one word. -/
structure Rounds (W : Type) where
  constants : List W
  bigSigma0 : W → W
  bigSigma1 : W → W
  smallSigma0 : W → W
  smallSigma1 : W → W

/-- Rotate a 32-bit word to the right by `n` places, for `0 < n < 32`. -/
def rotateRight32 (x n : UInt32) : UInt32 := (x >>> n) ||| (x <<< (32 - n))

/-- Rotate a 64-bit word to the right by `n` places, for `0 < n < 64`. -/
def rotateRight64 (x n : UInt64) : UInt64 := (x >>> n) ||| (x <<< (64 - n))

/-- The rounds on 32-bit words. -/
def rounds32 : Rounds UInt32 where
  constants := constants32
  bigSigma0 x := rotateRight32 x 2 ^^^ rotateRight32 x 13 ^^^ rotateRight32 x 22
  bigSigma1 x := rotateRight32 x 6 ^^^ rotateRight32 x 11 ^^^ rotateRight32 x 25
  smallSigma0 x := rotateRight32 x 7 ^^^ rotateRight32 x 18 ^^^ (x >>> 3)
  smallSigma1 x := rotateRight32 x 17 ^^^ rotateRight32 x 19 ^^^ (x >>> 10)

/-- The rounds on 64-bit words. -/
def rounds64 : Rounds UInt64 where
  constants := constants64
  bigSigma0 x := rotateRight64 x 28 ^^^ rotateRight64 x 34 ^^^ rotateRight64 x 39
  bigSigma1 x := rotateRight64 x 14 ^^^ rotateRight64 x 18 ^^^ rotateRight64 x 41
  smallSigma0 x := rotateRight64 x 1 ^^^ rotateRight64 x 8 ^^^ (x >>> 7)
  smallSigma1 x := rotateRight64 x 19 ^^^ rotateRight64 x 61 ^^^ (x >>> 6)

section

variable {W : Type} [Word W]

/-- Where `x` has a one take the bit of `y`, elsewhere that of `z`. -/
def choose (x y z : W) : W := (x &&& y) ^^^ (~~~x &&& z)

/-- The bit that at least two of the three words have. -/
def majority (x y z : W) : W := (x &&& y) ^^^ (x &&& z) ^^^ (y &&& z)

end

namespace Rounds

variable {W : Type} [Word W] (r : Rounds W)

/-- One round on the eight working words, with the constant `k` and the schedule word
`w`. -/
def round (v : Vector W 8) (k w : W) : Vector W 8 :=
  let t1 := v[7] + r.bigSigma1 v[4] + choose v[4] v[5] v[6] + k + w
  let t2 := r.bigSigma0 v[0] + majority v[0] v[1] v[2]
  #v[t1 + t2, v[0], v[1], v[2], v[3] + t1, v[4], v[5], v[6]]

/-- The first sixteen schedule words: the block itself, word by word. -/
def firstRing {size : Nat} (block : Vector UInt8 size) : Vector W 16 :=
  let data := block.toList
  Vector.ofFn fun t => Word.ofBytes ((data.drop (t.val * Word.size W)).take (Word.size W))

/-- The word of the ring at `t`. -/
def ringWord (ring : Vector W 16) (t : Nat) : W := ring[t % 16]

/-- Put a word into the ring at `t`. -/
def ringSet (ring : Vector W 16) (t : Nat) (w : W) : Vector W 16 := ring.set (t % 16) w

/-- Bring the word of round `t` into the ring. -/
def advance (ring : Vector W 16) (t : Nat) : Vector W 16 :=
  if t < 16 then ring
  else
    ringSet ring t
      (r.smallSigma1 (ringWord ring (t + 14)) + ringWord ring (t + 9) +
        r.smallSigma0 (ringWord ring (t + 1)) + ringWord ring t)

/-- Round `t` with its constant: bring the schedule up to date, then mix. -/
def step (s : Vector W 16 × Vector W 8) (k : W × Nat) : Vector W 16 × Vector W 8 :=
  let ring := r.advance s.1 k.2
  (ring, r.round s.2 k.1 (ringWord ring k.2))

/-- Mix one block into the chaining state. -/
def compress {size : Nat} (state : Vector W 8) (block : Vector UInt8 size) : Vector W 8 :=
  let mixed := (r.constants.zipIdx.foldl r.step (firstRing block, state)).2
  state.zipWith (· + ·) mixed

end Rounds

/-- The compression of SHA-224 and SHA-256. -/
def compression32 : Compression UInt32 where
  blockSize := 64
  lengthSize := 8
  compress := rounds32.compress

/-- The compression of SHA-384, SHA-512, SHA-512/224 and SHA-512/256. -/
def compression64 : Compression UInt64 where
  blockSize := 128
  lengthSize := 16
  compress := rounds64.compress

end ValueHashing.Sha2
