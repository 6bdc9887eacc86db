import Mathlib.Algebra.Group.Nat.Defs
import ValueHashing.Blocks
import ValueHashing.Padding
import ValueHashing.Sha2.Variant

/-!
# SHA-2 as the standard states it

The digest of a whole message (FIPS 180-4): pad the message once, cut it into blocks,
expand each block into the full message schedule, run the rounds on eight named working
words, add, and take the front of the final words. Nothing here streams, buffers or reuses
schedule words.

The functions of one word are given on bit patterns, and the tables by the rule behind them:
their words are bits of square and cube roots of prime numbers, and the initial values of
SHA-512/224 and SHA-512/256 are states of the algorithm itself.
-/

namespace ValueHashing.Sha2

namespace Rounds

variable {W : Type} [Word W] (r : Rounds W)

/-- Word `t` of a block, most significant byte first. -/
def blockWord {size : Nat} (block : Vector UInt8 size) (t : Nat) : W :=
  Word.ofNat (Bytes.ofBigEndian
    (block.extract (t * Word.size W) ((t + 1) * Word.size W)).toList)

/-- The first `count` words of the message schedule: the words of the block, and from the
sixteenth on the sum of four earlier ones. -/
def schedule {size : Nat} (block : Vector UInt8 size) : (count : Nat) → Vector W count
  | 0 => #v[]
  | t + 1 =>
      let w := schedule block t
      w.push
        (if h : t < 16 then blockWord block t
        else r.smallSigma1 w[t - 2] + w[t - 7] + r.smallSigma0 w[t - 15] + w[t - 16])

end Rounds

/-- The eight working words of a compression. -/
structure Working (W : Type) where
  a : W
  b : W
  c : W
  d : W
  e : W
  f : W
  g : W
  h : W

namespace Working

variable {W : Type} [Word W]

/-- The working words at the start of a block. -/
def ofState (s : Vector W 8) : Working W where
  a := s.get 0
  b := s.get 1
  c := s.get 2
  d := s.get 3
  e := s.get 4
  f := s.get 5
  g := s.get 6
  h := s.get 7

/-- One round with the constant `k` and the schedule word `w`. -/
def round (r : Rounds W) (v : Working W) (k w : W) : Working W :=
  let ch := (v.e &&& v.f) ^^^ (~~~v.e &&& v.g)
  let maj := (v.a &&& v.b) ^^^ (v.a &&& v.c) ^^^ (v.b &&& v.c)
  let t1 := v.h + r.bigSigma1 v.e + ch + k + w
  let t2 := r.bigSigma0 v.a + maj
  { a := t1 + t2, b := v.a, c := v.b, d := v.c, e := v.d + t1, f := v.e, g := v.f, h := v.g }

/-- The chaining state after a block: the state before it plus the working words. -/
def addTo (v : Working W) (s : Vector W 8) : Vector W 8 :=
  s.zipWith (· + ·) #v[v.a, v.b, v.c, v.d, v.e, v.f, v.g, v.h]

end Working

section

variable {W : Type} [Word W]

/-- Compression with the schedule written out in full. -/
def Rounds.compressFull (r : Rounds W) {size : Nat} (state : Vector W 8)
    (block : Vector UInt8 size) : Vector W 8 :=
  let words := (r.schedule block r.constants.length).toList
  let mixed := (r.constants.zip words).foldl (fun v p => v.round r p.1 p.2)
    (Working.ofState state)
  mixed.addTo state

/-- The state after a message: rounds `r` on blocks of `blockSize` bytes, the whole message
padded once. -/
def wholeState (r : Rounds W) (blockSize lengthSize : Nat) (initial : Vector W 8)
    (message : Bytes) : Vector W 8 :=
  (messageBlocks blockSize (message ++ padding blockSize lengthSize message.length)).foldl
    r.compressFull initial

/-- The bytes of a state: those of its words one after the other, each most significant byte
first. -/
def stateBytes (state : Vector W 8) : Bytes :=
  state.toList.flatMap fun w => Bytes.bigEndian (Word.size W) (Word.toNat w)

/-- The digest of a message: the front of the state after it. -/
def wholeDigest (r : Rounds W) (blockSize lengthSize : Nat) (initial : Vector W 8)
    (digestSize : Nat) (message : Bytes) : Bytes :=
  (stateBytes (wholeState r blockSize lengthSize initial message)).take digestSize

end

namespace Standard

/-- The prime numbers below 512, by trial division. -/
def primes : List Nat :=
  (List.range 512).filter fun n => 2 ≤ n && (List.range' 2 (n - 2)).all fun d => n % d ≠ 0

/-- Set the lowest bits of `root`, from the highest of them on, as long as the power of `root`
is at most `n`. -/
def extendRoot (degree n : Nat) : (bits root : Nat) → Nat
  | 0, root => root
  | bits + 1, root =>
      let larger := root + 2 ^ bits
      extendRoot degree n bits (if larger ^ degree ≤ n then larger else root)

/-- The first `bits` bits of the fractional part of the root of a number below 512. -/
def rootFraction (degree bits n : Nat) : Nat :=
  extendRoot degree (n * 2 ^ (degree * bits)) (bits + 5) 0 % 2 ^ bits

/-- The first 32 bits of the fractional parts of the cube roots of the first 64 primes. -/
def constants32 : List UInt32 := (primes.take 64).map fun p => .ofNat (rootFraction 3 32 p)

/-- The first 64 bits of the fractional parts of the cube roots of the first 80 primes. -/
def constants64 : List UInt64 := (primes.take 80).map fun p => .ofNat (rootFraction 3 64 p)

/-- Rotate the bits of a 32-bit word to the right. -/
def rotate32 (n : Nat) (x : UInt32) : UInt32 := .ofBitVec (x.toBitVec.rotateRight n)

/-- Shift the bits of a 32-bit word to the right. -/
def shift32 (n : Nat) (x : UInt32) : UInt32 := .ofBitVec (x.toBitVec >>> n)

/-- Rotate the bits of a 64-bit word to the right. -/
def rotate64 (n : Nat) (x : UInt64) : UInt64 := .ofBitVec (x.toBitVec.rotateRight n)

/-- Shift the bits of a 64-bit word to the right. -/
def shift64 (n : Nat) (x : UInt64) : UInt64 := .ofBitVec (x.toBitVec >>> n)

/-- The rounds on 32-bit words. -/
def rounds32 : Rounds UInt32 where
  constants := constants32
  bigSigma0 x := rotate32 2 x ^^^ rotate32 13 x ^^^ rotate32 22 x
  bigSigma1 x := rotate32 6 x ^^^ rotate32 11 x ^^^ rotate32 25 x
  smallSigma0 x := rotate32 7 x ^^^ rotate32 18 x ^^^ shift32 3 x
  smallSigma1 x := rotate32 17 x ^^^ rotate32 19 x ^^^ shift32 10 x

/-- The rounds on 64-bit words. -/
def rounds64 : Rounds UInt64 where
  constants := constants64
  bigSigma0 x := rotate64 28 x ^^^ rotate64 34 x ^^^ rotate64 39 x
  bigSigma1 x := rotate64 14 x ^^^ rotate64 18 x ^^^ rotate64 41 x
  smallSigma0 x := rotate64 1 x ^^^ rotate64 8 x ^^^ shift64 7 x
  smallSigma1 x := rotate64 19 x ^^^ rotate64 61 x ^^^ shift64 6 x

/-- SHA-256: the first 32 bits of the fractional parts of the square roots of the first eight
primes. -/
def initial256 : Vector UInt32 8 :=
  Vector.ofFn fun i => .ofNat (rootFraction 2 32 (primes.getD i 0))

/-- SHA-224: the second 32 bits of the fractional parts of the square roots of the ninth to
the sixteenth prime. -/
def initial224 : Vector UInt32 8 :=
  Vector.ofFn fun i => .ofNat (rootFraction 2 64 (primes.getD (i + 8) 0) % 2 ^ 32)

/-- SHA-512: the first 64 bits of the fractional parts of the square roots of the first eight
primes. -/
def initial512 : Vector UInt64 8 :=
  Vector.ofFn fun i => .ofNat (rootFraction 2 64 (primes.getD i 0))

/-- SHA-384: the first 64 bits of the fractional parts of the square roots of the ninth to the
sixteenth prime. -/
def initial384 : Vector UInt64 8 :=
  Vector.ofFn fun i => .ofNat (rootFraction 2 64 (primes.getD (i + 8) 0))

/-- The truncated variants of SHA-512: the state after the name of the variant, under SHA-512
with every byte of its initial value combined with `0xa5`. -/
def truncatedInitial (name : String) : Vector UInt64 8 :=
  wholeState rounds64 128 16 (initial512.map (· ^^^ 0xa5a5a5a5a5a5a5a5)) (Bytes.utf8 name)

end Standard

/-- Bytes of the length field of each variant. -/
def Variant.lengthSize : Variant → Nat
  | .sha224 | .sha256 => 8
  | .sha384 | .sha512 | .sha512_224 | .sha512_256 => 16

/-- The digest of a message under each variant. -/
def Variant.wholeDigest : Variant → Bytes → Bytes
  | .sha224 => Sha2.wholeDigest Standard.rounds32 64 8 Standard.initial224 28
  | .sha256 => Sha2.wholeDigest Standard.rounds32 64 8 Standard.initial256 32
  | .sha384 => Sha2.wholeDigest Standard.rounds64 128 16 Standard.initial384 48
  | .sha512 => Sha2.wholeDigest Standard.rounds64 128 16 Standard.initial512 64
  | .sha512_224 =>
      Sha2.wholeDigest Standard.rounds64 128 16 (Standard.truncatedInitial "SHA-512/224") 28
  | .sha512_256 =>
      Sha2.wholeDigest Standard.rounds64 128 16 (Standard.truncatedInitial "SHA-512/256") 32

end ValueHashing.Sha2
