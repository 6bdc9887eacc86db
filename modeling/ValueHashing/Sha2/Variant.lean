import ValueHashing.Sha2.Rounds
import ValueHashing.StreamingHash

/-!
# The SHA-2 variants

Six variants of two halves: each is an initial value, a compression and a digest size. The
keyed start of a variant absorbs the key, closes it as a message of its own and absorbs it
again, and reports that it did so.
-/

namespace ValueHashing.Sha2

/-- What makes a variant of the family. -/
structure Parameters (W : Type) where
  name : String
  compression : Compression W
  initial : Vector W 8
  /-- Bytes per digest; the final chaining state is cut to it. -/
  digestSize : Nat

namespace Parameters

variable {W : Type} [Word W] (p : Parameters W)

/-- The initial state under a key. An empty key gives the plain state and no report. -/
def keyedStart (key : Bytes) : Logged (Absorber p.compression) :=
  if key.isEmpty then pure (Absorber.start p.initial)
  else do
    Logged.report (.keyedStart p.name key.length)
    return (Absorber.start p.initial).absorbKey key

/-- The streaming hash of a variant. -/
def algorithm : StreamingHash where
  State := Absorber p.compression
  blockSize := p.compression.blockSize
  outputSize := p.digestSize
  fresh := pure (Absorber.start p.initial)
  default := pure (Absorber.start p.initial)
  seeded seed :=
    if seed = 0 then pure (Absorber.start p.initial)
    else p.keyedStart (StreamingHash.seedKey seed)
  keyed key := p.keyedStart key
  absorb := Absorber.absorb
  finish a := a.closeInto (Bytes.zeros p.digestSize)

end Parameters

def sha224 : Parameters UInt32 := ⟨"Sha224", compression32, initial224, 28⟩

def sha256 : Parameters UInt32 := ⟨"Sha256", compression32, initial256, 32⟩

def sha384 : Parameters UInt64 := ⟨"Sha384", compression64, initial384, 48⟩

def sha512 : Parameters UInt64 := ⟨"Sha512", compression64, initial512, 64⟩

def sha512_224 : Parameters UInt64 := ⟨"Sha512_224", compression64, initial512_224, 28⟩

def sha512_256 : Parameters UInt64 := ⟨"Sha512_256", compression64, initial512_256, 32⟩

/-- The variants by name. -/
inductive Variant where
  | sha224
  | sha256
  | sha384
  | sha512
  | sha512_224
  | sha512_256
deriving DecidableEq, Repr

/-- The streaming hash of a variant. -/
def Variant.algorithm : Variant → StreamingHash
  | .sha224 => Sha2.sha224.algorithm
  | .sha256 => Sha2.sha256.algorithm
  | .sha384 => Sha2.sha384.algorithm
  | .sha512 => Sha2.sha512.algorithm
  | .sha512_224 => Sha2.sha512_224.algorithm
  | .sha512_256 => Sha2.sha512_256.algorithm

end ValueHashing.Sha2
