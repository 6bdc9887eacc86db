import ValueHashing.StreamingHash

/-!
# FNV-1a

The 64-bit FNV-1a function, a plain algorithm without blocks of its own. Its block size is
a parameter, so that it also serves as a small algorithm under a keyed construction.
-/

namespace ValueHashing.Fnv

/-- The state before any byte is absorbed. -/
def offsetBasis : UInt64 := 0xcbf29ce484222325

/-- The multiplier. -/
def prime : UInt64 := 0x100000001b3

/-- Absorb one byte: combine it with the state, then multiply modulo `2 ^ 64`. -/
def step (state : UInt64) (byte : UInt8) : UInt64 :=
  (state ^^^ byte.toUInt64) * prime

/-- Absorb a byte string. -/
def absorb (state : UInt64) (data : Bytes) : UInt64 := data.foldl step state

theorem absorb_append (state : UInt64) (xs ys : Bytes) :
    absorb state (xs ++ ys) = absorb (absorb state xs) ys := by
  simp [absorb]

/-- FNV-1a with blocks of `blockSize` bytes. The result is the state, least significant
byte first, and a key is absorbed as the first bytes of the message. -/
def algorithm (blockSize : Nat) : StreamingHash where
  State := UInt64
  blockSize := blockSize
  outputSize := 8
  fresh := pure offsetBasis
  default := pure offsetBasis
  seeded seed :=
    pure (if seed = 0 then offsetBasis else absorb offsetBasis (StreamingHash.seedKey seed))
  keyed key := pure (absorb offsetBasis key)
  absorb := absorb
  finish state := Bytes.littleEndian 8 state.toNat

end ValueHashing.Fnv
