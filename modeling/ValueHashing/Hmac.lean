import ValueHashing.StreamingHash
import ValueHashing.Tag

/-!
# Keyed hashing with two instances

`Hmac.of H` keys any algorithm `H`. One instance of `H` absorbs the key block combined
with `0x36` and then the message, another absorbs the key block combined with `0x5c` and
then the result of the first (RFC 2104). The construction is itself a streaming hash, so it
can be nested.

`Hmac.formula` states the tag as one nested digest, without instances.
-/

namespace ValueHashing

/-- Two instances of one algorithm: the message goes to `inner`, the result of `inner`
to `outer`. -/
structure Hmac (State : Type) where
  inner : State
  outer : State

namespace Hmac

/-- The byte that marks the key block of the inner instance. -/
def innerMark : UInt8 := 0x36

/-- The byte that marks the key block of the outer instance. -/
def outerMark : UInt8 := 0x5c

/-- Combine every byte of a block with a mark. -/
def mark (m : UInt8) (block : Bytes) : Bytes := block.map (· ^^^ m)

@[simp] theorem length_mark (m : UInt8) (block : Bytes) :
    (mark m block).length = block.length := by
  simp [mark]

/-- What the inner instance absorbs first, from the key block. -/
def innerBlock (block : Bytes) : Bytes := mark innerMark block

/-- What the outer instance absorbs first: the inner block with the inner mark taken off
and the outer mark put on. -/
def outerBlock (block : Bytes) : Bytes := mark (innerMark ^^^ outerMark) (innerBlock block)

theorem innerBlock_eq_map (block : Bytes) : innerBlock block = block.map (· ^^^ 0x36) := rfl

theorem outerBlock_eq_map (block : Bytes) : outerBlock block = block.map (· ^^^ 0x5c) := by
  have cancel (b : UInt8) : b ^^^ innerMark ^^^ (innerMark ^^^ outerMark) = b ^^^ 0x5c := by
    rw [UInt8.xor_assoc, ← UInt8.xor_assoc innerMark, UInt8.xor_self, UInt8.zero_xor, outerMark]
  simp [outerBlock, innerBlock, mark, cancel]

/-- Bytes of the buffer in which key blocks are made. Only algorithms whose blocks are not
larger are keyed. -/
def bufferSize : Nat := 128

variable (H : StreamingHash)

/-- The key brought to the size of a block. A key that fits is followed by zero bytes; a
longer one is replaced by as much of its digest as fits, which is reported. -/
def keyBlock (key : Bytes) : Logged Bytes :=
  let block := (Bytes.zeros bufferSize).take H.blockSize
  if key.length > H.blockSize then do
    Logged.report (.longKey key.length H.blockSize)
    let shortened ← H.digest key
    return Bytes.overwrite shortened block
  else
    return Bytes.overwrite key block

/-- The two instances under a key. -/
def start (key : Bytes) : Logged (Hmac H.State) := do
  let block ← keyBlock H key
  let inner ← H.fresh
  let outer ← H.fresh
  return {
    inner := H.absorb inner (innerBlock block)
    outer := H.absorb outer (outerBlock block) }

/-- The result of the inner instance, absorbed by the outer one. -/
def finish (s : Hmac H.State) : Bytes :=
  H.finish (H.absorb s.outer (H.finish s.inner))

/-- The keyed algorithm over `H`. Without a key, and for the seed zero, the key is empty. -/
def of : StreamingHash where
  State := Hmac H.State
  blockSize := H.blockSize
  outputSize := H.outputSize
  fresh := start H []
  default := start H []
  seeded seed := if seed = 0 then start H [] else start H (StreamingHash.seedKey seed)
  keyed key := start H key
  absorb s data := { s with inner := H.absorb s.inner data }
  finish s := finish H s

/-- The tag of `data` under `key` in one step. -/
def tag (key data : Bytes) : Logged Bytes := do
  let s ← start H key
  return (of H).finish ((of H).absorb s data)

/-- Finish and compare with the expected tag. -/
def check (s : Hmac H.State) (expected : Bytes) : Except TagError Unit :=
  checkTag (finish H s) expected

/-- The block that a key stands for under the digest function `digest` with blocks of
`blockSize` bytes. -/
def paddedKey (digest : Bytes → Bytes) (blockSize : Nat) (key : Bytes) : Bytes :=
  let material := if key.length ≤ blockSize then key else (digest key).take blockSize
  material ++ Bytes.zeros (blockSize - material.length)

/-- The tag as a nested digest: the message behind the key block combined with `0x36`, and the
digest of that behind the key block combined with `0x5c`. -/
def formula (digest : Bytes → Bytes) (blockSize : Nat) (key message : Bytes) : Bytes :=
  let block := paddedKey digest blockSize key
  digest (block.map (· ^^^ 0x5c) ++ digest (block.map (· ^^^ 0x36) ++ message))

end Hmac

end ValueHashing
