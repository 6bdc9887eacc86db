import ValueHashing.Word

/-!
# Absorbing a message block by block

An absorber takes in a message of any length with a compression function on blocks of
fixed size (the Merkle–Damgård construction). Input that does not fill a block waits in a
buffer. Closing a message appends the byte `0x80`, zero bytes and the bit length, so that
the whole ends on a block boundary; the absorber can go on afterwards, which is how a key
and its padding come to stand in front of a message.

## Implementation notes

The buffer is never cleared while a message goes on: its bytes at and beyond `pending`
are left over from earlier blocks. The padding itself is absorbed like any other input.
-/

namespace ValueHashing

/-- A compression function on blocks, and the size of the length field that closes a
message. The length field fits into a block together with at least one more byte. -/
structure Compression (W : Type) where
  /-- Bytes per block. -/
  blockSize : Nat
  /-- Bytes of the bit length that ends the padding. -/
  lengthSize : Nat
  /-- Mix one block into the chaining state. -/
  compress : Vector W 8 → Vector UInt8 blockSize → Vector W 8
  lengthSize_pos : 0 < lengthSize := by decide
  lengthSize_le : lengthSize ≤ 16 := by decide
  lengthSize_lt : lengthSize < blockSize := by decide

/-- Write `data` into a buffer from position `offset` on. -/
def writeAt {size : Nat} (buffer : Vector UInt8 size) (offset : Nat) :
    Bytes → Vector UInt8 size
  | [] => buffer
  | b :: data => writeAt (buffer.setIfInBounds offset b) (offset + 1) data

/-- Writing inside a buffer replaces the bytes written over and keeps those on both sides. -/
theorem toList_writeAt {size : Nat} (buffer : Vector UInt8 size) (offset : Nat) (data : Bytes)
    (h : offset + data.length ≤ size) :
    (writeAt buffer offset data).toList =
      buffer.toList.take offset ++ data ++ buffer.toList.drop (offset + data.length) := by
  induction data generalizing buffer offset with
  | nil => simp [writeAt]
  | cons b data ih =>
      rw [List.length_cons] at h
      have hpos : offset < (buffer.toList.set offset b).length := by
        rw [List.length_set, Vector.length_toList]
        omega
      rw [writeAt, ih _ _ (by omega), Vector.toList_setIfInBounds,
        List.take_succ_eq_append_getElem hpos, List.getElem_set_self,
        List.take_set_of_le (Nat.le_refl _), List.drop_set_of_lt (by omega)]
      simp [Nat.add_comm, Nat.add_left_comm]

/-- A buffer of zero bytes. -/
def zeroBlock (size : Nat) : Vector UInt8 size := Vector.replicate size 0

/-- The block that begins with `data`. -/
def blockOf (size : Nat) (data : Bytes) : Vector UInt8 size := writeAt (zeroBlock size) 0 data

/-- A message in progress. -/
@[ext]
structure Absorber {W : Type} (C : Compression W) where
  /-- The chaining state after the blocks compressed so far. -/
  state : Vector W 8
  /-- Holds the input that waits for a full block. -/
  block : Vector UInt8 C.blockSize
  /-- How many bytes of `block` wait. -/
  pending : Nat
  /-- How many bytes were absorbed, modulo `2 ^ 128`. -/
  total : BitVec 128

namespace Absorber

variable {W : Type} {C : Compression W}

/-- An absorber that has taken in nothing. -/
def start (initial : Vector W 8) : Absorber C where
  state := initial
  block := zeroBlock C.blockSize
  pending := 0
  total := 0

/-- Compress the whole blocks at the front of `data` straight from the input, and keep
what is left over in the buffer. -/
def absorbBlocks (a : Absorber C) (data : Bytes) : Absorber C :=
  let count := data.length / C.blockSize
  let rest := data.drop (count * C.blockSize)
  let state := (pieces C.blockSize count data).foldl
    (fun state piece => C.compress state (blockOf C.blockSize piece)) a.state
  if rest.isEmpty then { a with state }
  else { a with state, block := writeAt a.block 0 rest, pending := rest.length }

/-- Take in `data`: fill up the block that waits, compress it when it is full, and go on
with the rest of the input. -/
def absorb (a : Absorber C) (data : Bytes) : Absorber C :=
  if data.isEmpty then a
  else
    let a := { a with total := a.total + BitVec.ofNat 128 data.length }
    if a.pending = 0 then a.absorbBlocks data
    else
      let taken := min (C.blockSize - a.pending) data.length
      let block := writeAt a.block a.pending (data.take taken)
      let pending := a.pending + taken
      if pending < C.blockSize then { a with block, pending }
      else
        { a with state := C.compress a.state block, block, pending := 0 }.absorbBlocks
          (data.drop taken)

/-- Close the message: the byte `0x80`, as many zero bytes as bring the length field to
the end of a block, and the length in bits before any padding, most significant byte
first. The buffer is empty and cleared afterwards. -/
def close (a : Absorber C) : Absorber C :=
  let bitLength := Bytes.bigEndian 16 (a.total * 8#128).toNat
  let tail := C.blockSize - C.lengthSize
  let size := if a.pending < tail then tail - a.pending else C.blockSize + tail - a.pending
  let filler := (0x80 :: Bytes.zeros (C.blockSize - 1)).take size
  let closed := (a.absorb filler).absorb (bitLength.drop (16 - C.lengthSize))
  { closed with block := zeroBlock C.blockSize }

/-- Take in a key, close it as if it were a message, and take it in again. An empty key
changes nothing. -/
def absorbKey (a : Absorber C) (key : Bytes) : Absorber C :=
  if key.isEmpty then a else ((a.absorb key).close).absorb key

/-- Close the message and write the chaining state over `buffer`. -/
def closeInto [Word W] (a : Absorber C) (buffer : Bytes) : Bytes :=
  Word.storeAll a.close.state.toList buffer

@[simp] theorem absorb_nil (a : Absorber C) : a.absorb [] = a := rfl

@[simp] theorem absorbKey_nil (a : Absorber C) : a.absorbKey [] = a := rfl

@[simp] theorem length_closeInto [Word W] (a : Absorber C) (buffer : Bytes) :
    (a.closeInto buffer).length = buffer.length := by
  simp [closeInto]

end Absorber

end ValueHashing
