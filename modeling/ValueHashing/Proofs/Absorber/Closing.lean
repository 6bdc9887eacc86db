import Mathlib.Order.Bounds.Defs
import ValueHashing.Proofs.Absorber.Collisions
import ValueHashing.Proofs.Absorber.Run

/-!
# Closing a message

To close a message is to absorb its padding and to clear the buffer
(`Tracks.close_eq_absorb_padding`). The bytes that wait and the padding make up one block when the
byte `0x80` and the length field have room behind them, and two blocks when they have not
(`length_div_padding`); these are what the compression is called on (`close_absorbs_padding`).
-/

namespace ValueHashing

/-- The bytes that wait and the padding behind them are one block or two. -/
theorem length_div_padding {blockSize lengthSize : Nat} (n : Nat) (h : lengthSize < blockSize) :
    (n % blockSize + (padding blockSize lengthSize n).length) / blockSize =
      if n % blockSize + 1 + lengthSize ≤ blockSize then 1 else 2 := by
  have hlt := Nat.mod_lt n (Nat.zero_lt_of_lt h)
  have hzeros := zeroCount_add_one n h
  rw [length_padding]
  generalize n % blockSize = p at *
  generalize zeroCount blockSize lengthSize n = z at *
  split
  · next hroom =>
      rw [if_pos (by omega)] at hzeros
      have hblock : p + (1 + z + lengthSize) = blockSize * 1 := by omega
      rw [hblock, Nat.mul_div_cancel_left 1 (Nat.zero_lt_of_lt h)]
  · next hfull =>
      rw [if_neg (by omega)] at hzeros
      have hblocks : p + (1 + z + lengthSize) = blockSize * 2 := by omega
      rw [hblocks, Nat.mul_div_cancel_left 2 (Nat.zero_lt_of_lt h)]

theorem isLeast_zeroCount {blockSize : Nat} (lengthSize n : Nat) (hb : 0 < blockSize) :
    IsLeast {k | blockSize ∣ n + 1 + k + lengthSize} (zeroCount blockSize lengthSize n) := by
  constructor
  · have hdvd := dvd_add_length_padding lengthSize n hb
    rwa [length_padding, ← Nat.add_assoc, ← Nat.add_assoc] at hdvd
  · intro z hz
    exact zeroCount_le hz

namespace Absorber

variable {W : Type} {C : Compression W} {initial : Vector W 8} {a : Absorber C}
  {recording : Absorber C.recorded} {message : Bytes}

/-- In one piece or in two, closing absorbs the padding and clears the buffer. -/
theorem Tracks.close_eq_absorb_padding (h : Tracks initial a message) :
    a.close =
      { a.absorb (padding C.blockSize C.lengthSize message.length) with
        block := zeroBlock C.blockSize } := by
  have hpadded := h.absorb (padding C.blockSize C.lengthSize message.length)
  apply Absorber.ext
  · exact h.close.state.trans hpadded.state.symm
  · rfl
  · exact h.close.pending.trans hpadded.pending.symm
  · exact h.close.total.trans hpadded.total.symm

/-- The blocks that are compressed when a message is closed. -/
def closingBlocks (a : Absorber C) (message : Bytes) : List (Vector UInt8 C.blockSize) :=
  messageBlocks C.blockSize
    (a.block.toList.take a.pending ++ padding C.blockSize C.lengthSize message.length)

theorem Tracks.flatMap_closingBlocks (h : Tracks initial a message) :
    (a.closingBlocks message).flatMap Vector.toList =
      a.block.toList.take a.pending ++ padding C.blockSize C.lengthSize message.length := by
  have hwhole := flatMap_messageBlocks_append_leftover C.blockSize_pos
    (leftover C.blockSize message ++ padding C.blockSize C.lengthSize message.length)
  rw [← leftover_append C.blockSize_pos, leftover_eq_nil (C.dvd_length_padded message),
    List.append_nil] at hwhole
  rw [closingBlocks, h.waiting, hwhole]

theorem Tracks.length_closingBlocks (h : Tracks initial a message) :
    (a.closingBlocks message).length =
      if message.length % C.blockSize + 1 + C.lengthSize ≤ C.blockSize then 1 else 2 := by
  rw [closingBlocks, length_messageBlocks, h.waiting, List.length_append, length_leftover,
    length_div_padding message.length C.lengthSize_lt]

/-- Closing adds the calls on these blocks to the record. -/
theorem Tracks.record_close (h : Tracks initial a message)
    (hrecording : Tracks (C.withRecord initial []) recording message) :
    ∃ earlier : List C.Call,
      recording.state = C.withRecord a.state earlier ∧
        recording.close.state =
          C.withRecord a.close.state (earlier ++ C.calls a.state (a.closingBlocks message)) := by
  refine ⟨C.calls initial (messageBlocks C.blockSize message), ?_, ?_⟩
  · rw [hrecording.state, h.state]
    exact C.chain_recorded initial message
  · have hcalls : C.calls initial (C.paddedBlocks message) =
        C.calls initial (messageBlocks C.blockSize message) ++
          C.calls a.state (a.closingBlocks message) := by
      rw [Compression.paddedBlocks, messageBlocks_append C.blockSize_pos, C.calls_append,
        closingBlocks, h.waiting, h.state]
      rfl
    rw [hrecording.close.state, h.close.state, ← hcalls]
    exact C.chain_recorded initial _

/-- Closing a message of `n` bytes, taken in in any pieces, absorbs the byte `0x80`, the least
number of zero bytes that brings the length field to the end of a block, and the low bytes of the
length in bits before the padding. The bytes that wait and the padding are compressed, as one block
if the padding finds room behind the bytes that wait and else as two. The buffer is empty and
cleared afterwards, and the padding is counted. -/
theorem close_absorbs_padding (C : Compression W) (initial : Vector W 8) (chunks : List Bytes)
    (hlt : chunks.flatten.length < 2 ^ 125) :
    let a := chunks.foldl absorb (start (C := C) initial)
    let recording := chunks.foldl absorb (start (C := C.recorded) (C.withRecord initial []))
    let n := chunks.flatten.length
    let z := zeroCount C.blockSize C.lengthSize n
    let added := 0x80 :: (Bytes.zeros z ++ (Bytes.bigEndian 16 (8 * n)).drop (16 - C.lengthSize))
    a.pending = n % C.blockSize ∧
      IsLeast {k | C.blockSize ∣ n + 1 + k + C.lengthSize} z ∧
      a.close = { a.absorb added with block := zeroBlock C.blockSize } ∧
      (∃ earlier calls : List C.Call,
        recording.state = C.withRecord a.state earlier ∧
          recording.close.state = C.withRecord a.close.state (earlier ++ calls) ∧
          calls.flatMap (fun call => call.2.toList) = a.block.toList.take a.pending ++ added ∧
          calls.length = if n % C.blockSize + 1 + C.lengthSize ≤ C.blockSize then 1 else 2) ∧
      a.close.pending = 0 ∧
      a.close.block = zeroBlock C.blockSize ∧
      a.close.total = BitVec.ofNat 128 (n + 1 + z + C.lengthSize) ∧
      (C.blockSize < 2 ^ 64 → a.close.total.toNat = n + 1 + z + C.lengthSize) := by
  intro a recording n z added
  have h : Tracks initial a chunks.flatten := (Tracks.start initial).absorbAll chunks
  have hrecording : Tracks (C.withRecord initial []) recording chunks.flatten :=
    (Tracks.start (C := C.recorded) (C.withRecord initial [])).absorbAll chunks
  have hadded : added = padding C.blockSize C.lengthSize n := by
    rw [padding, ← Bytes.drop_bigEndian_sub C.lengthSize_le]
  have htotal : a.close.total = BitVec.ofNat 128 (n + 1 + z + C.lengthSize) := by
    rw [h.close.total, List.length_append, length_padding, ← Nat.add_assoc, ← Nat.add_assoc]
  have hleast := isLeast_zeroCount C.lengthSize n C.blockSize_pos
  refine ⟨h.pending, hleast, ?_, ?_, h.pending_close, rfl, htotal, ?_⟩
  · rw [hadded]
    exact h.close_eq_absorb_padding
  · obtain ⟨earlier, hearlier, hclosed⟩ := h.record_close hrecording
    refine ⟨earlier, C.calls a.state (a.closingBlocks chunks.flatten), hearlier, hclosed, ?_, ?_⟩
    · rw [← List.flatMap_map Prod.snd Vector.toList, C.map_snd_calls, h.flatMap_closingBlocks,
        hadded]
    · rw [C.length_calls, h.length_closingBlocks]
  · intro hsize
    have hzeros : z < C.blockSize := zeroCount_lt _ _ C.blockSize_pos
    have hfield := C.lengthSize_le
    rw [htotal, BitVec.toNat_ofNat, Nat.mod_eq_of_lt (by omega)]

/-- Six bytes leave four of a block of ten free, one too few for the padding: a second block
follows, and the message counts twenty bytes. With five bytes the padding would just fit. -/
theorem close_absorbs_padding_spilled :
    let C := counting
    let chunks : List Bytes := [[1, 2], [], [3, 4, 5, 6]]
    let a := chunks.foldl absorb (start (C := C) (Vector.replicate 8 0))
    chunks.flatten.length < 2 ^ 125 ∧ C.blockSize < 2 ^ 64 ∧
      a.close =
        { a.absorb [0x80, 0, 0, 0, 0, 0, 0, 0, 0, 0, 0, 0, 0, 48] with block := zeroBlock 10 } ∧
      a.close.total.toNat = 20 ∧
      zeroCount C.blockSize C.lengthSize 5 = 0 ∧
      ∃ calls : List C.Call, calls.length = 2 ∧
        calls.flatMap (fun call => call.2.toList) =
          [1, 2, 3, 4, 5, 6, 0x80, 0, 0, 0, 0, 0, 0, 0, 0, 0, 0, 0, 0, 48] := by
  intro C chunks a
  have hlt : chunks.flatten.length < 2 ^ 125 := by decide
  have hsize : C.blockSize < 2 ^ 64 := by decide
  have hadded :
      0x80 :: (Bytes.zeros (zeroCount 10 4 6) ++ (Bytes.bigEndian 16 (8 * 6)).drop (16 - 4)) =
        [0x80, 0, 0, 0, 0, 0, 0, 0, 0, 0, 0, 0, 0, 48] := by decide
  obtain ⟨-, -, hclose, ⟨-, calls, -, -, hblocks, hcount⟩, -, -, -, htotal⟩ :=
    close_absorbs_padding C (Vector.replicate 8 0) chunks hlt
  refine ⟨hlt, hsize, ?_, (htotal hsize).trans ?_, by decide, calls, hcount, hblocks.trans ?_⟩
  · rw [← hadded]
    exact hclose
  · decide
  · decide

end Absorber

end ValueHashing
