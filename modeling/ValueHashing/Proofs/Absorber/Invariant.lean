import ValueHashing.Absorber
import ValueHashing.Blocks
import ValueHashing.Padding
import ValueHashing.Proofs.Digits

/-!
# What an absorber holds of its message

An absorber keeps three things of the message that it has taken in: the chaining state after
the whole blocks, the bytes left over, and the length (`Absorber.Tracks`). Every operation keeps
them for a longer message: absorbed bytes are appended as they are (`Tracks.absorb`), closing
appends the padding (`Tracks.close`), and a key stands before and after its own padding
(`Tracks.absorbKey`). Absorbers that track one message close alike (`Tracks.close_eq`).

## Implementation notes

The invariant says nothing about the buffer at and beyond `pending`, so two absorbers that
track one message need not be equal. The length is kept modulo `2 ^ 128`, and with that the
invariant holds for messages of every length.
-/

namespace ValueHashing

/-- The chaining state after the whole blocks of a message. -/
def Compression.chain {W : Type} (C : Compression W) (initial : Vector W 8)
    (message : Bytes) : Vector W 8 :=
  (messageBlocks C.blockSize message).foldl C.compress initial

theorem Compression.blockSize_pos {W : Type} (C : Compression W) : 0 < C.blockSize :=
  Nat.zero_lt_of_lt C.lengthSize_lt

/-- A longer message goes on from the chaining state and the bytes left over. -/
theorem Compression.chain_append {W : Type} (C : Compression W) (initial : Vector W 8)
    (xs ys : Bytes) :
    C.chain initial (xs ++ ys) =
      C.chain (C.chain initial xs) (leftover C.blockSize xs ++ ys) := by
  rw [chain, messageBlocks_append C.blockSize_pos, List.foldl_append]
  rfl

theorem Compression.chain_of_length_lt {W : Type} (C : Compression W) (initial : Vector W 8)
    {message : Bytes} (h : message.length < C.blockSize) : C.chain initial message = initial := by
  rw [chain, messageBlocks_of_length_lt h, List.foldl_nil]

/-- A full block of input is the first block of the message that begins with it. -/
theorem blockOf_take {size : Nat} {data : Bytes} (h : size ≤ data.length) :
    blockOf size (data.take size) = messageBlock size data 0 := by
  have hlength : (data.take size).length = size := List.length_take_of_le h
  apply Vector.toList_inj.mp
  rw [toList_messageBlock_zero h, blockOf, toList_writeAt _ _ _ (by omega), hlength,
    List.drop_of_length_le (by simp), List.take_zero, List.nil_append, List.append_nil]

/-- The pieces that are compressed straight from the input are its whole blocks. -/
theorem map_blockOf_pieces {size : Nat} (hs : 0 < size) (data : Bytes) :
    (pieces size (data.length / size) data).map (blockOf size) = messageBlocks size data := by
  induction data using block_induction hs with
  | short data hlt =>
      rw [messageBlocks_of_length_lt hlt, Nat.div_eq_of_lt hlt, pieces, List.map_nil]
  | block data hle ih =>
      rw [length_div_eq_succ hs hle, pieces, List.map_cons, blockOf_take hle, ih,
        messageBlocks_eq_cons hs hle]

namespace Absorber

variable {W : Type} {C : Compression W} {initial : Vector W 8} {a b : Absorber C}
  {message : Bytes}

/-- The buffer and the chaining state of `a` are those of a message. -/
structure Holds (initial : Vector W 8) (a : Absorber C) (message : Bytes) : Prop where
  pending : a.pending = message.length % C.blockSize
  waiting : a.block.toList.take a.pending = leftover C.blockSize message
  state : a.state = C.chain initial message

/-- `a` is what an absorber becomes that starts from `initial` and takes in a message. -/
structure Tracks (initial : Vector W 8) (a : Absorber C) (message : Bytes) : Prop
    extends Holds initial a message where
  total : a.total = BitVec.ofNat 128 message.length

theorem Tracks.start (initial : Vector W 8) : Tracks initial (start (C := C) initial) [] where
  pending := by simp [Absorber.start]
  waiting := by simp [Absorber.start, leftover]
  state := by simp [Absorber.start, Compression.chain, messageBlocks]
  total := rfl

theorem Holds.pending_lt (h : Holds initial a message) : a.pending < C.blockSize := by
  rw [h.pending]
  exact Nat.mod_lt _ C.blockSize_pos

theorem Holds.dvd_length (h : Holds initial a message) (hp : a.pending = 0) :
    C.blockSize ∣ message.length :=
  Nat.dvd_of_mod_eq_zero (h.pending.symm.trans hp)

/-- Whole blocks from the input, when nothing waits. -/
theorem Holds.absorbBlocks (h : Holds initial a message) (hp : a.pending = 0) (data : Bytes) :
    Holds initial (a.absorbBlocks data) (message ++ data) := by
  have hnil : leftover C.blockSize message = [] := leftover_eq_nil (h.dvd_length hp)
  have hrest : data.drop (data.length / C.blockSize * C.blockSize) =
      leftover C.blockSize data := rfl
  have hleft : leftover C.blockSize (message ++ data) = leftover C.blockSize data := by
    rw [leftover_append C.blockSize_pos, hnil, List.nil_append]
  have hstate : (pieces C.blockSize (data.length / C.blockSize) data).foldl
      (fun state piece => C.compress state (blockOf C.blockSize piece)) a.state =
        C.chain initial (message ++ data) := by
    rw [Compression.chain_append, hnil, List.nil_append, ← h.state, Compression.chain,
      ← map_blockOf_pieces C.blockSize_pos data, List.foldl_map]
  have hlength : (leftover C.blockSize data).length = (message ++ data).length % C.blockSize := by
    rw [← hleft, length_leftover]
  unfold Absorber.absorbBlocks
  simp only [hrest]
  split
  · next hempty =>
      rw [List.isEmpty_iff] at hempty
      rw [hempty, List.length_nil] at hlength
      refine ⟨?_, ?_, hstate⟩
      · simpa only [hp] using hlength
      · simp [hp, hleft, hempty]
  · refine ⟨hlength, ?_, hstate⟩
    have hle : 0 + (leftover C.blockSize data).length ≤ C.blockSize := by
      rw [length_leftover, Nat.zero_add]
      exact Nat.le_of_lt (Nat.mod_lt _ C.blockSize_pos)
    simp [toList_writeAt _ _ _ hle, hleft]

/-- What waits, followed by what is written behind it. -/
theorem Holds.take_writeAt (h : Holds initial a message) (data : Bytes)
    (hle : a.pending + data.length ≤ C.blockSize) :
    (writeAt a.block a.pending data).toList.take (a.pending + data.length) =
      leftover C.blockSize message ++ data := by
  have hlength : (leftover C.blockSize message ++ data).length = a.pending + data.length := by
    rw [List.length_append, length_leftover, h.pending]
  rw [toList_writeAt _ _ _ hle, h.waiting, ← hlength, List.take_left]

/-- Input that does not fill the block waits as well. -/
theorem Holds.wait (h : Holds initial a message) (data : Bytes)
    (hlt : a.pending + data.length < C.blockSize) :
    Holds initial
      { a with block := writeAt a.block a.pending data, pending := a.pending + data.length }
      (message ++ data) := by
  have hshort : (leftover C.blockSize message ++ data).length < C.blockSize := by
    rwa [List.length_append, length_leftover, ← h.pending]
  have hleft : leftover C.blockSize (message ++ data) = leftover C.blockSize message ++ data := by
    rw [leftover_append C.blockSize_pos, leftover_of_length_lt hshort]
  refine ⟨?_, ?_, ?_⟩
  · rw [← length_leftover, hleft, List.length_append, length_leftover, h.pending]
  · rw [hleft]
    exact h.take_writeAt data (Nat.le_of_lt hlt)
  · rw [Compression.chain_append, Compression.chain_of_length_lt C _ hshort]
    exact h.state

/-- Input that fills the block exactly lets it be compressed. -/
theorem Holds.fill (h : Holds initial a message) (data : Bytes)
    (heq : a.pending + data.length = C.blockSize) :
    Holds initial
      { a with
        state := C.compress a.state (writeAt a.block a.pending data)
        block := writeAt a.block a.pending data
        pending := 0 }
      (message ++ data) := by
  have hlength : (leftover C.blockSize message ++ data).length = C.blockSize := by
    rw [List.length_append, length_leftover, ← h.pending, heq]
  have hblock : messageBlock C.blockSize (leftover C.blockSize message ++ data) 0 =
      writeAt a.block a.pending data := by
    apply Vector.toList_inj.mp
    rw [toList_messageBlock_zero (Nat.le_of_eq hlength.symm),
      List.take_of_length_le (Nat.le_of_eq hlength), ← h.take_writeAt data (Nat.le_of_eq heq),
      List.take_of_length_le (by simp [heq])]
  have hblocks : messageBlocks C.blockSize (leftover C.blockSize message ++ data) =
      [writeAt a.block a.pending data] := by
    rw [messageBlocks_of_length_eq C.blockSize_pos hlength, hblock]
  have hmod : (message ++ data).length % C.blockSize = 0 := by
    rw [← length_leftover, leftover_append C.blockSize_pos, length_leftover, hlength, Nat.mod_self]
  refine ⟨hmod.symm, ?_, ?_⟩
  · rw [leftover_eq_nil (Nat.dvd_of_mod_eq_zero hmod), List.take_zero]
  · rw [Compression.chain_append, Compression.chain, hblocks, ← h.state]
    rfl

@[simp] theorem total_absorbBlocks (a : Absorber C) (data : Bytes) :
    (a.absorbBlocks data).total = a.total := by
  unfold Absorber.absorbBlocks
  simp only
  split <;> rfl

@[simp] theorem total_absorb (a : Absorber C) (data : Bytes) :
    (a.absorb data).total = a.total + BitVec.ofNat 128 data.length := by
  unfold Absorber.absorb
  split
  · next hempty => simp [List.isEmpty_iff.mp hempty]
  · simp only
    split
    · simp
    · split <;> simp

theorem Holds.absorb (h : Holds initial a message) (data : Bytes) :
    Holds initial (a.absorb data) (message ++ data) := by
  unfold Absorber.absorb
  split
  · next hempty =>
      rw [List.isEmpty_iff.mp hempty, List.append_nil]
      exact h
  -- Counting the input changes nothing that `Holds` speaks of.
  have hcounted :
      Holds initial { a with total := a.total + BitVec.ofNat 128 data.length } message :=
    ⟨h.pending, h.waiting, h.state⟩
  simp only
  split
  · next hp => exact hcounted.absorbBlocks hp data
  · next hp =>
      have hlt := h.pending_lt
      generalize htaken : min (C.blockSize - a.pending) data.length = taken
      have hlength : (data.take taken).length = taken := by
        rw [List.length_take]
        omega
      split
      · next hroom =>
          have hall : data.take taken = data := List.take_of_length_le (by omega)
          have hwait := hcounted.wait (data.take taken) (by simpa only [hlength] using hroom)
          rw [hlength] at hwait
          rwa [hall] at hwait ⊢
      · next hroom =>
          have hfill := hcounted.fill (data.take taken) (by simp only [hlength]; omega)
          have hblocks := hfill.absorbBlocks rfl (data.drop taken)
          rwa [List.append_assoc, List.take_append_drop] at hblocks

/-- Absorbed bytes are appended to the message. -/
theorem Tracks.absorb (h : Tracks initial a message) (data : Bytes) :
    Tracks initial (a.absorb data) (message ++ data) where
  toHolds := h.toHolds.absorb data
  total := by rw [total_absorb, h.total, ← BitVec.ofNat_add, List.length_append]

/-- Absorbed pieces are appended one after the other. -/
theorem Tracks.absorbAll (h : Tracks initial a message) (chunks : List Bytes) :
    Tracks initial (chunks.foldl Absorber.absorb a) (message ++ chunks.flatten) := by
  induction chunks generalizing a message with
  | nil => simpa using h
  | cons chunk chunks ih =>
      rw [List.foldl_cons, List.flatten_cons, ← List.append_assoc]
      exact ih (h.absorb chunk)

/-- The bytes that closing absorbs first: `0x80` and the zero bytes of the padding. -/
theorem Holds.filler (h : Holds initial a message) :
    (0x80 :: Bytes.zeros (C.blockSize - 1)).take
        (if a.pending < C.blockSize - C.lengthSize then C.blockSize - C.lengthSize - a.pending
          else C.blockSize + (C.blockSize - C.lengthSize) - a.pending) =
      0x80 :: Bytes.zeros (zeroCount C.blockSize C.lengthSize message.length) := by
  have hlt := zeroCount_lt C.lengthSize message.length C.blockSize_pos
  rw [h.pending, ← zeroCount_add_one message.length C.lengthSize_lt, List.take_succ_cons,
    Bytes.zeros, List.take_replicate, Nat.min_eq_left (by omega), Bytes.zeros]

/-- The bytes that closing absorbs last: the length of the message in bits. -/
theorem Tracks.lengthField (h : Tracks initial a message) :
    (Bytes.bigEndian 16 (a.total * 8#128).toNat).drop (16 - C.lengthSize) =
      Bytes.bigEndian C.lengthSize (8 * message.length) := by
  have hbits : (a.total * 8#128).toNat = 8 * message.length % 256 ^ 16 := by
    rw [h.total, BitVec.toNat_mul, BitVec.toNat_ofNat, BitVec.toNat_ofNat]
    omega
  rw [Bytes.drop_bigEndian_sub C.lengthSize_le, hbits, Bytes.bigEndian_mod C.lengthSize_le]

/-- Closing absorbs the padding in two parts and clears the buffer. -/
theorem Tracks.close_eq_absorb (h : Tracks initial a message) :
    a.close =
      { (a.absorb (0x80 :: Bytes.zeros (zeroCount C.blockSize C.lengthSize message.length))).absorb
          (Bytes.bigEndian C.lengthSize (8 * message.length)) with
        block := zeroBlock C.blockSize } := by
  rw [← h.filler, ← h.lengthField]
  rfl

/-- Closing appends the padding of the message. -/
theorem Tracks.close (h : Tracks initial a message) :
    Tracks initial a.close (message ++ padding C.blockSize C.lengthSize message.length) := by
  have hclosed : Tracks initial _
      (message ++ padding C.blockSize C.lengthSize message.length) :=
    List.append_assoc message _ _ ▸
      (h.absorb (0x80 :: Bytes.zeros (zeroCount C.blockSize C.lengthSize message.length))).absorb
        (Bytes.bigEndian C.lengthSize (8 * message.length))
  have hdvd := dvd_add_length_padding C.lengthSize message.length C.blockSize_pos
  rw [← List.length_append] at hdvd
  have hpending := hclosed.pending
  rw [Nat.mod_eq_zero_of_dvd hdvd] at hpending
  rw [h.close_eq_absorb]
  refine ⟨⟨hclosed.pending, ?_, hclosed.state⟩, hclosed.total⟩
  rw [leftover_eq_nil hdvd, hpending, List.take_zero]

theorem Tracks.pending_close (h : Tracks initial a message) : a.close.pending = 0 := by
  rw [h.close.pending, List.length_append]
  exact Nat.mod_eq_zero_of_dvd (dvd_add_length_padding _ _ C.blockSize_pos)

/-- Absorbers that have taken in one message close alike. -/
theorem Tracks.close_eq (ha : Tracks initial a message) (hb : Tracks initial b message) :
    a.close = b.close := by
  apply Absorber.ext
  · exact ha.close.state.trans hb.close.state.symm
  · rfl
  · exact ha.pending_close.trans hb.pending_close.symm
  · exact ha.close.total.trans hb.close.total.symm

/-- A key stands before and after the padding of the message that it ends. -/
theorem Tracks.absorbKey (h : Tracks initial a message) {key : Bytes} (hkey : key ≠ []) :
    Tracks initial (a.absorbKey key)
      (message ++ key ++
        padding C.blockSize C.lengthSize (message.length + key.length) ++ key) := by
  have hkeyed := ((h.absorb key).close).absorb key
  rw [List.length_append] at hkeyed
  rwa [Absorber.absorbKey, if_neg (by simpa using hkey)]

end Absorber

end ValueHashing
