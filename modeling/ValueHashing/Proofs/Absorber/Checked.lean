import ValueHashing.Proofs.Absorber.Invariant

/-!
# Operations that check themselves

`absorb?`, `close?` and `absorbKey?` do what `absorb`, `close` and `absorbKey` do and check on
the way that the buffered bytes agree with the length, that no difference of lengths is
negative, and that every part of a buffer that is read or written exists. An operation with
a failed check has no result. None fails on an absorber that tracks a message, as long as the
length of the message is counted exactly.
-/

namespace ValueHashing

/-- The difference of two lengths, if it is not negative. -/
def difference? (m n : Nat) : Option Nat := if n ≤ m then some (m - n) else none

/-- The bytes from position `i` up to position `j`, if `data` has these positions. -/
def slice? (data : Bytes) (i j : Nat) : Option Bytes :=
  if i ≤ j ∧ j ≤ data.length then some ((data.take j).drop i) else none

/-- Write `data` over the positions from `i` up to `j`, if the buffer has these positions and
there are as many bytes to write. -/
def writeOver? {size : Nat} (buffer : Vector UInt8 size) (i j : Nat) (data : Bytes) :
    Option (Vector UInt8 size) :=
  if i ≤ j ∧ j ≤ size ∧ data.length = j - i then some (writeAt buffer i data) else none

/-- Go on if `p` holds. -/
def check? (p : Prop) [Decidable p] : Option Unit := if p then some () else none

theorem check?_eq {p : Prop} [Decidable p] (h : p) : check? p = some () := if_pos h

theorem difference?_eq {m n : Nat} (h : n ≤ m) : difference? m n = some (m - n) := if_pos h

theorem slice?_eq {data : Bytes} {i j : Nat} (hij : i ≤ j) (hj : j ≤ data.length) :
    slice? data i j = some ((data.take j).drop i) := if_pos ⟨hij, hj⟩

theorem writeOver?_eq {size : Nat} (buffer : Vector UInt8 size) {i j : Nat} {data : Bytes}
    (hj : j ≤ size) (h : i + data.length = j) :
    writeOver? buffer i j data = some (writeAt buffer i data) :=
  if_pos ⟨by omega, hj, by omega⟩

namespace Absorber

variable {W : Type} {C : Compression W} {initial : Vector W 8} {a : Absorber C}
  {message : Bytes}

/-- `absorbBlocks`, with a check that the rest of the input fits into the buffer. -/
def absorbBlocks? (a : Absorber C) (data : Bytes) : Option (Absorber C) :=
  let count := data.length / C.blockSize
  let rest := data.drop (count * C.blockSize)
  let state := (pieces C.blockSize count data).foldl
    (fun state piece => C.compress state (blockOf C.blockSize piece)) a.state
  if rest.isEmpty then some { a with state }
  else do
    let block ← writeOver? a.block 0 rest.length rest
    return { a with state, block, pending := rest.length }

/-- `absorb`, with a check that as many bytes wait as the length says, and that every part
of the input and of the buffer exists. -/
def absorb? (a : Absorber C) (data : Bytes) : Option (Absorber C) := do
  check? (a.pending = a.total.toNat % C.blockSize)
  if data.isEmpty then some a
  else
    let a := { a with total := a.total + BitVec.ofNat 128 data.length }
    if a.pending = 0 then a.absorbBlocks? data
    else
      let room ← difference? C.blockSize a.pending
      let taken := min room data.length
      let front ← slice? data 0 taken
      let block ← writeOver? a.block a.pending (a.pending + taken) front
      let pending := a.pending + taken
      let rest ← slice? data taken data.length
      if pending < C.blockSize then some { a with block, pending }
      else
        let filled := { a with state := C.compress a.state block, block, pending := 0 }
        filled.absorbBlocks? rest

/-- `close`, with a check that the parts of the padding exist, and that no byte waits when
they are absorbed. -/
def close? (a : Absorber C) : Option (Absorber C) := do
  let bitLength := Bytes.bigEndian 16 (a.total * 8#128).toNat
  let tail ← difference? C.blockSize C.lengthSize
  let size ← difference? (if a.pending < tail then tail else C.blockSize + tail) a.pending
  let filler ← slice? (0x80 :: Bytes.zeros (C.blockSize - 1)) 0 size
  let filled ← a.absorb? filler
  let offset ← difference? 16 C.lengthSize
  let lengthField ← slice? bitLength offset 16
  let closed ← filled.absorb? lengthField
  check? (closed.pending = 0)
  return { closed with block := zeroBlock C.blockSize }

/-- `absorbKey` with the checks of its parts. -/
def absorbKey? (a : Absorber C) (key : Bytes) : Option (Absorber C) :=
  if key.isEmpty then some a
  else do
    let first ← a.absorb? key
    let closed ← first.close?
    closed.absorb? key

/-- What is left over of the input fits into the buffer, whatever the absorber. -/
theorem absorbBlocks?_eq (a : Absorber C) (data : Bytes) :
    a.absorbBlocks? data = some (a.absorbBlocks data) := by
  have hle : (leftover C.blockSize data).length ≤ C.blockSize := by
    rw [length_leftover]
    exact Nat.le_of_lt (Nat.mod_lt _ C.blockSize_pos)
  have hwrite := writeOver?_eq a.block hle (Nat.zero_add _)
  rw [leftover] at hwrite
  unfold absorbBlocks? absorbBlocks
  simp only [hwrite]
  split <;> rfl

theorem absorb?_eq (h : Tracks initial a message) (hlt : message.length < 2 ^ 128)
    (data : Bytes) : a.absorb? data = some (a.absorb data) := by
  have hpending : a.pending = a.total.toNat % C.blockSize := by
    rw [h.pending, h.total, BitVec.toNat_ofNat, Nat.mod_eq_of_lt hlt]
  have hroom := h.pending_lt
  generalize htaken : min (C.blockSize - a.pending) data.length = taken
  have hfront : slice? data 0 taken = some (data.take taken) := slice?_eq (by omega) (by omega)
  have hblock : writeOver? a.block a.pending (a.pending + taken) (data.take taken) =
      some (writeAt a.block a.pending (data.take taken)) := by
    refine writeOver?_eq _ (by omega) ?_
    rw [List.length_take]
    omega
  have hrest : slice? data taken data.length = some (data.drop taken) := by
    rw [slice?_eq (by omega) (by omega), List.take_length]
  unfold absorb? absorb
  simp only [check?_eq hpending, difference?_eq (Nat.le_of_lt hroom), htaken, hfront, hblock, hrest,
    absorbBlocks?_eq, Option.bind_eq_bind, Option.bind_some]
  split
  · rfl
  · split
    · rfl
    · split <;> rfl

/-- The padding up to the length field is a part of the buffer that it is made in. -/
theorem Holds.filler? (h : Holds initial a message) :
    let tail := C.blockSize - C.lengthSize
    let zeros := zeroCount C.blockSize C.lengthSize message.length
    difference? (if a.pending < tail then tail else C.blockSize + tail) a.pending =
        some (zeros + 1) ∧
      slice? (0x80 :: Bytes.zeros (C.blockSize - 1)) 0 (zeros + 1) =
        some (0x80 :: Bytes.zeros zeros) := by
  intro tail zeros
  have hsize : zeros + 1 = _ := zeroCount_add_one message.length C.lengthSize_lt
  have hzeros : zeros < C.blockSize := zeroCount_lt C.lengthSize message.length C.blockSize_pos
  have hp := h.pending_lt
  rw [← h.pending] at hsize
  constructor
  · rw [hsize]
    split <;> exact difference?_eq (by omega)
  · rw [slice?_eq (by omega) (by simp only [List.length_cons, Bytes.length_zeros]; omega), hsize,
      h.filler, List.drop_zero]

/-- The length field is a part of the length counter. -/
theorem Tracks.lengthField? (h : Tracks initial a message) :
    slice? (Bytes.bigEndian 16 (a.total * 8#128).toNat) (16 - C.lengthSize) 16 =
      some (Bytes.bigEndian C.lengthSize (8 * message.length)) := by
  rw [slice?_eq (by omega) (by simp), List.take_of_length_le (by simp), h.lengthField]

theorem close?_eq (h : Tracks initial a message)
    (hlt : (message ++ padding C.blockSize C.lengthSize message.length).length < 2 ^ 128) :
    a.close? = some a.close := by
  generalize hzeros : zeroCount C.blockSize C.lengthSize message.length = zeros
  obtain ⟨hroom, hfiller⟩ := h.filler?
  have hpadded := h.close_eq_absorb
  rw [hzeros] at hroom hfiller hpadded
  rw [List.length_append, length_padding, hzeros] at hlt
  have hmessage_lt : message.length < 2 ^ 128 := by omega
  have hfilled := h.absorb (0x80 :: Bytes.zeros zeros)
  have hfilled_lt : (message ++ 0x80 :: Bytes.zeros zeros).length < 2 ^ 128 := by
    simp only [List.length_append, List.length_cons, Bytes.length_zeros]
    omega
  have hclosed : ((a.absorb (0x80 :: Bytes.zeros zeros)).absorb
      (Bytes.bigEndian C.lengthSize (8 * message.length))).pending = 0 := by
    have hpending := h.pending_close
    rwa [hpadded] at hpending
  unfold close?
  simp only [difference?_eq (Nat.le_of_lt C.lengthSize_lt), difference?_eq C.lengthSize_le, hroom,
    hfiller, h.lengthField?, absorb?_eq h hmessage_lt, absorb?_eq hfilled hfilled_lt,
    check?_eq hclosed, Option.bind_eq_bind, Option.bind_some]
  rw [hpadded]
  rfl

theorem absorbKey?_eq (h : Tracks initial a message) (key : Bytes)
    (hlt : (message ++ key ++
      padding C.blockSize C.lengthSize (message.length + key.length)).length < 2 ^ 128) :
    a.absorbKey? key = some (a.absorbKey key) := by
  have hkeyed_lt : (message ++ key).length < 2 ^ 128 := by
    rw [List.length_append] at hlt
    omega
  have hmessage_lt : message.length < 2 ^ 128 := by
    rw [List.length_append] at hkeyed_lt
    omega
  have hkeyed := h.absorb key
  have hclosed := hkeyed.close
  rw [← List.length_append] at hlt
  unfold absorbKey? absorbKey
  simp only [absorb?_eq h hmessage_lt, close?_eq hkeyed hlt, absorb?_eq hclosed hlt,
    Option.bind_eq_bind, Option.bind_some]
  split <;> rfl

end Absorber

end ValueHashing
