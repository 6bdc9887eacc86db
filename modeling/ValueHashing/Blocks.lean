import ValueHashing.Bytes

/-!
# Blocks of a message

A message is read from the front in blocks of equal size; what does not fill a block is
left over. Appending to a message keeps the blocks that it has and goes on from what is
left over (`messageBlocks_append`, `leftover_append`).
-/

namespace ValueHashing

/-- Block `i` of a message. Positions beyond its end count as zero. -/
def messageBlock (size : Nat) (message : Bytes) (i : Nat) : Vector UInt8 size :=
  Vector.ofFn fun j => message.getD (i * size + j.val) 0

/-- The whole blocks of a message, in order. -/
def messageBlocks (size : Nat) (message : Bytes) : List (Vector UInt8 size) :=
  (List.range (message.length / size)).map (messageBlock size message)

/-- What follows the last whole block of a message. -/
def leftover (size : Nat) (message : Bytes) : Bytes :=
  message.drop (message.length / size * size)

@[simp] theorem length_messageBlocks (size : Nat) (message : Bytes) :
    (messageBlocks size message).length = message.length / size := by
  simp [messageBlocks]

@[simp] theorem length_leftover (size : Nat) (message : Bytes) :
    (leftover size message).length = message.length % size := by
  rw [leftover, List.length_drop, Nat.mul_comm, Nat.mod_eq_sub]

theorem messageBlocks_of_length_lt {size : Nat} {message : Bytes} (h : message.length < size) :
    messageBlocks size message = [] := by
  simp [messageBlocks, Nat.div_eq_of_lt h]

theorem leftover_of_length_lt {size : Nat} {message : Bytes} (h : message.length < size) :
    leftover size message = message := by
  simp [leftover, Nat.div_eq_of_lt h]

theorem leftover_eq_nil {size : Nat} {message : Bytes} (h : size ∣ message.length) :
    leftover size message = [] := by
  rw [← List.length_eq_zero_iff, length_leftover]
  exact Nat.mod_eq_zero_of_dvd h

/-- Leaving out the first block moves every other block one place to the front. -/
theorem messageBlock_drop (size : Nat) (message : Bytes) (i : Nat) :
    messageBlock size (message.drop size) i = messageBlock size message (i + 1) := by
  apply Vector.ext
  intro j hj
  have hpos : size + (i * size + j) = (i + 1) * size + j := by
    rw [Nat.succ_mul]
    omega
  simp [messageBlock, List.getElem?_drop, hpos]

/-- What stands behind a block does not show in it. -/
theorem messageBlock_append {size : Nat} {xs : Bytes} (ys : Bytes) {i : Nat}
    (h : (i + 1) * size ≤ xs.length) :
    messageBlock size (xs ++ ys) i = messageBlock size xs i := by
  apply Vector.ext
  intro j hj
  have hlt : i * size + j < xs.length := by
    rw [Nat.succ_mul] at h
    omega
  simp [messageBlock, List.getElem?_append_left hlt]

theorem toList_messageBlock_zero {size : Nat} {message : Bytes} (h : size ≤ message.length) :
    (messageBlock size message 0).toList = message.take size := by
  apply List.ext_getElem
  · simp [h]
  · intro j hj hj'
    have hlt : j < message.length := by
      simp only [Vector.length_toList] at hj
      omega
    simp [messageBlock, hlt]

/-- Without its first block a message has one block less. -/
theorem length_div_eq_succ {size : Nat} {message : Bytes} (hs : 0 < size)
    (h : size ≤ message.length) :
    message.length / size = (message.drop size).length / size + 1 := by
  rw [List.length_drop]
  exact Nat.div_eq_sub_div hs h

/-- Induction over a message block by block. -/
theorem block_induction {size : Nat} (hs : 0 < size) {motive : Bytes → Prop}
    (short : ∀ message, message.length < size → motive message)
    (block : ∀ message, size ≤ message.length → motive (message.drop size) → motive message)
    (message : Bytes) : motive message := by
  induction hn : message.length / size generalizing message with
  | zero => exact short message ((Nat.div_eq_zero_iff_lt hs).mp hn)
  | succ n ih =>
      by_cases hlt : message.length < size
      · exact short message hlt
      · have hle : size ≤ message.length := Nat.le_of_not_lt hlt
        rw [length_div_eq_succ hs hle] at hn
        exact block message hle (ih (message.drop size) (Nat.succ.inj hn))

/-- A message of at least one block is its first block and the blocks of the rest. -/
theorem messageBlocks_eq_cons {size : Nat} {message : Bytes} (hs : 0 < size)
    (h : size ≤ message.length) :
    messageBlocks size message =
      messageBlock size message 0 :: messageBlocks size (message.drop size) := by
  simp only [messageBlocks, length_div_eq_succ hs h, List.range_succ_eq_map, List.map_cons,
    List.map_map]
  congr 1
  apply List.map_congr_left
  intro i _
  exact (messageBlock_drop size message i).symm

theorem leftover_drop {size : Nat} {message : Bytes} (hs : 0 < size)
    (h : size ≤ message.length) : leftover size (message.drop size) = leftover size message := by
  rw [leftover, leftover, length_div_eq_succ hs h, List.drop_drop, Nat.succ_mul, Nat.add_comm]

theorem messageBlocks_of_length_eq {size : Nat} {message : Bytes} (hs : 0 < size)
    (h : message.length = size) : messageBlocks size message = [messageBlock size message 0] := by
  have hrest : message.drop size = [] := List.drop_of_length_le (Nat.le_of_eq h)
  rw [messageBlocks_eq_cons hs (Nat.le_of_eq h.symm), hrest, messageBlocks_of_length_lt hs]

/-- Blocks and leftover of a longer message, together since both shorten it by a block. -/
theorem messageBlocks_leftover_append {size : Nat} (hs : 0 < size) (xs ys : Bytes) :
    messageBlocks size (xs ++ ys) =
        messageBlocks size xs ++ messageBlocks size (leftover size xs ++ ys) ∧
      leftover size (xs ++ ys) = leftover size (leftover size xs ++ ys) := by
  induction xs using block_induction hs with
  | short xs hlt => simp [messageBlocks_of_length_lt hlt, leftover_of_length_lt hlt]
  | block xs hle ih =>
      have hle' : size ≤ (xs ++ ys).length := by
        rw [List.length_append]
        omega
      have hdrop : (xs ++ ys).drop size = xs.drop size ++ ys := List.drop_append_of_le_length hle
      obtain ⟨hblocks, hleft⟩ := ih
      rw [leftover_drop hs hle] at hblocks hleft
      constructor
      · rw [messageBlocks_eq_cons hs hle', messageBlocks_eq_cons hs hle, hdrop, hblocks,
          messageBlock_append ys (by omega), List.cons_append]
      · rw [← leftover_drop hs hle', hdrop, hleft]

/-- Appending keeps the blocks of a message and goes on from what is left over. -/
theorem messageBlocks_append {size : Nat} (hs : 0 < size) (xs ys : Bytes) :
    messageBlocks size (xs ++ ys) =
      messageBlocks size xs ++ messageBlocks size (leftover size xs ++ ys) :=
  (messageBlocks_leftover_append hs xs ys).1

theorem leftover_append {size : Nat} (hs : 0 < size) (xs ys : Bytes) :
    leftover size (xs ++ ys) = leftover size (leftover size xs ++ ys) :=
  (messageBlocks_leftover_append hs xs ys).2

end ValueHashing
