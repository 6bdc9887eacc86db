import ValueHashing.Bytes

/-!
# Padding a message

What is appended to a message so that it ends on a block boundary with its length in the
last block. A message followed by its padding is a whole number of blocks
(`dvd_add_length_padding`), and no smaller number of zero bytes would do
(`zeroCount_le`).
-/

namespace ValueHashing

/-- The least number of zero bytes that bring a message of `n` bytes, the byte `0x80` and
the length field to the end of a block. -/
def zeroCount (blockSize lengthSize n : Nat) : Nat :=
  (blockSize - (n + 1 + lengthSize) % blockSize) % blockSize

/-- The padding of a message of `n` bytes: the byte `0x80`, zero bytes, and the length in
bits, most significant byte first. -/
def padding (blockSize lengthSize n : Nat) : Bytes :=
  0x80 :: (Bytes.zeros (zeroCount blockSize lengthSize n) ++
    Bytes.bigEndian lengthSize (8 * n))

theorem length_padding (blockSize lengthSize n : Nat) :
    (padding blockSize lengthSize n).length =
      1 + zeroCount blockSize lengthSize n + lengthSize := by
  simp only [padding, List.length_cons, List.length_append, Bytes.length_zeros,
    Bytes.length_bigEndian]
  omega

/-- No smaller number of zero bytes brings the message to the end of a block. -/
theorem zeroCount_le {blockSize lengthSize n z : Nat}
    (h : blockSize ∣ n + 1 + z + lengthSize) : zeroCount blockSize lengthSize n ≤ z := by
  obtain ⟨q, hq⟩ := h
  have hsum : n + 1 + lengthSize + z = blockSize * q := by omega
  unfold zeroCount
  rcases Nat.eq_zero_or_pos blockSize with hb | hb
  · subst hb
    omega
  · have hdiv := Nat.div_add_mod (n + 1 + lengthSize) blockSize
    have hlt := Nat.mod_lt (n + 1 + lengthSize) hb
    generalize (n + 1 + lengthSize) % blockSize = r at *
    generalize (n + 1 + lengthSize) / blockSize = d at *
    rcases Nat.eq_zero_or_pos r with hr | hr
    · simp [hr]
    · rw [Nat.mod_eq_of_lt (by omega)]
      have hdq : d < q := Nat.lt_of_not_le fun hle => by
        have := Nat.mul_le_mul_left blockSize hle
        omega
      have := Nat.mul_le_mul_left blockSize hdq
      rw [Nat.mul_succ] at this
      omega

/-- A message followed by its padding is a whole number of blocks. -/
theorem dvd_add_length_padding {blockSize : Nat} (lengthSize n : Nat) (hb : 0 < blockSize) :
    blockSize ∣ n + (padding blockSize lengthSize n).length := by
  rw [length_padding]
  unfold zeroCount
  have hdiv := Nat.div_add_mod (n + 1 + lengthSize) blockSize
  have hlt := Nat.mod_lt (n + 1 + lengthSize) hb
  generalize (n + 1 + lengthSize) % blockSize = r at *
  generalize (n + 1 + lengthSize) / blockSize = d at *
  rcases Nat.eq_zero_or_pos r with hr | hr
  · subst hr
    exact ⟨d, by simp; omega⟩
  · rw [Nat.mod_eq_of_lt (by omega)]
    exact ⟨d + 1, by rw [Nat.mul_succ]; omega⟩

theorem zeroCount_lt {blockSize : Nat} (lengthSize n : Nat) (hb : 0 < blockSize) :
    zeroCount blockSize lengthSize n < blockSize := Nat.mod_lt _ hb

/-- Of the numbers of zero bytes below the size of a block only one ends the message at the
end of a block. -/
theorem zeroCount_eq {blockSize lengthSize n z : Nat} (hz : z < blockSize)
    (h : blockSize ∣ n + 1 + z + lengthSize) : zeroCount blockSize lengthSize n = z := by
  have hle : zeroCount blockSize lengthSize n ≤ z := zeroCount_le h
  have hpad := dvd_add_length_padding lengthSize n (Nat.zero_lt_of_lt hz)
  rw [length_padding] at hpad
  have hdvd : blockSize ∣ z - zeroCount blockSize lengthSize n := by
    have hsub := Nat.dvd_sub h hpad
    have hdiff : n + 1 + z + lengthSize -
        (n + (1 + zeroCount blockSize lengthSize n + lengthSize)) =
          z - zeroCount blockSize lengthSize n := by omega
    rwa [hdiff] at hsub
  have hzero := Nat.eq_zero_of_dvd_of_lt hdvd (by omega)
  omega

/-- Counted from the bytes that wait, the byte `0x80` and the zero bytes reach up to the
length field of this block, or of the next one where they do not fit. -/
theorem zeroCount_add_one {blockSize lengthSize : Nat} (n : Nat) (h : lengthSize < blockSize) :
    zeroCount blockSize lengthSize n + 1 =
      if n % blockSize < blockSize - lengthSize then
        blockSize - lengthSize - n % blockSize
      else blockSize + (blockSize - lengthSize) - n % blockSize := by
  have hdiv := Nat.div_add_mod n blockSize
  have hlt := Nat.mod_lt n (Nat.zero_lt_of_lt h)
  generalize n % blockSize = p at *
  generalize n / blockSize = q at *
  split
  · next hroom =>
      have hz : zeroCount blockSize lengthSize n = blockSize - lengthSize - p - 1 :=
        zeroCount_eq (by omega) ⟨q + 1, by rw [Nat.mul_succ]; omega⟩
      omega
  · next hroom =>
      have hz : zeroCount blockSize lengthSize n = blockSize + (blockSize - lengthSize) - p - 1 :=
        zeroCount_eq (by omega) ⟨q + 2, by rw [Nat.mul_add]; omega⟩
      omega

end ValueHashing
