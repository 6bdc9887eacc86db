import ValueHashing.Proofs.Digits
import ValueHashing.Sha2.Variant

/-!
# Words cut to the size of a buffer

Words are written into a buffer as one row of bytes, of which the buffer takes as many as it has
room for; what the row does not reach is kept (`Word.storeAll_eq_take_append_drop`). A buffer that
ends inside a word ends with the high digits of that word (`Word.storeAll_of_length_eq`), and so
does a digest that is shorter than the chaining state (`Sha2.Parameters.finish_eq_words`).
-/

namespace ValueHashing

namespace Word

variable {W : Type} [Word W] {words : List W} {buffer : Bytes} {i part : Nat}

/-- The first bytes of a word are its high digits. -/
theorem take_bytes (w : W) (h : part ≤ size W) :
    (bytes w).take part = Bytes.bigEndian part (toNat w / 256 ^ (size W - part)) :=
  Bytes.take_bigEndian h (toNat w)

theorem length_flatMap_bytes (words : List W) :
    (words.flatMap bytes).length = size W * words.length := by
  induction words with
  | nil => rfl
  | cons w words ih =>
      rw [List.flatMap_cons, List.length_append, length_bytes, ih, List.length_cons, Nat.mul_succ,
        Nat.add_comm]

/-- Word `i` of a row begins after the bytes of the words before it. -/
theorem length_flatMap_bytes_take (h : i ≤ words.length) :
    ((words.take i).flatMap bytes).length = size W * i := by
  rw [length_flatMap_bytes, List.length_take_of_le h]

/-- What there is room for is written, and what the words do not reach is kept. -/
theorem storeAll_eq_take_append_drop (words : List W) (buffer : Bytes) :
    let written := min buffer.length (size W * words.length)
    storeAll words buffer = (words.flatMap bytes).take written ++ buffer.drop written := by
  intro written
  -- A cut beyond the end of the row takes all of it, so the row may as well be cut at `written`.
  have htake : (words.flatMap bytes).take buffer.length = (words.flatMap bytes).take written := by
    rw [List.take_eq_take_iff, length_flatMap_bytes]
    omega
  have hdrop : buffer.drop (words.length * size W) = buffer.drop written := by
    rw [List.drop_eq_drop_iff, Nat.mul_comm]
    omega
  rw [storeAll_eq, htake, hdrop]

/-- A row that is cut inside word `i` is the words before it and the front of it. -/
theorem take_flatMap_bytes (hi : i < words.length) (hpart : part ≤ size W) :
    (words.flatMap bytes).take (size W * i + part) =
      (words.take i).flatMap bytes ++ (bytes words[i]).take part := by
  have hsplit : words.flatMap bytes =
      (words.take i).flatMap bytes ++ (bytes words[i] ++ (words.drop (i + 1)).flatMap bytes) := by
    rw [← List.flatMap_cons, ← List.drop_eq_getElem_cons hi, ← List.flatMap_append,
      List.take_append_drop]
  have hword : part ≤ (bytes words[i]).length := by rwa [length_bytes]
  rw [hsplit, ← length_flatMap_bytes_take (Nat.le_of_lt hi), List.take_length_add_append,
    List.take_append_of_le_length hword]

/-- A buffer that ends inside word `i` holds the words before it and the front of it. -/
theorem storeAll_of_length_eq (hi : i < words.length) (hpart : part ≤ size W)
    (hlength : buffer.length = size W * i + part) :
    storeAll words buffer = (words.take i).flatMap bytes ++ (bytes words[i]).take part := by
  -- The row reaches to the end of word `i` at least, so nothing is kept of what the buffer held.
  have hnext : size W * i + size W ≤ size W * words.length := Nat.mul_le_mul_left (size W) hi
  have hwritten : min buffer.length (size W * words.length) = buffer.length :=
    Nat.min_eq_left (by omega)
  rw [storeAll_eq_take_append_drop, hwritten, List.drop_length, List.append_nil, hlength,
    take_flatMap_bytes hi hpart]

/-- Writing words keeps the length of a buffer. The buffer begins with the bytes of the words, most
significant first, as many as there are and as it has room for, and goes on with what it held there
before. Where it ends inside a word, its last bytes are the first of that word: the digits that are
left when the lower ones, for which there is no room, are divided off. -/
theorem storeAll_keeps_leading_bytes (words : List W) (buffer : Bytes) :
    let written := min buffer.length (size W * words.length)
    let stored := storeAll words buffer
    stored.length = buffer.length ∧
      stored.take written = (words.flatMap bytes).take written ∧
      stored.drop written = buffer.drop written ∧
      ∀ (i part : Nat) (hi : i < words.length), part ≤ size W →
        buffer.length = size W * i + part →
        stored.drop (size W * i) = (bytes words[i]).take part ∧
          (bytes words[i]).take part =
            Bytes.bigEndian part (toNat words[i] / 256 ^ (size W - part)) := by
  intro written stored
  have hfront : ((words.flatMap bytes).take written).length = written := by
    rw [List.length_take, length_flatMap_bytes]
    omega
  have hstored : stored = (words.flatMap bytes).take written ++ buffer.drop written :=
    storeAll_eq_take_append_drop words buffer
  refine ⟨length_storeAll words buffer, ?_, ?_, ?_⟩
  · rw [hstored, List.take_left' hfront]
  · rw [hstored, List.drop_left' hfront]
  · intro i part hi hpart hlength
    have hcut : stored = (words.take i).flatMap bytes ++ (bytes words[i]).take part :=
      storeAll_of_length_eq hi hpart hlength
    refine ⟨?_, take_bytes words[i] hpart⟩
    rw [hcut, List.drop_left' (length_flatMap_bytes_take (Nat.le_of_lt hi))]

/-- Three words of four bytes in a buffer of nine, which has room for one byte of the last, and two
words of eight bytes in a buffer of twelve, which ends with the high half of the second. -/
theorem storeAll_keeps_leading_bytes_cut :
    let short : List UInt32 := [0x01020304, 0x05060708, 0x090a0b0c]
    let long : List UInt64 := [0x1112131415161718, 0x2122232425262728]
    (2 < short.length ∧ 1 ≤ size UInt32 ∧ (Bytes.zeros 9).length = size UInt32 * 2 + 1 ∧
        (storeAll short (Bytes.zeros 9)).drop 8 = [0x09]) ∧
      1 < long.length ∧ 4 ≤ size UInt64 ∧ (Bytes.zeros 12).length = size UInt64 * 1 + 4 ∧
        (storeAll long (Bytes.zeros 12)).drop 8 = [0x21, 0x22, 0x23, 0x24] := by
  intro short long
  obtain ⟨-, -, -, hshort⟩ := storeAll_keeps_leading_bytes short (Bytes.zeros 9)
  obtain ⟨-, -, -, hlong⟩ := storeAll_keeps_leading_bytes long (Bytes.zeros 12)
  have hbyte : (storeAll short (Bytes.zeros 9)).drop 8 = (bytes (0x090a0b0c : UInt32)).take 1 :=
    (hshort 2 1 (by decide) (by decide) (by decide)).1
  have hhalf : (storeAll long (Bytes.zeros 12)).drop 8 =
      (bytes (0x2122232425262728 : UInt64)).take 4 :=
    (hlong 1 4 (by decide) (by decide) (by decide)).1
  exact ⟨⟨by decide, by decide, by decide, hbyte.trans (by decide)⟩, by decide, by decide,
    by decide, hhalf.trans (by decide)⟩

end Word

namespace Sha2

variable {W : Type} [Word W]

/-- A digest is the words of the chaining state up to the word in which it ends, and the high digits
of that one. -/
theorem Parameters.finish_eq_words (p : Parameters W) (a : Absorber p.compression)
    {whole part : Nat} (hwhole : whole < 8) (hpart : part ≤ Word.size W)
    (hsize : p.digestSize = Word.size W * whole + part) :
    p.algorithm.finish a =
      (a.close.state.toList.take whole).flatMap Word.bytes ++
        Bytes.bigEndian part
          (Word.toNat a.close.state[whole] / 256 ^ (Word.size W - part)) := by
  have hword : whole < a.close.state.toList.length := by rwa [Vector.length_toList]
  have hlength : (Bytes.zeros p.digestSize).length = Word.size W * whole + part := by
    rw [Bytes.length_zeros, hsize]
  calc
    p.algorithm.finish a = Word.storeAll a.close.state.toList (Bytes.zeros p.digestSize) := rfl
    _ = (a.close.state.toList.take whole).flatMap Word.bytes ++
        (Word.bytes a.close.state[whole]).take part :=
      Word.storeAll_of_length_eq hword hpart hlength
    _ = _ := by rw [Word.take_bytes a.close.state[whole] hpart]

end Sha2

end ValueHashing
