import ValueHashing.Hmac
import ValueHashing.Proofs.Computes

/-!
# The keyed construction is a nested digest

Over an algorithm that computes a function `digest`, the instance under a key computes
`Hmac.formula digest` at that key. The instance without a key is one of these, so the keyed
construction again computes a function, and the theorem applies to it once more.

## Implementation notes

Nothing else is asked of the algorithm. Its digest may be longer than its block, in which case
a long key stands for as much of the digest as the block takes.
-/

namespace ValueHashing.Hmac

variable {H : StreamingHash} {digest : Bytes → Bytes}

/-- The front of the buffer is the block that the key is written into. -/
theorem take_zeros_bufferSize {size : Nat} (h : size ≤ bufferSize) :
    (Bytes.zeros bufferSize).take size = Bytes.zeros size := by
  rw [Bytes.zeros, List.take_replicate, Nat.min_eq_left h, Bytes.zeros]

/-- Written into the zeroed block, the material of the key is followed by zero bytes. -/
theorem value_keyBlock (hsize : H.blockSize ≤ bufferSize) (key : Bytes) :
    (keyBlock H key).value =
      paddedKey (fun data => (H.digest data).value) H.blockSize key := by
  unfold keyBlock paddedKey
  rw [take_zeros_bufferSize hsize]
  by_cases hfits : key.length ≤ H.blockSize
  · simp only [if_pos hfits, if_neg (Nat.not_lt_of_le hfits), Logged.value_pure,
      Bytes.overwrite_zeros, List.take_of_length_le hfits]
  · have hlong : key.length > H.blockSize := Nat.lt_of_not_le hfits
    have hcut (n m : Nat) : n - min n m = n - m := by omega
    simp only [if_neg hfits, if_pos hlong, Logged.value_bind, Logged.value_pure,
      Bytes.overwrite_zeros, List.length_take, hcut]

/-- The instances under a key have taken in the padded key, each under its own mark. -/
theorem value_start (hsize : H.blockSize ≤ bufferSize) (key : Bytes) :
    let block := paddedKey (fun data => (H.digest data).value) H.blockSize key
    (start H key).value =
      { inner := H.absorb H.fresh.value (block.map (· ^^^ 0x36))
        outer := H.absorb H.fresh.value (block.map (· ^^^ 0x5c)) } := by
  intro block
  have hblock : (keyBlock H key).value = block := value_keyBlock hsize key
  simp only [start, Logged.value_bind, Logged.value_pure, hblock, innerBlock_eq_map,
    outerBlock_eq_map]

/-- The message goes to the inner instance, the outer one waits. -/
theorem absorbAll_of (s : Hmac H.State) (chunks : List Bytes) :
    (of H).absorbAll s chunks = { s with inner := H.absorbAll s.inner chunks } := by
  induction chunks generalizing s with
  | nil => rfl
  | cons chunk chunks ih => exact ih _

/-- Two instances that compute give one that computes. -/
theorem computes_of {inner outer : H.State} {innerDigest outerDigest : Bytes → Bytes}
    (hinner : H.Computes inner innerDigest) (houter : H.Computes outer outerDigest) :
    (of H).Computes { inner := inner, outer := outer } fun message =>
      outerDigest (innerDigest message) := by
  intro chunks
  have hdone : H.finish (H.absorbAll inner chunks) = innerDigest chunks.flatten := hinner chunks
  calc
    (of H).finish ((of H).absorbAll { inner := inner, outer := outer } chunks) =
        H.finish (H.absorb outer (H.finish (H.absorbAll inner chunks))) := by
      rw [absorbAll_of]
      rfl
    _ = outerDigest (innerDigest chunks.flatten) := by rw [hdone, houter.finish_absorb]

/-- The instances under a key compute the nested digest under that key. -/
theorem computes_start (hsize : H.blockSize ≤ bufferSize)
    (hdigest : H.Computes H.fresh.value digest) (key : Bytes) :
    (of H).Computes (start H key).value (formula digest H.blockSize key) := by
  have hvalue : (fun data => (H.digest data).value) = digest :=
    funext fun data => hdigest.value_digest data
  rw [value_start hsize key, hvalue]
  let block := paddedKey digest H.blockSize key
  have hinner : H.Computes (H.absorb H.fresh.value (block.map (· ^^^ 0x36))) fun message =>
      digest (block.map (· ^^^ 0x36) ++ message) := hdigest.absorb _
  have houter : H.Computes (H.absorb H.fresh.value (block.map (· ^^^ 0x5c))) fun message =>
      digest (block.map (· ^^^ 0x5c) ++ message) := hdigest.absorb _
  have hnested := computes_of hinner houter
  exact hnested

/-- Streamed in any pieces or in one step, keyed hashing is the nested digest under the padded
key, and hashing without a key is the nested digest under the empty key. -/
theorem finish_absorbAll_keyed (hsize : H.blockSize ≤ bufferSize)
    (hdigest : H.Computes H.fresh.value digest) :
    (∀ key chunks,
      (of H).finish ((of H).absorbAll ((of H).keyed key).value chunks) =
        formula digest H.blockSize key chunks.flatten) ∧
      (∀ key message, (tag H key message).value = formula digest H.blockSize key message) ∧
      (∀ message, ((of H).digest message).value = formula digest H.blockSize [] message) ∧
      ∀ chunks,
        ((of H).digestAll chunks).value = formula digest H.blockSize [] chunks.flatten := by
  have hkeyed (key : Bytes) :
      (of H).Computes (start H key).value (formula digest H.blockSize key) :=
    computes_start hsize hdigest key
  refine ⟨?_, ?_, ?_, ?_⟩
  · intro key chunks
    exact hkeyed key chunks
  · intro key message
    exact (hkeyed key).finish_absorb message
  · intro message
    exact (hkeyed []).value_digest message
  · intro chunks
    exact (hkeyed []).value_digestAll chunks

/-- Keyed hashing over keyed hashing over FNV-1a, whose digest of eight bytes is longer than a
block of four. The key is longer than the block as well. -/
theorem finish_absorbAll_keyed_nested :
    let H := of (Fnv.algorithm 4)
    let fnv (message : Bytes) := Bytes.littleEndian 8 (Fnv.absorb Fnv.offsetBasis message).toNat
    let key : Bytes := [1, 2, 3, 4, 5]
    let expected : Bytes := [0x15, 0x83, 0x05, 0x50, 0x27, 0x30, 0x4f, 0xae]
    H.blockSize ≤ bufferSize ∧ H.Computes H.fresh.value (formula fnv 4 []) ∧
      formula (formula fnv 4 []) 4 key [6, 7, 8] = expected ∧
      (of H).finish ((of H).absorbAll ((of H).keyed key).value [[6], [], [7, 8]]) = expected ∧
      (tag H key [6, 7, 8]).value = expected := by
  intro H fnv key expected
  have hsize : H.blockSize ≤ bufferSize := by decide
  have hfresh : H.Computes H.fresh.value (formula fnv 4 []) :=
    (finish_absorbAll_keyed (H := Fnv.algorithm 4) hsize
      (Fnv.computes_absorb 4 Fnv.offsetBasis)).2.2.2
  have hformula : formula (formula fnv 4 []) 4 key [6, 7, 8] = expected := by
    set_option maxRecDepth 1000 in decide
  obtain ⟨hkeyed, htag, -⟩ := finish_absorbAll_keyed hsize hfresh
  exact ⟨hsize, hfresh, hformula, (hkeyed key [[6], [], [7, 8]]).trans hformula,
    (htag key [6, 7, 8]).trans hformula⟩

end ValueHashing.Hmac
