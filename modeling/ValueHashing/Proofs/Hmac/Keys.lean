import Mathlib.Data.List.DropRight
import ValueHashing.Proofs.Lawful

/-!
# Which keys are one

A keyed instance holds of its key no more than one block under two marks, which its two instances
are fed as their first call (`Hmac.calls_started`). A key that fits is followed by zero bytes there,
so keys that fit are one if they differ in zero bytes at the end only (`Bytes.filled_eq_iff`). A
longer key is one with the front of its digest, and seeds are told apart where a block takes the
eight bytes of a seed.

## Implementation notes

The calls are read off recordings under the two instances, and the instances themselves are what has
absorbed these calls (`Hmac.started_eq_absorbAll`).
-/

namespace ValueHashing

namespace Bytes

/-- A byte string without the zero bytes at its end. -/
def trimmed (bytes : Bytes) : Bytes := bytes.rdropWhile (· == 0)

/-- A byte string, filled up with zero bytes to a size. -/
def filled (size : Nat) (bytes : Bytes) : Bytes := bytes ++ zeros (size - bytes.length)

theorem trimmed_append_zeros (bytes : Bytes) (n : Nat) :
    trimmed (bytes ++ zeros n) = trimmed bytes := by
  induction n with
  | zero => rw [zeros, List.replicate_zero, List.append_nil]
  | succ n ih =>
      have hlast : zeros (n + 1) = zeros n ++ [0] := List.replicate_succ'
      rw [hlast, ← List.append_assoc, trimmed, List.rdropWhile_concat_pos _ _ _ rfl]
      exact ih

/-- What is cut off is zero bytes. -/
theorem exists_eq_trimmed_append (bytes : Bytes) : ∃ n, bytes = trimmed bytes ++ zeros n := by
  let cut : Bytes := bytes.rtakeWhile (· == 0)
  have hcut : cut = zeros cut.length := by
    apply List.eq_replicate_of_mem
    intro b hb
    have hzero : (b == 0) = true := List.mem_rtakeWhile_imp (p := (· == 0)) hb
    exact beq_iff_eq.mp hzero
  refine ⟨cut.length, ?_⟩
  rw [← hcut]
  exact List.rdropWhile_append_rtakeWhile.symm

/-- To fill up puts back the zero bytes that were cut off. -/
theorem filled_trimmed {bytes : Bytes} {size : Nat} (h : bytes.length ≤ size) :
    filled size (trimmed bytes) = filled size bytes := by
  obtain ⟨n, hn⟩ := exists_eq_trimmed_append bytes
  have hlength := congrArg List.length hn
  rw [List.length_append, length_zeros] at hlength
  have hrest : size - (trimmed bytes).length = n + (size - bytes.length) := by omega
  calc
    filled size (trimmed bytes) = trimmed bytes ++ (zeros n ++ zeros (size - bytes.length)) := by
      rw [filled, hrest, zeros, ← List.replicate_append_replicate, zeros, zeros]
    _ = filled size bytes := by rw [← List.append_assoc, ← hn, filled]

/-- Filled up to one size, byte strings are equal if they are equal without the zero bytes at their
ends. -/
theorem filled_eq_iff {xs ys : Bytes} {size : Nat} (hx : xs.length ≤ size)
    (hy : ys.length ≤ size) :
    filled size xs = filled size ys ↔ trimmed xs = trimmed ys := by
  constructor
  · intro h
    have htrimmed := congrArg trimmed h
    rwa [filled, filled, trimmed_append_zeros, trimmed_append_zeros] at htrimmed
  · intro h
    rw [← filled_trimmed hx, h, filled_trimmed hy]

end Bytes

namespace Hmac

variable (H : StreamingHash)

/-- The key of a start: the eight bytes of a seed other than zero, and no bytes where none are
given. -/
def startKey : Start → Bytes
  | .fresh | .default => []
  | .seeded seed => if seed = 0 then [] else StreamingHash.seedKey seed
  | .keyed key => key

/-- What the inner instance is fed at a start, call by call. -/
def innerCalls (how : Start) : List Bytes :=
  Recording.calls ((of (Recording.of H)).started how).inner |>.toList

/-- What the outer instance is fed at a start, call by call. -/
def outerCalls (how : Start) : List Bytes :=
  Recording.calls ((of (Recording.of H)).started how).outer |>.toList

theorem started_eq_start (how : Start) :
    (of H).started how = (start H (startKey how)).value := by
  cases how with
  | fresh | default | keyed => rfl
  | seeded seed =>
      by_cases hseed : seed = 0
      · simp [hseed, StreamingHash.started, of, startKey]
      · simp [hseed, StreamingHash.started, of, startKey]

/-- The block of a start. -/
def startBlock (how : Start) : Bytes :=
  paddedKey (fun data => (H.digest data).value) H.blockSize (startKey how)

variable {H}

/-- Both instances are fed one call, the block under their mark. -/
theorem calls_started (hsize : H.blockSize ≤ bufferSize) (how : Start) :
    innerCalls H how = [mark innerMark (startBlock H how)] ∧
      outerCalls H how = [mark outerMark (startBlock H how)] := by
  rw [innerCalls, outerCalls, started_eq_start, value_start (H := Recording.of H) hsize]
  exact ⟨rfl, rfl⟩

/-- The instances have absorbed these calls and nothing else. -/
theorem started_eq_absorbAll (hsize : H.blockSize ≤ bufferSize) (how : Start) :
    (of H).started how =
      { inner := H.absorbAll H.fresh.value (innerCalls H how)
        outer := H.absorbAll H.fresh.value (outerCalls H how) } := by
  obtain ⟨hinner, houter⟩ := calls_started hsize how
  rw [hinner, houter, started_eq_start, value_start hsize]
  rfl

/-- A mark can be taken off. -/
theorem mark_inj (m : UInt8) {xs ys : Bytes} : mark m xs = mark m ys ↔ xs = ys :=
  List.map_inj_right fun _ _ h => (UInt8.xor_left_inj m).mp h

theorem innerCalls_eq_iff (hsize : H.blockSize ≤ bufferSize) {how other : Start} :
    innerCalls H how = innerCalls H other ↔ startBlock H how = startBlock H other := by
  rw [(calls_started hsize how).1, (calls_started hsize other).1, List.singleton_inj, mark_inj]

theorem outerCalls_eq_iff (hsize : H.blockSize ≤ bufferSize) {how other : Start} :
    outerCalls H how = outerCalls H other ↔ startBlock H how = startBlock H other := by
  rw [(calls_started hsize how).2, (calls_started hsize other).2, List.singleton_inj, mark_inj]

/-! ## Keys that fit -/

/-- A key that fits is not hashed, and nothing is reported of it. -/
theorem keyBlock_of_le (hsize : H.blockSize ≤ bufferSize) {key : Bytes}
    (hkey : key.length ≤ H.blockSize) : keyBlock H key = pure (Bytes.filled H.blockSize key) := by
  rw [keyBlock, take_zeros_bufferSize hsize, Bytes.overwrite_zeros, List.take_of_length_le hkey]
  exact if_neg (Nat.not_lt_of_le hkey)

theorem paddedKey_of_le (digest : Bytes → Bytes) {size : Nat} {key : Bytes}
    (hkey : key.length ≤ size) : paddedKey digest size key = Bytes.filled size key := by
  rw [paddedKey, if_pos hkey, Bytes.filled]

/-- A longer key is one with the front of its digest. -/
theorem paddedKey_of_lt (digest : Bytes → Bytes) {size : Nat} {key : Bytes}
    (hkey : size < key.length) :
    paddedKey digest size key = paddedKey digest size ((digest key).take size) := by
  rw [paddedKey_of_le digest (List.length_take_le _ _), paddedKey,
    if_neg (Nat.not_le_of_lt hkey), Bytes.filled]

theorem startBlock_keyed_of_le {key : Bytes} (hkey : key.length ≤ H.blockSize) :
    startBlock H (.keyed key) = Bytes.filled H.blockSize key :=
  paddedKey_of_le _ hkey

/-- The block of a seed begins with its eight bytes, also for the seed zero. -/
theorem startBlock_seeded (hsize : 8 ≤ H.blockSize) (seed : UInt64) :
    startBlock H (.seeded seed) = Bytes.filled H.blockSize (StreamingHash.seedKey seed) := by
  by_cases hseed : seed = 0
  · subst hseed
    have hkey : startKey (.seeded 0) = [] := rfl
    rw [startBlock, hkey, paddedKey_of_le _ (Nat.zero_le _)]
    apply (Bytes.filled_eq_iff (Nat.zero_le _) (by simpa using hsize)).mpr
    decide
  · have hkey : startKey (.seeded seed) = StreamingHash.seedKey seed := if_neg hseed
    rw [startBlock, hkey, paddedKey_of_le _ (by simpa using hsize)]

theorem seedKey_inj {s t : UInt64} :
    StreamingHash.seedKey s = StreamingHash.seedKey t ↔ s = t := by
  have hs : s.toNat < 256 ^ 8 := s.toNat_lt
  have ht : t.toNat < 256 ^ 8 := t.toNat_lt
  rw [StreamingHash.seedKey, StreamingHash.seedKey, Bytes.littleEndian_inj hs ht, UInt64.toNat_inj]

theorem startBlock_seeded_inj (hsize : 8 ≤ H.blockSize) {s t : UInt64} :
    startBlock H (.seeded s) = startBlock H (.seeded t) ↔ s = t := by
  constructor
  · intro heq
    rw [startBlock_seeded hsize, startBlock_seeded hsize] at heq
    obtain ⟨hkeys, -⟩ := List.append_inj heq (by simp)
    exact seedKey_inj.mp hkeys
  · rintro rfl
    rfl

/-- A key that is not hashed starts an instance that depends on its filled block only, and only what
the two fresh instances report is reported. -/
theorem keyed_of_le (hsize : H.blockSize ≤ bufferSize) {key : Bytes}
    (hkey : key.length ≤ H.blockSize) :
    (of H).keyed key = do
      let inner ← H.fresh
      let outer ← H.fresh
      return {
        inner := H.absorb inner (innerBlock (Bytes.filled H.blockSize key))
        outer := H.absorb outer (outerBlock (Bytes.filled H.blockSize key)) } := by
  change start H key = _
  rw [start, keyBlock_of_le hsize hkey, pure_bind]

/-- A longer key starts the same instance as the front of its digest. -/
theorem value_keyed_of_lt (hsize : H.blockSize ≤ bufferSize) {key : Bytes}
    (hkey : H.blockSize < key.length) :
    ((of H).keyed key).value =
      ((of H).keyed ((H.digest key).value.take H.blockSize)).value := by
  change (start H key).value = (start H _).value
  rw [value_start hsize, value_start hsize, paddedKey_of_lt _ hkey]

end Hmac

/-- Digests of every variant fit into a block. -/
theorem Sha2.Variant.length_digest_le (v : Variant) (data : Bytes) :
    (v.algorithm.digest data).value.length ≤ v.algorithm.blockSize := by
  have hlength {W : Type} [Word W] (p : Parameters W) :
      (p.algorithm.digest data).value.length = p.digestSize :=
    (Absorber.length_closeInto _ _).trans (Bytes.length_zeros _)
  cases v with
  | sha224 | sha256 | sha384 | sha512 | sha512_224 | sha512_256 =>
      exact (hlength _).trans_le (by decide)

namespace Hmac

/-- When two starts of a keyed instance are one. What the two instances have absorbed at a start are
their calls, as recordings show them.

Keys that fit into a block are fed as one block if they are equal up to zero bytes at the end, and
then the instances are one. A longer key starts the same instance as the front of its digest that
fits. A key of the size of a block is that block itself: it is not hashed, and nothing is reported
of it. Two seeds are fed as different blocks, if a block takes eight bytes.

For the variants of SHA-2 the whole digest of a longer key fits. -/
theorem calls_keyed_eq_iff :
    (∀ H : StreamingHash, H.blockSize ≤ bufferSize →
      (∀ how : Start, (of H).started how =
        { inner := H.absorbAll H.fresh.value (innerCalls H how)
          outer := H.absorbAll H.fresh.value (outerCalls H how) }) ∧
      (∀ k₁ k₂ : Bytes, k₁.length ≤ H.blockSize → k₂.length ≤ H.blockSize →
        (innerCalls H (.keyed k₁) = innerCalls H (.keyed k₂) ↔
          Bytes.trimmed k₁ = Bytes.trimmed k₂) ∧
        (outerCalls H (.keyed k₁) = outerCalls H (.keyed k₂) ↔
          Bytes.trimmed k₁ = Bytes.trimmed k₂) ∧
        (Bytes.trimmed k₁ = Bytes.trimmed k₂ → (of H).keyed k₁ = (of H).keyed k₂)) ∧
      (∀ key : Bytes, H.blockSize < key.length →
        let digest := (H.digest key).value
        ((of H).keyed key).value =
          ((of H).keyed (digest.take (min H.blockSize digest.length))).value) ∧
      (∀ key : Bytes, key.length = H.blockSize →
        innerCalls H (.keyed key) = [mark innerMark key] ∧
          outerCalls H (.keyed key) = [mark outerMark key] ∧
          ((of H).keyed key).trace = H.fresh.trace ++ H.fresh.trace) ∧
      (8 ≤ H.blockSize → ∀ s₁ s₂ : UInt64, s₁ ≠ s₂ →
        innerCalls H (.seeded s₁) ≠ innerCalls H (.seeded s₂) ∧
          outerCalls H (.seeded s₁) ≠ outerCalls H (.seeded s₂))) ∧
      ∀ (v : Sha2.Variant) (key : Bytes), v.algorithm.blockSize < key.length →
        ((of v.algorithm).keyed key).value =
          ((of v.algorithm).keyed (v.algorithm.digest key).value).value := by
  refine ⟨?_, ?_⟩
  · intro H hsize
    refine ⟨started_eq_absorbAll hsize, ?_, ?_, ?_, ?_⟩
    · intro k₁ k₂ h₁ h₂
      have hblocks : startBlock H (.keyed k₁) = startBlock H (.keyed k₂) ↔
          Bytes.trimmed k₁ = Bytes.trimmed k₂ := by
        rw [startBlock_keyed_of_le h₁, startBlock_keyed_of_le h₂]
        exact Bytes.filled_eq_iff h₁ h₂
      refine ⟨(innerCalls_eq_iff hsize).trans hblocks, (outerCalls_eq_iff hsize).trans hblocks, ?_⟩
      intro htrimmed
      rw [keyed_of_le hsize h₁, keyed_of_le hsize h₂, (Bytes.filled_eq_iff h₁ h₂).mpr htrimmed]
    · intro key hkey digest
      have htake : digest.take (min H.blockSize digest.length) = digest.take H.blockSize := by
        rw [← List.take_take, List.take_length]
      rw [htake]
      exact value_keyed_of_lt hsize hkey
    · intro key hkey
      have hblock : startBlock H (.keyed key) = key := by
        rw [startBlock_keyed_of_le hkey.le, Bytes.filled, hkey, Nat.sub_self]
        exact List.append_nil key
      obtain ⟨hinner, houter⟩ := calls_started hsize (.keyed key)
      rw [hblock] at hinner houter
      refine ⟨hinner, houter, ?_⟩
      rw [keyed_of_le hsize hkey.le]
      simp
    · intro hseed s₁ s₂ hne
      have hblocks : startBlock H (.seeded s₁) ≠ startBlock H (.seeded s₂) :=
        fun heq => hne ((startBlock_seeded_inj hseed).mp heq)
      exact ⟨fun h => hblocks ((innerCalls_eq_iff hsize).mp h),
        fun h => hblocks ((outerCalls_eq_iff hsize).mp h)⟩
  · intro v key hkey
    rw [value_keyed_of_lt v.blockSize_le hkey, List.take_of_length_le (v.length_digest_le key)]

/-- Over FNV-1a with blocks of twelve bytes: a key with and without zero bytes at its end, and with
another last byte, a key of the size of a block, one that is longer, and the seeds zero and one. A
key of SHA-256 that is longer than a block by one byte. -/
theorem calls_keyed_eq_iff_fnv :
    let H := Fnv.algorithm 12
    let block : Bytes := [1, 2, 3, 4, 5, 6, 7, 8, 9, 10, 11, 12]
    let long : Bytes := List.replicate 65 0xaa
    H.blockSize ≤ bufferSize ∧
      (of H).keyed [1, 2] = (of H).keyed [1, 2, 0, 0] ∧
      innerCalls H (.keyed [1, 2]) ≠ innerCalls H (.keyed [1, 2, 3]) ∧
      block.length = H.blockSize ∧ innerCalls H (.keyed block) = [mark innerMark block] ∧
      H.blockSize < (block ++ [13]).length ∧
      ((of H).keyed (block ++ [13])).value =
        ((of H).keyed ((H.digest (block ++ [13])).value.take 8)).value ∧
      8 ≤ H.blockSize ∧ outerCalls H (.seeded 0) ≠ outerCalls H (.seeded 1) ∧
      Sha2.Variant.sha256.algorithm.blockSize < long.length ∧
      ((of Sha2.Variant.sha256.algorithm).keyed long).value =
        ((of Sha2.Variant.sha256.algorithm).keyed
          (Sha2.Variant.sha256.algorithm.digest long).value).value := by
  intro H block long
  have hsize : H.blockSize ≤ bufferSize := by decide
  have hlong : Sha2.Variant.sha256.algorithm.blockSize < long.length := by decide
  obtain ⟨hkeys, hsha2⟩ := calls_keyed_eq_iff
  obtain ⟨-, hfit, hlonger, hexact, hseeds⟩ := hkeys H hsize
  obtain ⟨-, -, hsame⟩ := hfit [1, 2] [1, 2, 0, 0] (by decide) (by decide)
  obtain ⟨hdiffer, -, -⟩ := hfit [1, 2] [1, 2, 3] (by decide) (by decide)
  refine ⟨hsize, hsame (by decide), fun h => ?_, rfl, (hexact block rfl).1, by decide,
    hlonger (block ++ [13]) (by decide), by decide, (hseeds (by decide) 0 1 (by decide)).2, hlong,
    hsha2 .sha256 long hlong⟩
  have htrimmed : Bytes.trimmed [1, 2] = Bytes.trimmed [1, 2, 3] := hdiffer.mp h
  revert htrimmed
  decide

end Hmac

end ValueHashing
