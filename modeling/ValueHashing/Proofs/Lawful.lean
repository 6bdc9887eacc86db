import Mathlib.Logic.Function.Iterate
import ValueHashing.Session
import ValueHashing.Proofs.Hmac.Formula
import ValueHashing.Proofs.Sha2.Digest

/-!
# Lawful algorithms

What users of a streaming hash rely on (`StreamingHash.Lawful`): all plain ways to start are one, a
seed is a key, and only the concatenation of what is absorbed shows in the result. The last law says
that every state that an instance starts from computes a function of bytes (`exists_computes_iff`).

The variants of SHA-2 are lawful (`Sha2.Variant.lawful`), and the keyed construction makes lawful
algorithms from lawful ones (`Hmac.lawful_of`), so nesting it to any depth does.

## Implementation notes

The laws compare results and not states. Two states that absorbed the same bytes in different pieces
may hold different left-over bytes in their buffers.
-/

namespace ValueHashing

namespace StreamingHash

variable {H : StreamingHash} {state : H.State}

/-- The state that a way to start gives. -/
def started (H : StreamingHash) : Start → H.State
  | .fresh => H.fresh.value
  | .default => H.default.value
  | .seeded seed => (H.seeded seed).value
  | .keyed key => (H.keyed key).value

/-- The result of pieces of a message, absorbed in order from a start. -/
def resultFrom (H : StreamingHash) (how : Start) (chunks : List Bytes) : Bytes :=
  H.finish (H.absorbAll (H.started how) chunks)

/-- The laws of a streaming hash. -/
structure Lawful (H : StreamingHash) : Prop where
  default_eq : ∀ chunks, H.resultFrom .default chunks = H.resultFrom .fresh chunks
  seeded_zero : ∀ chunks, H.resultFrom (.seeded 0) chunks = H.resultFrom .fresh chunks
  keyed_nil : ∀ chunks, H.resultFrom (.keyed []) chunks = H.resultFrom .fresh chunks
  /-- Any other seed is the key of its eight bytes, least significant first. -/
  seeded_eq : ∀ seed ≠ 0, ∀ chunks,
    H.resultFrom (.seeded seed) chunks =
      H.resultFrom (.keyed (Bytes.littleEndian 8 seed.toNat)) chunks
  /-- How a message is cut into pieces does not show. -/
  cut : ∀ how xs ys, xs.flatten = ys.flatten → H.resultFrom how xs = H.resultFrom how ys

/-- A state computes a function when its results do not show how a message was cut. -/
theorem exists_computes_iff :
    (∃ digest, H.Computes state digest) ↔
      ∀ xs ys : List Bytes, xs.flatten = ys.flatten →
        H.finish (H.absorbAll state xs) = H.finish (H.absorbAll state ys) := by
  constructor
  · rintro ⟨digest, h⟩ xs ys hxy
    rw [h xs, h ys, hxy]
  · intro h
    refine ⟨fun message => H.finish (H.absorbAll state [message]), ?_⟩
    intro chunks
    exact h chunks [chunks.flatten] (by simp)

/-- Every start of a lawful algorithm computes a function of bytes. -/
theorem Lawful.exists_computes (hH : H.Lawful) (how : Start) :
    ∃ digest, H.Computes (H.started how) digest :=
  exists_computes_iff.mpr (hH.cut how)

/-- An algorithm is lawful when its starts are the same states where the laws ask for the same
results, and what starts from a key computes. -/
theorem Lawful.of_started_eq (hdefault : H.started .default = H.started .fresh)
    (hzero : H.started (.seeded 0) = H.started .fresh)
    (hnil : H.started (.keyed []) = H.started .fresh)
    (hseeded : ∀ seed ≠ 0, H.started (.seeded seed) = H.started (.keyed (seedKey seed)))
    (hkeyed : ∀ key, ∃ digest, H.Computes (H.started (.keyed key)) digest) : H.Lawful := by
  have hfresh : ∃ digest, H.Computes (H.started .fresh) digest := by
    rw [← hnil]
    exact hkeyed []
  refine ⟨?_, ?_, ?_, ?_, ?_⟩
  · intro chunks
    rw [resultFrom, hdefault, resultFrom]
  · intro chunks
    rw [resultFrom, hzero, resultFrom]
  · intro chunks
    rw [resultFrom, hnil, resultFrom]
  · intro seed hseed chunks
    rw [resultFrom, hseeded seed hseed, resultFrom, seedKey]
  · intro how
    apply exists_computes_iff.mp
    cases how with
    | fresh => exact hfresh
    | default =>
        rw [hdefault]
        exact hfresh
    | keyed key => exact hkeyed key
    | seeded seed =>
        by_cases hseed : seed = 0
        · rw [hseed, hzero]
          exact hfresh
        · rw [hseeded seed hseed]
          exact hkeyed _

/-- To absorb nothing changes no result. -/
theorem Lawful.resultFrom_nil_cons (hH : H.Lawful) (how : Start) (before after : List Bytes) :
    H.resultFrom how (before ++ [] :: after) = H.resultFrom how (before ++ after) := by
  apply hH.cut
  rw [List.flatten_append, List.flatten_append, List.flatten_cons, List.nil_append]

/-- The digest of several byte strings is that of their concatenation. -/
theorem Lawful.value_digestAll (hH : H.Lawful) (parts : List Bytes) :
    (H.digestAll parts).value = (H.digest parts.flatten).value := by
  obtain ⟨digest, h⟩ := hH.exists_computes .fresh
  exact (Computes.value_digestAll h parts).trans (Computes.value_digest h parts.flatten).symm

end StreamingHash

namespace Sha2

open Absorber

/-- Under any key an instance tracks a message: the empty one for the empty key, and otherwise one
that begins and ends with the key. -/
theorem Parameters.exists_tracks_keyedStart {W : Type} [Word W] (p : Parameters W) (key : Bytes) :
    ∃ message, Tracks p.initial (p.keyedStart key).value message := by
  by_cases hkey : key = []
  · subst hkey
    exact ⟨[], Tracks.start p.initial⟩
  · exact ⟨_, p.tracks_keyedStart hkey⟩

theorem Variant.lawful (v : Variant) : v.algorithm.Lawful := by
  obtain ⟨W, _, p, r, h⟩ := v.exists_matches
  rw [h.algorithm_eq]
  apply StreamingHash.Lawful.of_started_eq rfl rfl rfl
  · intro seed hseed
    exact congrArg Logged.value (if_neg hseed)
  · intro key
    obtain ⟨message, htracks⟩ := p.exists_tracks_keyedStart key
    exact ⟨_, h.computes htracks⟩

/-- Blocks of every variant fit into the buffer of the keyed construction. -/
theorem Variant.blockSize_le (v : Variant) : v.algorithm.blockSize ≤ Hmac.bufferSize := by
  cases v <;> decide

end Sha2

theorem Fnv.lawful (blockSize : Nat) : (algorithm blockSize).Lawful := by
  apply StreamingHash.Lawful.of_started_eq rfl rfl rfl
  · intro seed hseed
    exact if_neg hseed
  · intro key
    exact ⟨_, computes_absorb blockSize (absorb offsetBasis key)⟩

namespace Hmac

variable {H : StreamingHash}

/-- Both instances under a key have absorbed a block and compute if a fresh instance does. -/
theorem exists_computes_start (h : ∃ digest, H.Computes H.fresh.value digest) (key : Bytes) :
    ∃ digest, (of H).Computes (start H key).value digest := by
  obtain ⟨digest, hfresh⟩ := h
  let block := (keyBlock H key).value
  exact ⟨_, computes_of (hfresh.absorb (innerBlock block)) (hfresh.absorb (outerBlock block))⟩

/-- The keyed construction over a lawful algorithm is lawful. -/
theorem lawful_of (hH : H.Lawful) : (of H).Lawful := by
  apply StreamingHash.Lawful.of_started_eq rfl rfl rfl
  · intro seed hseed
    exact congrArg Logged.value (if_neg hseed)
  · intro key
    exact exists_computes_start (hH.exists_computes .fresh) key

/-- Nested to any depth, the keyed construction stays lawful and keeps the block size. -/
theorem lawful_iterate (hH : H.Lawful) (depth : Nat) :
    (of^[depth] H).Lawful ∧ (of^[depth] H).blockSize = H.blockSize := by
  induction depth with
  | zero => exact ⟨hH, rfl⟩
  | succ depth ih =>
      rw [Function.iterate_succ_apply']
      exact ⟨lawful_of ih.1, ih.2⟩

/-- The variants of SHA-2 are lawful. So is the keyed construction over any lawful algorithm whose
blocks fit into its buffer, and as it keeps the size of blocks, so is every nesting of it. For a
lawful algorithm empty pieces do not show, and the digest of several pieces is that of their
concatenation. -/
theorem lawful_nested :
    (∀ v : Sha2.Variant, v.algorithm.Lawful) ∧
      (∀ H : StreamingHash, H.Lawful → H.blockSize ≤ bufferSize →
        (of H).Lawful ∧
          ∀ depth, (of^[depth] H).Lawful ∧ (of^[depth] H).blockSize ≤ bufferSize) ∧
      (∀ (v : Sha2.Variant) (depth : Nat),
        (of^[depth] v.algorithm).Lawful ∧ (of^[depth] v.algorithm).blockSize ≤ bufferSize) ∧
      ∀ H : StreamingHash, H.Lawful →
        (∀ how before after,
          H.resultFrom how (before ++ [] :: after) = H.resultFrom how (before ++ after)) ∧
          ∀ parts, (H.digestAll parts).value = (H.digest parts.flatten).value := by
  have hnested {H : StreamingHash} (hH : H.Lawful) (hsize : H.blockSize ≤ bufferSize)
      (depth : Nat) : (of^[depth] H).Lawful ∧ (of^[depth] H).blockSize ≤ bufferSize := by
    obtain ⟨hlawful, hblock⟩ := lawful_iterate hH depth
    exact ⟨hlawful, Nat.le_trans (Nat.le_of_eq hblock) hsize⟩
  refine ⟨Sha2.Variant.lawful, ?_, ?_, ?_⟩
  · intro H hH hsize
    exact ⟨lawful_of hH, hnested hH hsize⟩
  · intro v
    exact hnested v.lawful v.blockSize_le
  · intro H hH
    exact ⟨hH.resultFrom_nil_cons, hH.value_digestAll⟩

/-- The keyed construction three times over FNV-1a with blocks of twelve bytes, under a key that is
longer than a block and under a seed. -/
theorem lawful_nested_fnv :
    let H := Fnv.algorithm 12
    let key : Bytes := [1, 2, 3, 4, 5, 6, 7, 8, 9, 10, 11, 12, 13]
    let seed : UInt64 := 0x0102030405060708
    H.Lawful ∧ H.blockSize ≤ bufferSize ∧ (of^[3] H).Lawful ∧
      (of^[3] H).resultFrom (.keyed key) [[1], [], [2, 3]] =
        (of^[3] H).resultFrom (.keyed key) [[1], [2, 3]] ∧
      seed ≠ 0 ∧
      (of^[3] H).resultFrom (.seeded seed) [[1], [2, 3]] =
        (of^[3] H).resultFrom (.keyed [8, 7, 6, 5, 4, 3, 2, 1]) [[1], [2, 3]] := by
  intro H key seed
  have hH : H.Lawful := Fnv.lawful 12
  have hsize : H.blockSize ≤ bufferSize := by decide
  have hseed : seed ≠ 0 := by decide
  have hbytes : Bytes.littleEndian 8 seed.toNat = [8, 7, 6, 5, 4, 3, 2, 1] := by decide
  obtain ⟨-, hkeyed, -, hlaws⟩ := lawful_nested
  obtain ⟨-, hdepth⟩ := hkeyed H hH hsize
  obtain ⟨hlawful, -⟩ := hdepth 3
  obtain ⟨hnil, -⟩ := hlaws (of^[3] H) hlawful
  have hseeded := hlawful.seeded_eq seed hseed [[1], [2, 3]]
  rw [hbytes] at hseeded
  exact ⟨hH, hsize, hlawful, hnil (.keyed key) [[1]] [[2, 3]], hseed, hseeded⟩

end Hmac

end ValueHashing
