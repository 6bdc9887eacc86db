import ValueHashing.Proofs.Absorber.Invariant
import ValueHashing.Proofs.Computes
import ValueHashing.Proofs.Sha2.Compression

/-!
# Streaming SHA-2 is SHA-2

The result of a variant of SHA-2 is the digest of the message that its absorber tracks. For a
fresh instance the message is what was absorbed, in whatever pieces. For a keyed instance it
begins with the key, the padding of the key, and the key again.

## Implementation notes

The statements have no bound on the length of a message. As long as the length in bits fits
into the length field, `wholeDigest` is the digest of the standard; both sides keep the low
bytes of a longer length.

The standard side reads and writes words digit by digit and shares no function of bytes with the
algorithms but the digits of a number (`stateBytes_eq_flatMap`, `Rounds.blockWord_eq_ofBytes`).
-/

namespace ValueHashing.Sha2

open Absorber

namespace Parameters

variable {W : Type} [Word W] (p : Parameters W) {a b : Absorber p.compression} {message : Bytes}

/-- The result is the front of the chaining state after the message and its padding. -/
theorem finish_eq_take (h : Tracks p.initial a message)
    (hsize : p.digestSize ≤ 8 * Word.size W) :
    p.algorithm.finish a =
      ((p.compression.chain p.initial
        (message ++ padding p.compression.blockSize p.compression.lengthSize
          message.length)).toList.flatMap Word.bytes).take p.digestSize := by
  have hdrop : (Bytes.zeros p.digestSize).drop (8 * Word.size W) = [] :=
    List.drop_of_length_le (by simpa using hsize)
  simp only [algorithm, closeInto, Word.storeAll_eq, Vector.length_toList, hdrop,
    Bytes.length_zeros, List.append_nil, h.close.state]

omit [Word W] in
/-- A keyed start has taken in the key, its padding, and the key again. -/
theorem tracks_keyedStart {key : Bytes} (hkey : key ≠ []) :
    Tracks p.initial (p.keyedStart key).value
      (key ++ padding p.compression.blockSize p.compression.lengthSize key.length ++ key) := by
  have hne : ¬ key.isEmpty := by simpa using hkey
  have h := (Tracks.start (C := p.compression) p.initial).absorbKey hkey
  rw [List.nil_append, List.length_nil, Nat.zero_add] at h
  rw [keyedStart, if_neg hne]
  exact h

end Parameters

theorem stateBytes_eq_flatMap {W : Type} [Word W] (state : Vector W 8) :
    stateBytes state = state.toList.flatMap Word.bytes := rfl

/-- The parameters `p` and the rounds `r` are those of a variant. -/
structure Variant.Matches (v : Variant) {W : Type} [Word W] (p : Parameters W) (r : Rounds W) :
    Prop where
  algorithm_eq : v.algorithm = p.algorithm
  lengthSize_eq : v.lengthSize = p.compression.lengthSize
  compress_eq : p.compression.compress = r.compressFull
  digestSize_le : p.digestSize ≤ 8 * Word.size W
  wholeDigest_eq : v.wholeDigest =
    Sha2.wholeDigest r p.compression.blockSize p.compression.lengthSize p.initial p.digestSize

/-- Every variant has its parameters and its rounds. -/
theorem Variant.exists_matches (v : Variant) :
    ∃ (W : Type) (_ : Word W) (p : Parameters W) (r : Rounds W), v.Matches p r := by
  have h32 : compression32.compress = rounds32.compressFull :=
    funext fun state => funext fun block => rounds32.compress_eq_compressFull state block
  have h64 : compression64.compress = rounds64.compressFull :=
    funext fun state => funext fun block => rounds64.compress_eq_compressFull state block
  cases v with
  | sha224 =>
      refine ⟨UInt32, inferInstance, Sha2.sha224, rounds32, rfl, rfl, h32, by decide, ?_⟩
      rw [Variant.wholeDigest, ← rounds32_eq, ← initial224_eq]
      rfl
  | sha256 =>
      refine ⟨UInt32, inferInstance, Sha2.sha256, rounds32, rfl, rfl, h32, by decide, ?_⟩
      rw [Variant.wholeDigest, ← rounds32_eq, ← initial256_eq]
      rfl
  | sha384 =>
      refine ⟨UInt64, inferInstance, Sha2.sha384, rounds64, rfl, rfl, h64, by decide, ?_⟩
      rw [Variant.wholeDigest, ← rounds64_eq, ← initial384_eq]
      rfl
  | sha512 =>
      refine ⟨UInt64, inferInstance, Sha2.sha512, rounds64, rfl, rfl, h64, by decide, ?_⟩
      rw [Variant.wholeDigest, ← rounds64_eq, ← initial512_eq]
      rfl
  | sha512_224 =>
      refine ⟨UInt64, inferInstance, Sha2.sha512_224, rounds64, rfl, rfl, h64, by decide, ?_⟩
      rw [Variant.wholeDigest, ← rounds64_eq, ← initial512_224_eq]
      rfl
  | sha512_256 =>
      refine ⟨UInt64, inferInstance, Sha2.sha512_256, rounds64, rfl, rfl, h64, by decide, ?_⟩
      rw [Variant.wholeDigest, ← rounds64_eq, ← initial512_256_eq]
      rfl

/-- The result is the digest of the message that is tracked. -/
theorem Variant.Matches.finish_eq_wholeDigest {v : Variant} {W : Type} [Word W]
    {p : Parameters W} {r : Rounds W} (h : v.Matches p r) {a : Absorber p.compression}
    {message : Bytes} (ha : Tracks p.initial a message) :
    p.algorithm.finish a = v.wholeDigest message := by
  rw [p.finish_eq_take ha h.digestSize_le, Compression.chain, h.compress_eq, h.wholeDigest_eq,
    Sha2.wholeDigest, stateBytes_eq_flatMap, wholeState]

/-- An instance computes the digest of what it has taken in and of what follows. -/
theorem Variant.Matches.computes {v : Variant} {W : Type} [Word W] {p : Parameters W}
    {r : Rounds W} (h : v.Matches p r) {a : Absorber p.compression} {message : Bytes}
    (ha : Tracks p.initial a message) :
    p.algorithm.Computes a fun rest => v.wholeDigest (message ++ rest) :=
  fun chunks => h.finish_eq_wholeDigest (ha.absorbAll chunks)

/-- A fresh instance of any variant, fed a message in any pieces, gives the digest of the
message as the standard states it. -/
theorem Variant.finish_absorbAll_fresh (v : Variant) (chunks : List Bytes) :
    v.algorithm.finish (v.algorithm.absorbAll v.algorithm.fresh.value chunks) =
      v.wholeDigest chunks.flatten := by
  obtain ⟨W, _, p, r, h⟩ := v.exists_matches
  rw [h.algorithm_eq]
  exact h.computes (Tracks.start p.initial) chunks

/-- The message "abc" in three pieces, under a variant of each half. The digest of the second ends
inside a word. -/
theorem Variant.finish_absorbAll_fresh_abc :
    let chunks : List Bytes := [Bytes.utf8 "a", [], Bytes.utf8 "bc"]
    let result (v : Variant) : Bytes :=
      v.algorithm.finish (v.algorithm.absorbAll v.algorithm.fresh.value chunks)
    let digest256 : Bytes :=
      [0xba, 0x78, 0x16, 0xbf, 0x8f, 0x01, 0xcf, 0xea, 0x41, 0x41, 0x40, 0xde, 0x5d, 0xae, 0x22,
        0x23, 0xb0, 0x03, 0x61, 0xa3, 0x96, 0x17, 0x7a, 0x9c, 0xb4, 0x10, 0xff, 0x61, 0xf2, 0x00,
        0x15, 0xad]
    let digest512_224 : Bytes :=
      [0x46, 0x34, 0x27, 0x0f, 0x70, 0x7b, 0x6a, 0x54, 0xda, 0xae, 0x75, 0x30, 0x46, 0x08, 0x42,
        0xe2, 0x0e, 0x37, 0xed, 0x26, 0x5c, 0xee, 0xe9, 0xa4, 0x3e, 0x89, 0x24, 0xaa]
    result .sha256 = digest256 ∧ Variant.sha256.wholeDigest (Bytes.utf8 "abc") = digest256 ∧
      result .sha512_224 = digest512_224 ∧
      Variant.sha512_224.wholeDigest (Bytes.utf8 "abc") = digest512_224 := by
  intro chunks result digest256 digest512_224
  obtain ⟨h256, h512_224⟩ :
      result .sha256 = digest256 ∧ result .sha512_224 = digest512_224 := by
    decide +kernel
  exact ⟨h256, (finish_absorbAll_fresh .sha256 chunks).symm.trans h256,
    h512_224, (finish_absorbAll_fresh .sha512_224 chunks).symm.trans h512_224⟩

end ValueHashing.Sha2
