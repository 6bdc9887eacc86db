import ValueHashing.Proofs.Absorber.Collisions
import ValueHashing.Proofs.Absorber.Run
import ValueHashing.Proofs.Cancellation
import ValueHashing.Sha2.Variant

/-!
# A collision of SHA-256 or SHA-512 is a collision of its compression

The digest of these two variants is the whole chaining state, so messages with one digest close
with one chaining state, and `Compression.collide_of_closed_eq` applies.
-/

namespace ValueHashing

namespace Word

variable {W : Type} [Word W]

/-- Words whose bytes lose nothing: a word is a number of `size` bytes, and no two are the
same number. -/
class Faithful (W : Type) [Word W] : Prop where
  toNat_lt : ∀ w : W, toNat w < 256 ^ size W
  toNat_inj : ∀ {v w : W}, toNat v = toNat w → v = w

instance : Faithful UInt32 where
  toNat_lt w := w.toNat_lt
  toNat_inj := UInt32.toNat_inj.mp

instance : Faithful UInt64 where
  toNat_lt w := w.toNat_lt
  toNat_inj := UInt64.toNat_inj.mp

theorem bytes_inj [Faithful W] {v w : W} (h : bytes v = bytes w) : v = w :=
  Faithful.toNat_inj ((Bytes.bigEndian_inj (Faithful.toNat_lt v) (Faithful.toNat_lt w)).mp h)

/-- The bytes of equally many words in a row tell every word. -/
theorem flatMap_bytes_inj [Faithful W] {vs ws : List W} (hlength : vs.length = ws.length)
    (h : vs.flatMap bytes = ws.flatMap bytes) : vs = ws := by
  have hpairs : List.Forall₂ (fun _ _ => True) vs ws :=
    List.forall₂_iff_zip.mpr ⟨hlength, fun _ => trivial⟩
  have hfirst (v : W) (_ : v ∈ vs) (w : W) (_ : w ∈ ws) (_ : True) (p q : Bytes)
      (heq : bytes v ++ p = bytes w ++ q) : v = w ∧ p = q := by
    obtain ⟨hbytes, hrest⟩ := List.append_inj heq (by simp)
    exact ⟨bytes_inj hbytes, hrest⟩
  have heq : vs.flatMap bytes ++ [] = ws.flatMap bytes ++ [] := by rw [h]
  obtain ⟨hwords, _⟩ := forall₂_of_flatMap_append_eq hpairs hfirst heq
  rwa [List.forall₂_eq_eq_eq] at hwords

end Word

namespace Sha2

variable {W : Type} [Word W] [Word.Faithful W] {p : Parameters W}

/-- A digest of the size of the chaining state is the chaining state. -/
theorem Parameters.state_eq_of_finish_eq {a b : Absorber p.compression}
    (hsize : p.digestSize = 8 * Word.size W) (h : p.algorithm.finish a = p.algorithm.finish b) :
    a.close.state = b.close.state := by
  have hdigest (c : Absorber p.compression) :
      p.algorithm.finish c = c.close.state.toList.flatMap Word.bytes := by
    have hlength : (c.close.state.toList.flatMap Word.bytes).length = 8 * Word.size W := by
      simp [List.length_flatMap]
      omega
    simp only [algorithm, Absorber.closeInto, Word.storeAll_eq, Vector.length_toList,
      Bytes.length_zeros, hsize]
    rw [List.take_of_length_le (Nat.le_of_eq hlength), List.drop_of_length_le (by simp),
      List.append_nil]
  rw [hdigest, hdigest] at h
  exact Vector.toList_inj.mp (Word.flatMap_bytes_inj (by simp) h)

/-- Different messages with one digest collide. -/
theorem Parameters.collide_of_finish_eq (hsize : p.digestSize = 8 * Word.size W)
    {chunks₁ chunks₂ : List Bytes} (h₁ : p.compression.LengthFits chunks₁.flatten)
    (h₂ : p.compression.LengthFits chunks₂.flatten) (hne : chunks₁.flatten ≠ chunks₂.flatten)
    (heq : p.algorithm.finish (p.algorithm.absorbAll p.algorithm.fresh.value chunks₁) =
      p.algorithm.finish (p.algorithm.absorbAll p.algorithm.fresh.value chunks₂)) :
    p.compression.Collide (p.compression.closingCalls p.initial chunks₁)
      (p.compression.closingCalls p.initial chunks₂) :=
  Compression.collide_of_closed_eq h₁ h₂ hne (state_eq_of_finish_eq hsize heq)

/-- Two different messages whose lengths fit into the length field, each taken in from the start in
any pieces, are compressed as different blocks, and with different last blocks unless they are of
one length. If they close with one chaining state, a call of the compression in one run and a call
in the other are different and have one output. Messages with one SHA-256 or SHA-512 digest
therefore lead to such calls. -/
theorem collision_exhibits_compression_collision :
    (∀ {W : Type} (C : Compression W) (initial : Vector W 8) (chunks₁ chunks₂ : List Bytes),
      chunks₁.flatten ≠ chunks₂.flatten →
      8 * chunks₁.flatten.length < 2 ^ (8 * C.lengthSize) →
      8 * chunks₂.flatten.length < 2 ^ (8 * C.lengthSize) →
      let calls₁ := C.closingCalls initial chunks₁
      let calls₂ := C.closingCalls initial chunks₂
      calls₁.map Prod.snd ≠ calls₂.map Prod.snd ∧
        (chunks₁.flatten.length ≠ chunks₂.flatten.length →
          (calls₁.map Prod.snd).getLast? ≠ (calls₂.map Prod.snd).getLast?) ∧
        ((C.closed initial chunks₁).state = (C.closed initial chunks₂).state →
          C.Collide calls₁ calls₂)) ∧
      (∀ chunks₁ chunks₂ : List Bytes, chunks₁.flatten ≠ chunks₂.flatten →
        8 * chunks₁.flatten.length < 2 ^ 64 → 8 * chunks₂.flatten.length < 2 ^ 64 →
        let digest (chunks : List Bytes) : Bytes :=
          sha256.algorithm.finish
            (sha256.algorithm.absorbAll sha256.algorithm.fresh.value chunks)
        digest chunks₁ = digest chunks₂ →
        compression32.Collide (compression32.closingCalls initial256 chunks₁)
          (compression32.closingCalls initial256 chunks₂)) ∧
      (∀ chunks₁ chunks₂ : List Bytes, chunks₁.flatten ≠ chunks₂.flatten →
        8 * chunks₁.flatten.length < 2 ^ 128 → 8 * chunks₂.flatten.length < 2 ^ 128 →
        let digest (chunks : List Bytes) : Bytes :=
          sha512.algorithm.finish
            (sha512.algorithm.absorbAll sha512.algorithm.fresh.value chunks)
        digest chunks₁ = digest chunks₂ →
        compression64.Collide (compression64.closingCalls initial512 chunks₁)
          (compression64.closingCalls initial512 chunks₂)) := by
  refine ⟨?_, ?_, ?_⟩
  · intro W C initial chunks₁ chunks₂ hne h₁ h₂ calls₁ calls₂
    have hblocks₁ : calls₁.map Prod.snd = C.paddedBlocks chunks₁.flatten := by
      rw [show calls₁ = _ from C.closingCalls_eq initial chunks₁, C.map_snd_calls]
    have hblocks₂ : calls₂.map Prod.snd = C.paddedBlocks chunks₂.flatten := by
      rw [show calls₂ = _ from C.closingCalls_eq initial chunks₂, C.map_snd_calls]
    rw [hblocks₁, hblocks₂]
    refine ⟨Compression.paddedBlocks_ne h₁ h₂ hne, ?_, ?_⟩
    · intro hlength
      exact Compression.getLast?_paddedBlocks_ne h₁ h₂ hlength
    · intro hstate
      exact Compression.collide_of_closed_eq h₁ h₂ hne hstate
  · intro chunks₁ chunks₂ hne h₁ h₂ digest heq
    exact Parameters.collide_of_finish_eq (p := sha256) rfl h₁ h₂ hne heq
  · intro chunks₁ chunks₂ hne h₁ h₂ digest heq
    exact Parameters.collide_of_finish_eq (p := sha512) rfl h₁ h₂ hne heq

/-- A compression that only counts blocks: a message of six bytes, whose length does not fit into
its first block any more, and one of twelve bytes in two pieces. Both are two blocks long. -/
theorem collision_exhibits_compression_collision_counting :
    let C := Absorber.counting
    let initial : Vector Nat 8 := Vector.replicate 8 0
    let chunks₁ : List Bytes := [[1, 2, 3, 4, 5, 6]]
    let chunks₂ : List Bytes := [[1, 2, 3, 4, 5, 6, 7], [8, 9, 10, 11, 12]]
    chunks₁.flatten ≠ chunks₂.flatten ∧
      8 * chunks₁.flatten.length < 2 ^ (8 * C.lengthSize) ∧
      8 * chunks₂.flatten.length < 2 ^ (8 * C.lengthSize) ∧
      (C.closed initial chunks₁).state = (C.closed initial chunks₂).state ∧
      C.Collide (C.closingCalls initial chunks₁) (C.closingCalls initial chunks₂) := by
  intro C initial chunks₁ chunks₂
  have hne : chunks₁.flatten ≠ chunks₂.flatten := by decide
  have h₁ : 8 * chunks₁.flatten.length < 2 ^ (8 * C.lengthSize) := by decide
  have h₂ : 8 * chunks₂.flatten.length < 2 ^ (8 * C.lengthSize) := by decide
  have hstate : (C.closed initial chunks₁).state = (C.closed initial chunks₂).state := by
    decide +kernel
  obtain ⟨hgeneral, _⟩ := collision_exhibits_compression_collision
  obtain ⟨_, _, hcollide⟩ := hgeneral C initial chunks₁ chunks₂ hne h₁ h₂
  exact ⟨hne, h₁, h₂, hstate, hcollide hstate⟩

end Sha2

end ValueHashing
