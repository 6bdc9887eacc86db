import ValueHashing.Sha2.Standard

/-!
# The tables are those of the standard

The functions of one word rotate and shift bit patterns, the round constants are bits of cube
roots of primes, and the initial values are bits of square roots of primes or states of
SHA-512 itself. The tables are compared word by word.
-/

namespace ValueHashing.Sha2

theorem constants32_eq : constants32 = Standard.constants32 := by decide +kernel

theorem constants64_eq : constants64 = Standard.constants64 := by decide +kernel

/-- Two shifts that meet at the ends of a word rotate it. -/
theorem rounds32_eq : rounds32 = Standard.rounds32 := by
  rw [rounds32, Standard.rounds32, constants32_eq]
  rfl

theorem rounds64_eq : rounds64 = Standard.rounds64 := by
  rw [rounds64, Standard.rounds64, constants64_eq]
  rfl

theorem initial256_eq : initial256 = Standard.initial256 := by decide +kernel

theorem initial224_eq : initial224 = Standard.initial224 := by decide +kernel

theorem initial512_eq : initial512 = Standard.initial512 := by decide +kernel

theorem initial384_eq : initial384 = Standard.initial384 := by decide +kernel

/-- The state that gives an initial value is computed with the tables as they are. -/
theorem truncatedInitial_eq (name : String) :
    Standard.truncatedInitial name =
      wholeState rounds64 128 16 (initial512.map (· ^^^ 0xa5a5a5a5a5a5a5a5)) (Bytes.utf8 name) := by
  rw [Standard.truncatedInitial, ← rounds64_eq, ← initial512_eq]

theorem initial512_224_eq : initial512_224 = Standard.truncatedInitial "SHA-512/224" := by
  rw [truncatedInitial_eq]
  decide +kernel

theorem initial512_256_eq : initial512_256 = Standard.truncatedInitial "SHA-512/256" := by
  rw [truncatedInitial_eq]
  decide +kernel

end ValueHashing.Sha2
