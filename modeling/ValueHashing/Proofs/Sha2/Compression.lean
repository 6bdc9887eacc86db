import ValueHashing.Proofs.Sha2.Schedule
import ValueHashing.Proofs.Sha2.Tables

/-!
# The compression, round by round

`Rounds.beforeRound` is what the compression has in hand when round `t` begins: the ring and the
working words. It goes from one round to the next by one step (`beforeRound_succ`), and at every
round the ring holds the latest words of the schedule and the working words are those of the
standard (`inStep_beforeRound`). After the last round both compressions are one function
(`compress_eq_compressFull`).
-/

namespace ValueHashing.Sha2

variable {W : Type} [Word W] {r : Rounds W} {size : Nat}

/-- A round on the eight words in order is the round on the named working words. -/
theorem Working.ofState_round (v : Vector W 8) (k w : W) :
    Working.ofState (r.round v k w) = (Working.ofState v).round r k w := rfl

theorem Working.addTo_ofState (v s : Vector W 8) :
    (Working.ofState v).addTo s = s.zipWith (· + ·) v := by
  have hwords : #v[v.get 0, v.get 1, v.get 2, v.get 3, v.get 4, v.get 5, v.get 6, v.get 7] = v := by
    apply Vector.ext
    intro i hi
    match i with
    | 0 | 1 | 2 | 3 | 4 | 5 | 6 | 7 => rfl
  exact congrArg (s.zipWith (· + ·)) hwords

namespace Rounds

variable (r) (state : Vector W 8) (block : Vector UInt8 size)

/-- The ring and the working words when round `t` begins. -/
def beforeRound (t : Nat) : Vector W 16 × Vector W 8 :=
  (r.constants.zipIdx.take t).foldl r.step (firstRing block, state)

/-- The working words of the standard when round `t` begins. -/
def workingBefore (t : Nat) : Working W :=
  ((r.constants.zip (r.schedule block r.constants.length).toList).take t).foldl
    (fun v p => v.round r p.1 p.2) (Working.ofState state)

variable {r} {t : Nat} {k : W}

/-- Round `t` is one step with the constant of the round. -/
theorem beforeRound_succ (hk : r.constants[t]? = some k) :
    r.beforeRound state block (t + 1) = r.step (r.beforeRound state block t) (k, t) := by
  have hround : r.constants.zipIdx[t]? = some (k, t) := by simp [List.getElem?_zipIdx, hk]
  rw [beforeRound, List.take_add_one, hround, Option.toList_some, List.foldl_append]
  rfl

/-- A round of the standard mixes in the word of the schedule. -/
theorem workingBefore_succ (hk : r.constants[t]? = some k) :
    r.workingBefore state block (t + 1) =
      (r.workingBefore state block t).round r k (r.scheduleWord block t) := by
  obtain ⟨hlt, -⟩ := List.getElem?_eq_some_iff.mp hk
  have hround : (r.constants.zip (r.schedule block r.constants.length).toList)[t]? =
      some (k, r.scheduleWord block t) := by
    rw [toList_schedule, List.getElem?_zip_eq_some, List.getElem?_map, List.getElem?_range hlt]
    exact ⟨hk, rfl⟩
  rw [workingBefore, List.take_add_one, hround, Option.toList_some, List.foldl_append]
  rfl

variable (r)

/-- The ring holds the latest words of the schedule, and the working words are those of the
standard, when round `t` begins. -/
structure InStep (t : Nat) (s : Vector W 16 × Vector W 8) : Prop where
  ring : r.RingHolds block s.1 (max t 16)
  working : Working.ofState s.2 = r.workingBefore state block t

variable {r state block}

theorem InStep.first : r.InStep state block 0 (firstRing block, state) :=
  ⟨RingHolds.firstRing r block, rfl⟩

/-- A round stays in step with the standard. -/
theorem InStep.step {s : Vector W 16 × Vector W 8} (h : r.InStep state block t s)
    (hk : r.constants[t]? = some k) : r.InStep state block (t + 1) (r.step s (k, t)) := by
  have hring := h.ring.advance
  refine ⟨hring, ?_⟩
  rw [workingBefore_succ state block hk, ← h.working, ← hring.current, ← Working.ofState_round]
  rfl

/-- Compression adds its state to what the rounds have made of it. -/
theorem compress_eq_beforeRound (r : Rounds W) (state : Vector W 8) (block : Vector UInt8 size) :
    r.compress state block =
      state.zipWith (· + ·) (r.beforeRound state block r.constants.length).2 := by
  rw [beforeRound, List.take_of_length_le (by simp)]
  rfl

theorem inStep_beforeRound (ht : t ≤ r.constants.length) :
    r.InStep state block t (r.beforeRound state block t) := by
  induction t with
  | zero => exact InStep.first
  | succ t ih =>
      have hk : r.constants[t]? = some r.constants[t] := List.getElem?_eq_getElem ht
      rw [beforeRound_succ state block hk]
      exact (ih (Nat.le_of_succ_le ht)).step hk

/-- Compression with a ring of sixteen words is compression with the whole schedule. -/
theorem compress_eq_compressFull (r : Rounds W) (state : Vector W 8) (block : Vector UInt8 size) :
    r.compress state block = r.compressFull state block := by
  have hlast : r.InStep state block r.constants.length
      (r.beforeRound state block r.constants.length) := inStep_beforeRound (Nat.le_refl _)
  have hworking := hlast.working
  rw [workingBefore, List.take_of_length_le (by simp)] at hworking
  rw [compress_eq_beforeRound, compressFull, ← hworking, Working.addTo_ofState]

end Rounds

/-- Both compressions are those of the standard, which write out the whole schedule first. A
compression adds its state to what its rounds have made of it, and round `t` mixes in the word of
the ring at `t`. When it does, the ring holds the sixteen words of the schedule that end with word
`t`, and the first sixteen words before that; when it brings in word `t`, the four words that this
one is made of are still in the ring. -/
theorem ring_rounds_eq_standard :
    (∀ (state : Vector UInt32 8) (block : Vector UInt8 64),
      compression32.compress state block = Standard.rounds32.compressFull state block) ∧
      (∀ (state : Vector UInt64 8) (block : Vector UInt8 128),
        compression64.compress state block = Standard.rounds64.compressFull state block) ∧
      ∀ {W : Type} [Word W] (r : Rounds W) {size : Nat} (state : Vector W 8)
        (block : Vector UInt8 size),
        let word := r.scheduleWord block
        r.compress state block =
            state.zipWith (· + ·) (r.beforeRound state block r.constants.length).2 ∧
          (r.schedule block r.constants.length).toList =
            (List.range r.constants.length).map word ∧
          ∀ (t : Nat) (k : W), r.constants[t]? = some k →
            let s := r.beforeRound state block t
            let ring := r.advance s.1 t
            r.beforeRound state block (t + 1) = (ring, r.round s.2 k (Rounds.ringWord ring t)) ∧
              Working.ofState s.2 = r.workingBefore state block t ∧
              (∀ j ≤ max t 15, max t 15 < j + 16 → Rounds.ringWord ring j = word j) ∧
              (16 ≤ t →
                Rounds.ringWord s.1 (t + 14) = word (t - 2) ∧
                  Rounds.ringWord s.1 (t + 9) = word (t - 7) ∧
                  Rounds.ringWord s.1 (t + 1) = word (t - 15) ∧
                  Rounds.ringWord s.1 t = word (t - 16)) := by
  refine ⟨?_, ?_, ?_⟩
  · intro state block
    rw [← rounds32_eq]
    exact rounds32.compress_eq_compressFull state block
  · intro state block
    rw [← rounds64_eq]
    exact rounds64.compress_eq_compressFull state block
  · intro W _ r size state block word
    refine ⟨r.compress_eq_beforeRound state block, r.toList_schedule block _, ?_⟩
    intro t k hk s ring
    obtain ⟨hlt, -⟩ := List.getElem?_eq_some_iff.mp hk
    have h : r.InStep state block t s := Rounds.inStep_beforeRound (Nat.le_of_lt hlt)
    refine ⟨Rounds.beforeRound_succ state block hk, h.working, ?_, h.ring.sources⟩
    intro j hj hback
    exact h.ring.advance j (by omega) (by omega)

/-- Round 40 of SHA-256 on the message "abc" with its padding: words 25 to 40 are in the ring, and
just before, word 24 is there for the last time, as a part of word 40. -/
theorem ring_rounds_eq_standard_abc :
    let block := messageBlock 64 (Bytes.utf8 "abc" ++ padding 64 8 3) 0
    let s := rounds32.beforeRound initial256 block 40
    let ring := rounds32.advance s.1 40
    rounds32.constants[40]? = some 0xa2bfe8a1 ∧ 25 ≤ max 40 15 ∧ max 40 15 < 25 + 16 ∧ 16 ≤ 40 ∧
      Standard.rounds32.compressFull initial256 block =
        #v[0xba7816bf, 0x8f01cfea, 0x414140de, 0x5dae2223,
          0xb00361a3, 0x96177a9c, 0xb410ff61, 0xf20015ad] ∧
      Rounds.ringWord ring 40 = rounds32.scheduleWord block 40 ∧
      Rounds.ringWord ring 25 = rounds32.scheduleWord block 25 ∧
      Rounds.ringWord s.1 40 = rounds32.scheduleWord block 24 := by
  intro block s ring
  have hk : rounds32.constants[40]? = some 0xa2bfe8a1 := rfl
  have hfirst : 25 ≤ max 40 15 := by decide
  have hlast : max 40 15 < 25 + 16 := by decide
  have hpast : 16 ≤ 40 := by decide
  obtain ⟨hcompress, -, hrounds⟩ := ring_rounds_eq_standard
  obtain ⟨-, -, hround⟩ := hrounds rounds32 initial256 block
  obtain ⟨-, -, hring, hsources⟩ := hround 40 0xa2bfe8a1 hk
  obtain ⟨-, -, -, hoverwritten⟩ := hsources hpast
  refine ⟨hk, hfirst, hlast, hpast, ?_, ?_, hring 25 hfirst hlast, hoverwritten⟩
  · rw [← hcompress initial256 block]
    decide +kernel
  · exact hring 40 (by decide) (by decide)

end ValueHashing.Sha2
