import ValueHashing.Sha2.Standard

/-!
# The message schedule in a ring

Compression keeps sixteen words of the message schedule, where the standard writes all of them
out. The ring always holds the latest sixteen (`RingHolds`): the words that a new word is made of
are still there (`RingHolds.sources`), and bringing it in overwrites the one that no later word
needs (`RingHolds.advance`), so every round mixes in the word that the standard gives it
(`RingHolds.current`).
-/

namespace ValueHashing.Sha2

variable {W : Type} [Word W] (r : Rounds W) {size : Nat} (block : Vector UInt8 size)

namespace Rounds

/-- Word `t` of the message schedule. -/
def scheduleWord (t : Nat) : W := (r.schedule block (t + 1))[t]

/-- Writing out more words changes none of the earlier ones. -/
theorem getElem_schedule {count t : Nat} (h : t < count) :
    (r.schedule block count)[t] = r.scheduleWord block t := by
  induction count with
  | zero => omega
  | succ count ih =>
      by_cases heq : t = count
      · subst heq
        rfl
      · have hlt : t < count := by omega
        rw [← ih hlt, schedule]
        exact Vector.getElem_push_lt hlt

theorem scheduleWord_of_lt {t : Nat} (h : t < 16) :
    r.scheduleWord block t = blockWord block t := by
  simp [scheduleWord, schedule, h]

/-- From the sixteenth on, every word is made of four earlier ones. -/
theorem scheduleWord_of_le {t : Nat} (h : 16 ≤ t) :
    r.scheduleWord block t =
      r.smallSigma1 (r.scheduleWord block (t - 2)) + r.scheduleWord block (t - 7) +
        r.smallSigma0 (r.scheduleWord block (t - 15)) + r.scheduleWord block (t - 16) := by
  have hge : ¬ t < 16 := by omega
  rw [scheduleWord, schedule]
  simp only [hge, dite_false, Vector.getElem_push_eq]
  rw [getElem_schedule r block (show t - 2 < t by omega),
    getElem_schedule r block (show t - 7 < t by omega),
    getElem_schedule r block (show t - 15 < t by omega),
    getElem_schedule r block (show t - 16 < t by omega)]

theorem toList_schedule (count : Nat) :
    (r.schedule block count).toList = (List.range count).map (r.scheduleWord block) := by
  apply List.ext_getElem
  · simp
  · intro t ht _
    rw [Vector.length_toList] at ht
    simp [getElem_schedule r block ht]

/-- The ring holds those of the first `count` words that are not more than sixteen back. -/
def RingHolds (ring : Vector W 16) (count : Nat) : Prop :=
  ∀ t, t < count → count ≤ t + 16 →
    ringWord ring t = r.scheduleWord block t

omit [Word W] in
theorem ringWord_congr (ring : Vector W 16) {s t : Nat} (h : s % 16 = t % 16) :
    ringWord ring s = ringWord ring t := by
  simp only [ringWord, h]

omit [Word W] in
theorem ringWord_ringSet_self (ring : Vector W 16) (t : Nat) (w : W) :
    ringWord (ringSet ring t w) t = w :=
  Vector.getElem_set_self _

omit [Word W] in
theorem ringWord_ringSet_ne (ring : Vector W 16) {s t : Nat} (w : W) (h : t % 16 ≠ s % 16) :
    ringWord (ringSet ring t w) s = ringWord ring s :=
  Vector.getElem_set_ne _ _ h

variable {ring : Vector W 16}

/-- A word of a block stands behind the words before it. -/
theorem blockWord_eq_ofBytes (t : Nat) :
    (blockWord block t : W) =
      Word.ofBytes ((block.toList.drop (t * Word.size W)).take (Word.size W)) := by
  have hsize : (t + 1) * Word.size W - t * Word.size W = Word.size W := by
    rw [Nat.succ_mul, Nat.add_sub_cancel_left]
  rw [blockWord, Vector.toList_extract, hsize]
  rfl

theorem RingHolds.firstRing : r.RingHolds block (firstRing block) 16 := by
  intro t ht _
  have hmod : t % 16 = t := Nat.mod_eq_of_lt ht
  rw [scheduleWord_of_lt r block ht, blockWord_eq_ofBytes]
  simp [ringWord, Rounds.firstRing, hmod]

variable {r block}

/-- The four words that word `t` is made of stand in the ring when it is brought in. -/
theorem RingHolds.sources {t : Nat} (h : r.RingHolds block ring (max t 16)) (ht : 16 ≤ t) :
    ringWord ring (t + 14) = r.scheduleWord block (t - 2) ∧
      ringWord ring (t + 9) = r.scheduleWord block (t - 7) ∧
      ringWord ring (t + 1) = r.scheduleWord block (t - 15) ∧
      ringWord ring t = r.scheduleWord block (t - 16) := by
  rw [Nat.max_eq_left ht] at h
  have hword {i j : Nat} (hmod : i % 16 = j % 16) (hj : j < t) (hback : t ≤ j + 16) :
      ringWord ring i = r.scheduleWord block j := by
    rw [ringWord_congr ring hmod]
    exact h j hj hback
  refine ⟨?_, ?_, ?_, ?_⟩
  · exact hword (by omega) (by omega) (by omega)
  · exact hword (by omega) (by omega) (by omega)
  · exact hword (by omega) (by omega) (by omega)
  · exact hword (by omega) (by omega) (by omega)

/-- Round `t` brings in word `t`, from the sixteenth on in place of word `t - 16`. -/
theorem RingHolds.advance {t : Nat} (h : r.RingHolds block ring (max t 16)) :
    r.RingHolds block (r.advance ring t) (max (t + 1) 16) := by
  unfold Rounds.advance
  split
  · next hlt =>
      have hmax : max (t + 1) 16 = max t 16 := by omega
      rwa [hmax]
  · next hge =>
      have hle : 16 ≤ t := Nat.le_of_not_lt hge
      obtain ⟨h2, h7, h15, h16⟩ := h.sources hle
      intro j hj hback
      rw [Nat.max_eq_left (by omega)] at h hj hback
      by_cases heq : j = t
      · subst heq
        rw [ringWord_ringSet_self, h2, h7, h15, h16, scheduleWord_of_le r block hle]
      · rw [ringWord_ringSet_ne ring _ (by omega)]
        exact h j (by omega) (by omega)

/-- The word that round `t` reads from the ring is word `t`. -/
theorem RingHolds.current {t : Nat} (h : r.RingHolds block ring (max (t + 1) 16)) :
    ringWord ring t = r.scheduleWord block t :=
  h t (by omega) (by omega)

end Rounds

end ValueHashing.Sha2
