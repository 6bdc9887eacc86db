import ValueHashing.Proofs.Feed.Calls

/-!
# Feeding one value to two algorithms

To feed a value is to absorb bytes and to read results of copies. Two algorithms whose states are
related in a way that absorbing keeps and that results cannot tell (`StreamingHash.Simulates`)
therefore stay related when both are fed one value (`Simulates.feed`), however deep unordered
collections are nested in it.

A recording simulates the algorithm that it records, and its calls lead from the first state to the
last (`Recording.feed_eq_absorbAll_calls`).
-/

namespace ValueHashing

namespace StreamingHash

/-- The relation is kept when both algorithms absorb one byte string, and related states have one
result. -/
structure Simulates (H K : StreamingHash) (R : H.State → K.State → Prop) : Prop where
  absorb : ∀ {h k}, R h k → ∀ data, R (H.absorb h data) (K.absorb k data)
  finish : ∀ {h k}, R h k → H.finish h = K.finish k

namespace Simulates

variable {H K : StreamingHash} {R : H.State → K.State → Prop} (hR : Simulates H K R)
  (L : Layout)

include hR

theorem absorbAll {h : H.State} {k : K.State} (hk : R h k) (parts : List Bytes) :
    R (H.absorbAll h parts) (K.absorbAll k parts) :=
  List.foldl_rel hk fun part _ _ _ hk => hR.absorb hk part

/-- Elements in a row, whether they go one by one or through the staging buffer. -/
theorem feedRun (s : Shape) {oneH : H.State → s.Value → H.State}
    {oneK : K.State → s.Value → K.State} (hone : ∀ {h k}, R h k → ∀ x, R (oneH h x) (oneK k x))
    {h : H.State} {k : K.State} (hk : R h k) (xs : List s.Value) :
    R (ValueHashing.feedRun H L s oneH h xs) (ValueHashing.feedRun K L s oneK k xs) := by
  have hstaged (w : Width) (xs : List (BitVec w.bits)) :
      R (feedStaged H L w h xs) (feedStaged K L w k xs) := by
    rw [feedStaged_eq, feedStaged_eq]
    exact hR.absorbAll hk _
  cases s with
  | int signed w =>
      cases signed with
      | true => exact hstaged w xs
      | false =>
          cases w with
          | w8 => exact hR.absorb hk _
          | w16 | w32 | w64 | w128 => exact hstaged _ xs
  | _ => exact List.foldl_rel hk fun x _ _ _ hk => hone hk x

/-- Copies of related states contribute alike, so the sums are one. -/
theorem feedUnordered {α : Type} {oneH : H.State → α → H.State} {oneK : K.State → α → K.State}
    (hone : ∀ {h k}, R h k → ∀ x, R (oneH h x) (oneK k x)) {h : H.State} {k : K.State}
    (hk : R h k) (xs : List α) :
    R (ValueHashing.feedUnordered H L oneH h xs) (ValueHashing.feedUnordered K L oneK k xs) := by
  have hshare (x : α) : contribution H (oneH h x) = contribution K (oneK k x) :=
    congrArg (project .w64) (hR.finish (hone hk x))
  simp only [ValueHashing.feedUnordered, hshare]
  exact hR.absorb (hR.absorb hk _) _

/-- Related states stay related when they are fed one value. -/
theorem feed (s : Shape) {h : H.State} {k : K.State} (hk : R h k) (x : s.Value) :
    R (ValueHashing.feed H L s h x) (ValueHashing.feed K L s k x) := by
  induction s generalizing h k with
  | int | machineInt | bool | char | float | length => exact hR.absorb hk _
  | unit | hidden => exact hk
  | text => exact hR.absorb (hR.absorb hk _) _
  | pair first second ihFirst ihSecond => exact ihSecond (ihFirst hk x.1) x.2
  | record fields ih => exact ih hk x
  | option present ih =>
      cases x with
      | none => exact hR.absorb hk _
      | some x => exact ih (hR.absorb hk _) x
  | indirect kind target ih => exact ih hk x
  | array count element ih => exact hR.feedRun L element ih hk x.toList
  | collection kind element ih =>
      have hcounted {h : H.State} {k : K.State} (hk : R h k) (counted : Bool) :
          R (if counted then feedLength H L h x.length else h)
            (if counted then feedLength K L k x.length else k) := by
        cases counted with
        | true => exact hR.absorb hk _
        | false => exact hk
      rw [ValueHashing.feed, ValueHashing.feed]
      cases kind.discipline with
      | contiguous counted => exact hcounted (hR.feedRun L element ih hk x) counted
      | successive counted =>
          exact hcounted (List.foldl_rel hk fun y _ _ _ hk => ih hk y) counted
      | unordered => exact hR.feedUnordered L ih hk x

end Simulates

end StreamingHash

namespace Recording

variable {H : StreamingHash}

/-- A recording that began at `first` holds the state that it records, and its calls lead there. -/
def Records (first : H.State) (r : (of H).State) (h : H.State) : Prop :=
  r.state = h ∧ H.absorbAll first r.calls.toList = h

theorem simulates_records (first : H.State) : (of H).Simulates H (Records first) where
  absorb := by
    rintro r h ⟨hstate, hcalls⟩ data
    refine ⟨congrArg (H.absorb · data) hstate, ?_⟩
    have hpush : ((of H).absorb r data).calls.toList = r.calls.toList ++ [data] :=
      Array.toList_push
    rw [hpush, StreamingHash.absorbAll_append, hcalls]
    rfl
  finish := fun hr => congrArg H.finish hr.1

/-- To feed a value of any shape is to absorb the calls that a recording shows, unordered
collections included. -/
theorem feed_eq_absorbAll_calls (L : Layout) (s : Shape) (h : H.State) (x : s.Value) :
    feed H L s h x = H.absorbAll h (feed (of H) L s (start h) x).calls.toList :=
  ((simulates_records h).feed L s (h := start h) ⟨rfl, rfl⟩ x).2.symm

end Recording

end ValueHashing
