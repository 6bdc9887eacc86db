import Mathlib.Data.List.Forall2
import ValueHashing.Proofs.Feed.Simulation

/-!
# The order of unordered collections

Two values that differ only in the order in which unordered collections present their elements, at
any depth (`Shape.Reordered`), are fed by the same calls (`calls_eq_of_reordered`). Nothing is
asked of the algorithm.

## Implementation notes

Elements of an unordered collection may be reordered within themselves as well, so the collection is
first permuted and then compared element by element. Copies that are fed two elements of such a pair
are equal by induction, and the sum of what the copies contribute does not show the permutation.
-/

namespace ValueHashing

/-- Two values of one shape are equal up to the order of the elements of unordered collections in
them. -/
def Shape.Reordered : (s : Shape) → s.Value → s.Value → Prop
  | pair first second, x, y => first.Reordered x.1 y.1 ∧ second.Reordered x.2 y.2
  | hidden part, x, y => part.Reordered x y
  | record fields, x, y => fields.Reordered x y
  | option _, none, none => True
  | option present, some x, some y => present.Reordered x y
  | option _, _, _ => False
  | indirect _ target, x, y => target.Reordered x y
  | array _ element, x, y => List.Forall₂ element.Reordered x.toList y.toList
  | collection kind element, xs, ys =>
      match kind.discipline with
      | .unordered => ∃ zs, xs.Perm zs ∧ List.Forall₂ element.Reordered zs ys
      | _ => List.Forall₂ element.Reordered xs ys
  | _, x, y => x = y

theorem foldl_eq_of_forall₂ {α β : Type} {R : α → α → Prop} {step : β → α → β}
    (hstep : ∀ b x y, R x y → step b x = step b y) {xs ys : List α}
    (hxy : List.Forall₂ R xs ys) (b : β) : xs.foldl step b = ys.foldl step b := by
  induction hxy generalizing b with
  | nil => rfl
  | cons hfirst _ ih => rw [List.foldl_cons, List.foldl_cons, hstep b _ _ hfirst, ih]

variable (L : Layout) (H : StreamingHash)

/-- Elements that are fed alike one by one are fed alike in a row. -/
theorem feedRun_eq_of_reordered {s : Shape} {one : H.State → s.Value → H.State}
    (hone : ∀ h x y, s.Reordered x y → one h x = one h y) {xs ys : List s.Value}
    (hxy : List.Forall₂ s.Reordered xs ys) (h : H.State) :
    feedRun H L s one h xs = feedRun H L s one h ys := by
  cases s with
  | int signed w =>
      have heq : List.Forall₂ (· = ·) xs ys := hxy
      rw [List.forall₂_eq_eq_eq] at heq
      rw [heq]
  | _ => exact foldl_eq_of_forall₂ hone hxy h

/-- A sum of contributions does not show in which order they came, nor which of two elements that
are fed alike made them. -/
theorem feedUnordered_eq_of_perm {α : Type} {R : α → α → Prop} {one : H.State → α → H.State}
    (hone : ∀ h x y, R x y → one h x = one h y) {xs ys zs : List α} (hxz : xs.Perm zs)
    (hzy : List.Forall₂ R zs ys) (h : H.State) :
    feedUnordered H L one h xs = feedUnordered H L one h ys := by
  have hsum : xs.foldl (fun sum x => sum + contribution H (one h x)) 0 =
      ys.foldl (fun sum x => sum + contribution H (one h x)) 0 := by
    calc
      xs.foldl (fun sum x => sum + contribution H (one h x)) 0 =
          zs.foldl (fun sum x => sum + contribution H (one h x)) 0 := by
        apply hxz.foldl_eq'
        intro x _ y _ sum
        rw [BitVec.add_assoc, BitVec.add_assoc, BitVec.add_comm (contribution H (one h x))]
      _ = ys.foldl (fun sum x => sum + contribution H (one h x)) 0 := by
        apply foldl_eq_of_forall₂ _ hzy
        intro sum x y hxy
        rw [hone h x y hxy]
  have hlength : xs.length = ys.length := hxz.length_eq.trans hzy.length_eq
  simp only [feedUnordered, hsum, hlength]

/-- A reordered value leaves every algorithm in the same state. -/
theorem feed_eq_of_reordered {s : Shape} {x y : s.Value} (hxy : s.Reordered x y) (h : H.State) :
    feed H L s h x = feed H L s h y := by
  induction s generalizing h with
  | int | machineInt | bool | char | float | unit | text | length => exact congrArg _ hxy
  | pair first second ihFirst ihSecond =>
      rw [feed, feed, ihFirst hxy.1, ihSecond hxy.2]
  | hidden => rfl
  | record fields ih => exact ih hxy h
  | option present ih =>
      cases x with
      | none =>
          cases y with
          | none => rfl
          | some y => cases hxy
      | some x =>
          cases y with
          | none => cases hxy
          | some y => exact ih hxy _
  | indirect kind target ih => exact ih hxy h
  | array count element ih =>
      exact feedRun_eq_of_reordered L H (fun h x y hxy => ih hxy h) hxy h
  | collection kind element ih =>
      have hone (h : H.State) (x y : element.Value) (hxy : element.Reordered x y) :
          feed H L element h x = feed H L element h y := ih hxy h
      rw [Shape.Reordered] at hxy
      rw [feed, feed]
      cases hkind : kind.discipline with
      | contiguous counted | successive counted =>
          rw [hkind] at hxy
          simp only [feedRun_eq_of_reordered L H hone hxy h, foldl_eq_of_forall₂ hone hxy h,
            hxy.length_eq]
      | unordered =>
          rw [hkind] at hxy
          obtain ⟨zs, hxz, hzy⟩ := hxy
          exact feedUnordered_eq_of_perm L H hone hxz hzy h

/-- Values that differ only in the order of unordered collections are fed by the same calls, and so
leave every algorithm in the same state. Of a multiset every element adds its own contribution, as
often as it occurs. -/
theorem calls_eq_of_reordered {s : Shape} {x y : s.Value} (hxy : s.Reordered x y) (h : H.State) :
    (∃ calls : List Bytes,
      (feed (Recording.of H) L s (Recording.start h) x).calls.toList = calls ∧
        (feed (Recording.of H) L s (Recording.start h) y).calls.toList = calls ∧
        feed H L s h x = H.absorbAll h calls ∧ feed H L s h y = H.absorbAll h calls) ∧
      ∀ (element : Shape) (xs : List element.Value),
        feed H L (.collection .unorderedRange element) h xs =
          feedLength H L (H.absorb h (L.integer .w64 (BitVec.ofNat 64
            (xs.map fun x => (contribution H (feed H L element h x)).toNat).sum))) xs.length := by
  have hrecorded := feed_eq_of_reordered L (Recording.of H) hxy (Recording.start h)
  constructor
  · refine ⟨(feed (Recording.of H) L s (Recording.start h) x).calls.toList, rfl, ?_, ?_, ?_⟩
    · exact congrArg (fun r => (Recording.calls r).toList) hrecorded.symm
    · exact Recording.feed_eq_absorbAll_calls L s h x
    · rw [← feed_eq_of_reordered L H hxy]
      exact Recording.feed_eq_absorbAll_calls L s h x
  · intro element xs
    exact feedUnordered_eq L H (feed H L element) h xs

/-- A map from bytes to sets of truth values and a multiset of characters, each presented in two
orders. -/
theorem calls_eq_of_reordered_nested :
    let element := Shape.entry (.int false .w8) (.collection .hashedSet .bool)
    let s := Shape.pair (.option (.collection .hashedMap element))
      (.collection .unorderedRange .char)
    let x : s.Value := (some [(1, [true, false], ()), (2, [], ())], ['a', 'b', 'a'])
    let y : s.Value := (some [(2, [], ()), (1, [false, true], ())], ['b', 'a', 'a'])
    let H := Fnv.algorithm 1
    s.Reordered x y ∧ feed H .big s H.fresh.value x = feed H .big s H.fresh.value y := by
  intro element s x y H
  have hbools : Shape.Reordered (.collection .hashedSet .bool) [true, false] [false, true] :=
    ⟨[false, true], List.Perm.swap .., List.forall₂_same.mpr fun _ _ => rfl⟩
  have hempty : Shape.Reordered (.collection .hashedSet .bool) [] [] :=
    ⟨[], List.Perm.refl _, List.Forall₂.nil⟩
  have hmap : Shape.Reordered (.collection .hashedMap element)
      [(1, [true, false], ()), (2, [], ())] [(2, [], ()), (1, [false, true], ())] := by
    refine ⟨[(2, [], ()), (1, [true, false], ())], List.Perm.swap .., ?_⟩
    apply List.Forall₂.cons
    · exact ⟨rfl, hempty, rfl⟩
    · apply List.Forall₂.cons
      · exact ⟨rfl, hbools, rfl⟩
      · exact List.Forall₂.nil
  have hchars : Shape.Reordered (.collection .unorderedRange .char) ['a', 'b', 'a']
      ['b', 'a', 'a'] :=
    ⟨['b', 'a', 'a'], List.Perm.swap .., List.forall₂_same.mpr fun _ _ => rfl⟩
  have hxy : s.Reordered x y := ⟨hmap, hchars⟩
  obtain ⟨⟨calls, -, -, hx, hy⟩, -⟩ := calls_eq_of_reordered .big H hxy H.fresh.value
  exact ⟨hxy, hx.trans hy.symm⟩

end ValueHashing
