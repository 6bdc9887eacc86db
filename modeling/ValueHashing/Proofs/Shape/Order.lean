import Mathlib.Data.List.Sort
import ValueHashing.Shape.Order

/-!
# The contents of sorted collections

The order of values is a total order in which only equal values compare equal, whatever the shape
(`Shape.lawfulOrder_compareValues`).

What a sorted collection presents does not show how it was filled. It is in strictly ascending order
(`strictlyAscending_sortDistinct`), and only one list is so that holds the elements of a set
(`sortDistinct_eq_of_mem_iff`), or the entries of a map that were inserted last under their keys
(`sortDistinct_eq_of_last`).

## Implementation notes

Merge sort is stable. Elements that compare equal to one element are therefore the same list before
and after sorting (`equalTo_mergeSort`), and `keepLast` leaves the last of that list.
-/

namespace ValueHashing

open Std

/-- A total order in which only equal values compare equal. -/
class LawfulOrder {α : Type} (cmp : α → α → Ordering) : Prop
    extends TransCmp cmp, LawfulEqCmp cmp

namespace LawfulOrder

variable {α β : Type}

instance nat : LawfulOrder (compare : Nat → Nat → Ordering) := ⟨⟩

instance int : LawfulOrder (compare : Int → Int → Ordering) := ⟨⟩

instance list (cmp : α → α → Ordering) [LawfulOrder cmp] :
    LawfulOrder (List.compareLex cmp) := ⟨⟩

/-- Values are compared by what an injective function reads off them. -/
theorem comap (cmp : β → β → Ordering) [LawfulOrder cmp] (f : α → β)
    (hf : ∀ {x y}, f x = f y → x = y) : LawfulOrder fun x y => cmp (f x) (f y) where
  toTransCmp := inferInstanceAs (TransCmp (Ordering.byKey f cmp))
  compare_self := ReflCmp.compare_self
  eq_of_compare h := hf (LawfulEqCmp.eq_of_compare h)

/-- Pairs are compared by the first components, and by the second ones where those are equal. -/
theorem pair (first : α → α → Ordering) (second : β → β → Ordering) [LawfulOrder first]
    [LawfulOrder second] :
    LawfulOrder fun x y : α × β => (first x.1 y.1).then (second x.2 y.2) where
  toTransCmp := inferInstanceAs
    (TransCmp (compareLex (Ordering.byKey Prod.fst first) (Ordering.byKey Prod.snd second)))
  compare_self := Ordering.then_eq_eq.mpr ⟨ReflCmp.compare_self, ReflCmp.compare_self⟩
  eq_of_compare h := by
    obtain ⟨hfirst, hsecond⟩ := Ordering.then_eq_eq.mp h
    exact Prod.ext (LawfulEqCmp.eq_of_compare hfirst) (LawfulEqCmp.eq_of_compare hsecond)

/-- An absent value comes before every present one. -/
theorem option (present : Shape) [h : LawfulOrder present.compareValues] :
    LawfulOrder (Shape.option present).compareValues where
  eq_swap {x y} := by
    cases x with
    | none => cases y <;> rfl
    | some x =>
        cases y with
        | none => rfl
        | some y => exact h.eq_swap
  isLE_trans {x y z} hxy hyz := by
    cases x with
    | none => cases z <;> rfl
    | some x =>
        cases y with
        | none => cases hxy
        | some y =>
            cases z with
            | none => cases hyz
            | some z => exact h.isLE_trans hxy hyz
  compare_self {x} := by
    cases x with
    | none => rfl
    | some x => exact h.compare_self
  eq_of_compare {x y} hxy := by
    cases x with
    | none =>
        cases y with
        | none => rfl
        | some y => cases hxy
    | some x =>
        cases y with
        | none => cases hxy
        | some y => exact congrArg some (h.eq_of_compare hxy)

end LawfulOrder

/-- Values of every shape are in a total order in which only equal values compare equal. -/
theorem Shape.lawfulOrder_compareValues (s : Shape) : LawfulOrder s.compareValues := by
  induction s with
  | int signed width =>
      cases signed with
      | true => exact .comap compare BitVec.toInt BitVec.eq_of_toInt_eq
      | false => exact .comap compare BitVec.toNat BitVec.eq_of_toNat_eq
  | machineInt signed =>
      cases signed with
      | true => exact .comap compare BitVec.toInt BitVec.eq_of_toInt_eq
      | false => exact .comap compare BitVec.toNat BitVec.eq_of_toNat_eq
  | bool =>
      have hinjective {x y : Bool} : x.toNat = y.toNat → x = y := by decide +revert
      exact .comap compare Bool.toNat hinjective
  | char => exact .comap compare Char.toNat Char.toNat_inj.mp
  | float | length => exact .comap compare BitVec.toNat BitVec.eq_of_toNat_eq
  | unit => exact .comap compare (fun _ : Unit => 0) fun _ => rfl
  | text =>
      have hbytes : LawfulOrder fun a b : UInt8 => compare a.toNat b.toNat :=
        .comap compare UInt8.toNat UInt8.toNat_inj.mp
      exact .comap (List.compareLex _) Bytes.utf8 Bytes.utf8_injective
  | pair first second => exact .pair first.compareValues second.compareValues
  | hidden part ih => exact ih
  | record fields ih => exact ih
  | option present => exact .option present
  | indirect kind target ih => exact ih
  | array count element =>
      exact .comap (List.compareLex element.compareValues) Vector.toList Vector.toList_inj.mp
  | collection kind element => exact .list element.compareValues

/-! ## Sorting -/

section Sorting

variable {α : Type} (cmp : α → α → Ordering)

/-- The elements are in ascending order, where equal ones are neighbours. -/
def Ascending (xs : List α) : Prop := xs.Pairwise fun x y => (cmp x y).isLE

/-- The elements are in ascending order, and no two compare equal. -/
def StrictlyAscending (xs : List α) : Prop := xs.Pairwise fun x y => cmp x y = .lt

/-- What compares equal to an element, in the order of the list. -/
def equalTo (x : α) (xs : List α) : List α := xs.filter fun y => cmp x y = .eq

variable {cmp}

theorem equalTo_cons_of_eq {x y : α} (h : cmp x y = .eq) (ys : List α) :
    equalTo cmp x (y :: ys) = y :: equalTo cmp x ys :=
  List.filter_cons_of_pos (decide_eq_true h)

theorem equalTo_cons_of_ne {x y : α} (h : cmp x y ≠ .eq) (ys : List α) :
    equalTo cmp x (y :: ys) = equalTo cmp x ys :=
  List.filter_cons_of_neg (by simpa using h)

theorem equalTo_eq_nil {x : α} {ys : List α} (h : ∀ y ∈ ys, cmp x y ≠ .eq) :
    equalTo cmp x ys = [] :=
  List.filter_eq_nil_iff.mpr fun y hy => by simpa using h y hy

/-- The last of what compares equal to an element is that element, when nothing that compares equal
comes after it. -/
theorem getLast?_equalTo_iff [ReflCmp cmp] {x : α} {xs : List α} :
    (equalTo cmp x xs).getLast? = some x ↔
      ∃ before after, xs = before ++ x :: after ∧ ∀ y ∈ after, cmp x y ≠ .eq := by
  rw [List.getLast?_eq_some_iff]
  constructor
  · rintro ⟨ys, hys⟩
    obtain ⟨before, rest, rfl, -, hrest⟩ := List.filter_eq_append_iff.mp hys
    obtain ⟨skipped, after, rfl, -, -, hafter⟩ := List.filter_eq_cons_iff.mp hrest
    refine ⟨before ++ skipped, after, (List.append_assoc ..).symm, ?_⟩
    simpa only [List.filter_eq_nil_iff, decide_eq_true_eq] using hafter
  · rintro ⟨before, after, rfl, hafter⟩
    have hself : equalTo cmp x (x :: after) = [x] := by
      rw [equalTo_cons_of_eq ReflCmp.compare_self, equalTo_eq_nil hafter]
    exact ⟨equalTo cmp x before, List.filter_append .. |>.trans (congrArg _ hself)⟩

/-- Of ascending neighbours that do not compare equal the first is less. -/
theorem Ascending.lt_of_ne {x y : α} {ys : List α} (h : Ascending cmp (x :: y :: ys))
    (hxy : cmp x y ≠ .eq) : cmp x y = .lt := by
  have hle : (cmp x y).isLE := List.rel_of_pairwise_cons h List.mem_cons_self
  exact (Ordering.isLE_iff_eq_lt_or_eq_eq.mp hle).resolve_right hxy

theorem sublist_keepLast (xs : List α) : (keepLast cmp xs).Sublist xs := by
  fun_induction keepLast cmp xs with
  | case1 x y rest _ ih => exact ih.cons x
  | case2 x y rest _ ih => exact ih.cons_cons x
  | case3 xs => exact .refl xs

variable [TransCmp cmp]

/-- What is less than the first of ascending elements is less than all of them. -/
theorem Ascending.lt {x y z : α} {ys : List α} (h : Ascending cmp (y :: ys)) (hxy : cmp x y = .lt)
    (hz : z ∈ y :: ys) : cmp x z = .lt := by
  cases hz with
  | head => exact hxy
  | tail _ hz => exact TransCmp.lt_of_lt_of_isLE hxy (List.rel_of_pairwise_cons h hz)

theorem strictlyAscending_keepLast {xs : List α} (h : Ascending cmp xs) :
    StrictlyAscending cmp (keepLast cmp xs) := by
  fun_induction keepLast cmp xs with
  | case1 x y rest _ ih => exact ih (List.Pairwise.tail h)
  | case2 x y rest hne ih =>
      have htail : Ascending cmp (y :: rest) := List.Pairwise.tail h
      apply List.Pairwise.cons _ (ih htail)
      intro z hz
      exact htail.lt (h.lt_of_ne hne) ((sublist_keepLast _).subset hz)
  | case3 xs hxs =>
      cases xs with
      | nil => exact .nil
      | cons x xs =>
          cases xs with
          | nil => exact List.pairwise_singleton ..
          | cons y rest => exact absurd rfl (hxs x y rest)

/-- An element that is less than all others is kept, and shadows none of them. -/
theorem mem_cons_iff_getLast?_equalTo {x y : α} {kept ys : List α} (hlt : ∀ z ∈ ys, cmp y z = .lt)
    (hkept : x ∈ kept ↔ (equalTo cmp x ys).getLast? = some x) :
    x ∈ y :: kept ↔ (equalTo cmp x (y :: ys)).getLast? = some x := by
  by_cases hxy : cmp x y = .eq
  · have hnone : equalTo cmp x ys = [] := by
      apply equalTo_eq_nil
      intro z hz heq
      have hxz : cmp x z = .lt := TransCmp.lt_of_eq_of_lt hxy (hlt z hz)
      rw [hxz] at heq
      cases heq
    rw [List.mem_cons, hkept, equalTo_cons_of_eq hxy, hnone]
    simp [eq_comm]
  · have hne : x ≠ y := by
      rintro rfl
      exact hxy ReflCmp.compare_self
    rw [List.mem_cons, hkept, equalTo_cons_of_ne hxy, or_iff_right hne]

/-- Of ascending elements the last of those that compare equal stays. -/
theorem mem_keepLast {xs : List α} (h : Ascending cmp xs) (x : α) :
    x ∈ keepLast cmp xs ↔ (equalTo cmp x xs).getLast? = some x := by
  fun_induction keepLast cmp xs with
  | case1 y z rest heq ih =>
      rw [ih (List.Pairwise.tail h)]
      by_cases hxy : cmp x y = .eq
      · -- The neighbour compares equal as well, so the first one is not the last of them.
        have hxz : cmp x z = .eq := TransCmp.eq_trans hxy heq
        rw [equalTo_cons_of_eq hxy, equalTo_cons_of_eq hxz, List.getLast?_cons_cons]
      · rw [equalTo_cons_of_ne hxy]
  | case2 y z rest hne ih =>
      have htail : Ascending cmp (z :: rest) := List.Pairwise.tail h
      exact mem_cons_iff_getLast?_equalTo (fun a ha => htail.lt (h.lt_of_ne hne) ha) (ih htail)
  | case3 xs hxs =>
      cases xs with
      | nil => exact iff_of_false List.not_mem_nil nofun
      | cons y xs =>
          cases xs with
          | nil => exact mem_cons_iff_getLast?_equalTo (by simp) (by simp [equalTo])
          | cons z rest => exact absurd rfl (hxs y z rest)

theorem isLE_total (x y : α) : ((cmp x y).isLE || (cmp y x).isLE) = true := by
  rw [Bool.or_eq_true]
  by_cases hxy : (cmp x y).isLE
  · exact .inl hxy
  · exact .inr (Ordering.isLE_of_eq_lt (OrientedCmp.lt_of_not_isLE hxy))

/-- Sorting is stable: it keeps the order of elements that compare equal. -/
theorem equalTo_mergeSort (x : α) (xs : List α) :
    equalTo cmp x (xs.mergeSort fun y z => (cmp y z).isLE) = equalTo cmp x xs := by
  let le : α → α → Bool := fun y z => (cmp y z).isLE
  have hclass : (equalTo cmp x xs).Pairwise fun y z => le y z := by
    apply List.pairwise_of_forall_mem_list
    intro y hy z hz
    have hxy : cmp x y = .eq := of_decide_eq_true (List.mem_filter.mp hy).2
    have hxz : cmp x z = .eq := of_decide_eq_true (List.mem_filter.mp hz).2
    exact Ordering.isLE_of_eq_eq (TransCmp.eq_trans (OrientedCmp.eq_symm hxy) hxz)
  -- A sublist that is in order already is still there after sorting.
  have hsub : (equalTo cmp x xs).Sublist (xs.mergeSort le) :=
    List.sublist_mergeSort (fun _ _ _ => TransCmp.isLE_trans) isLE_total hclass List.filter_sublist
  have hsame : equalTo cmp x (equalTo cmp x xs) = equalTo cmp x xs := by
    simp only [equalTo, List.filter_filter, Bool.and_self]
  have hfilter : (equalTo cmp x xs).Sublist (equalTo cmp x (xs.mergeSort le)) :=
    hsame ▸ hsub.filter fun y => cmp x y = .eq
  have hperm : (equalTo cmp x (xs.mergeSort le)).Perm (equalTo cmp x xs) :=
    (List.mergeSort_perm xs le).filter _
  exact (hfilter.eq_of_length hperm.length_eq.symm).symm

theorem ascending_mergeSort (xs : List α) :
    Ascending cmp (xs.mergeSort fun x y => (cmp x y).isLE) :=
  List.pairwise_mergeSort (fun _ _ _ => TransCmp.isLE_trans) isLE_total xs

theorem strictlyAscending_sortDistinct (xs : List α) :
    StrictlyAscending cmp (sortDistinct cmp xs) :=
  strictlyAscending_keepLast (ascending_mergeSort xs)

/-- Of the elements that compare equal the one inserted last is presented. -/
theorem mem_sortDistinct {x : α} {xs : List α} :
    x ∈ sortDistinct cmp xs ↔ (equalTo cmp x xs).getLast? = some x := by
  rw [sortDistinct, mem_keepLast (ascending_mergeSort xs), equalTo_mergeSort]

/-- Strictly ascending lists with the same elements are one list. -/
theorem StrictlyAscending.eq_of_mem_iff {xs ys : List α} (hxs : StrictlyAscending cmp xs)
    (hys : StrictlyAscending cmp ys) (h : ∀ x, x ∈ xs ↔ x ∈ ys) : xs = ys := by
  have hirrefl : Std.Irrefl fun x y : α => cmp x y = .lt :=
    ⟨fun x hx => OrientedCmp.not_lt_of_lt hx hx⟩
  have hantisymm : Std.Antisymm fun x y : α => cmp x y = .lt :=
    ⟨fun x y hxy hyx => absurd hyx (OrientedCmp.not_lt_of_lt hxy)⟩
  exact List.Pairwise.eq_of_mem_iff hxs hys h

end Sorting

/-! ## Sets and maps -/

section Presented

variable {α κ : Type} (cmp : κ → κ → Ordering) [LawfulOrder cmp]

/-- A set presents what was inserted. -/
theorem mem_sortDistinct_iff_mem {x : κ} {inserted : List κ} :
    x ∈ sortDistinct cmp inserted ↔ x ∈ inserted := by
  rw [mem_sortDistinct]
  constructor
  · intro hlast
    exact (List.mem_filter.mp (List.mem_of_getLast? hlast)).1
  · intro hx
    have hmem : x ∈ equalTo cmp x inserted :=
      List.mem_filter.mpr ⟨hx, decide_eq_true ReflCmp.compare_self⟩
    obtain ⟨last, hlast⟩ : ∃ last, (equalTo cmp x inserted).getLast? = some last :=
      ⟨_, List.getLast?_eq_some_getLast (List.ne_nil_of_mem hmem)⟩
    have heq : cmp x last = .eq :=
      of_decide_eq_true (List.mem_filter.mp (List.mem_of_getLast? hlast)).2
    rw [hlast, LawfulEqCmp.eq_of_compare heq]

/-- However a set was filled, it presents the one strictly ascending list of its elements. -/
theorem sortDistinct_eq_of_mem_iff {inserted sorted : List κ}
    (hsorted : StrictlyAscending cmp sorted) (h : ∀ x, x ∈ sorted ↔ x ∈ inserted) :
    sortDistinct cmp inserted = sorted := by
  apply (strictlyAscending_sortDistinct inserted).eq_of_mem_iff hsorted
  intro x
  rw [mem_sortDistinct_iff_mem, h]

/-- A map presents the entries that no later insertion replaced. -/
theorem mem_sortDistinct_iff_last (key : α → κ) {e : α} {inserted : List α} :
    e ∈ sortDistinct (fun x y => cmp (key x) (key y)) inserted ↔
      ∃ before after, inserted = before ++ e :: after ∧ ∀ later ∈ after, key e ≠ key later := by
  have htrans : TransCmp fun x y => cmp (key x) (key y) :=
    inferInstanceAs (TransCmp (Ordering.byKey key cmp))
  rw [mem_sortDistinct, getLast?_equalTo_iff]
  simp only [ne_eq, LawfulEqCmp.compare_eq_iff_eq]

/-- However a map was filled, it presents the one list of these entries that is strictly ascending
in the keys. -/
theorem sortDistinct_eq_of_last (key : α → κ) {inserted sorted : List α}
    (hsorted : StrictlyAscending (fun x y => cmp (key x) (key y)) sorted)
    (h : ∀ e, e ∈ sorted ↔
      ∃ before after, inserted = before ++ e :: after ∧ ∀ later ∈ after, key e ≠ key later) :
    sortDistinct (fun x y => cmp (key x) (key y)) inserted = sorted := by
  have htrans : TransCmp fun x y => cmp (key x) (key y) :=
    inferInstanceAs (TransCmp (Ordering.byKey key cmp))
  apply (strictlyAscending_sortDistinct inserted).eq_of_mem_iff hsorted
  intro e
  rw [mem_sortDistinct_iff_last, h]

end Presented

end ValueHashing
