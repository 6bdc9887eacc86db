import Mathlib.Data.List.Forall2
import ValueHashing.Bytes

/-!
# Taking encodings off a string

When the encoding of an element can be taken off the front of a string, then so can those of
several elements in a row, as long as it is known how many there are. The same holds at the end
of a string. What has to be known of two elements beforehand (`A`) and what is learned about them
(`R`) are any relations.
-/

namespace ValueHashing

variable {α : Type} {e : α → Bytes} {A R : α → α → Prop} {xs ys : List α} {p q : Bytes}

theorem map_eq_of_forall₂ {β : Type} {f : α → β} (hxy : List.Forall₂ R xs ys)
    (h : ∀ x y, R x y → f x = f y) : xs.map f = ys.map f := by
  rw [← List.forall₂_eq_eq_eq, List.forall₂_map_left_iff, List.forall₂_map_right_iff]
  exact hxy.imp h

/-- Take elements off the front, the first one first. -/
theorem forall₂_of_flatMap_append_eq (hxy : List.Forall₂ A xs ys)
    (h : ∀ x ∈ xs, ∀ y ∈ ys, A x y → ∀ p q, e x ++ p = e y ++ q → R x y ∧ p = q)
    (heq : xs.flatMap e ++ p = ys.flatMap e ++ q) : List.Forall₂ R xs ys ∧ p = q := by
  induction hxy with
  | nil => exact ⟨List.Forall₂.nil, heq⟩
  | @cons x y xs ys hA hrest ih =>
      rw [List.flatMap_cons, List.flatMap_cons, List.append_assoc, List.append_assoc] at heq
      obtain ⟨hfirst, htail⟩ := h x List.mem_cons_self y List.mem_cons_self hA _ _ heq
      obtain ⟨hothers, hpq⟩ := ih
        (fun x hx y hy => h x (List.mem_cons_of_mem _ hx) y (List.mem_cons_of_mem _ hy)) htail
      exact ⟨List.Forall₂.cons hfirst hothers, hpq⟩

end ValueHashing
