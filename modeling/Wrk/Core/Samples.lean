import Mathlib.Algebra.BigOperators.Group.Finset.Basic
import Mathlib.Algebra.BigOperators.Group.List.Basic
import Mathlib.Algebra.Ring.Nat
import Mathlib.Data.List.Count
import Mathlib.Order.Bounds.Basic

/-!
# Lists as Samples

Facts about a list of numbers that a histogram of it has to reproduce: its
least and greatest entry, kept by a fold, and the sum of a function over its
entries, regrouped by value.

A fold of `min` from `a` is the least of `a` and the entries, so it is a
lower bound, and it is attained. The two facts determine it, which is how a
minimum kept by some other means is identified with the fold.

## Theorems

* `foldl_min_le`: The fold is a lower bound.
* `foldl_min_mem`: The fold is the start or an entry.
* `le_foldl_max`: The fold is an upper bound.
* `foldl_max_mem`: The fold is the start or an entry.
* `sum_count_mul`: A sum over a list, regrouped by value.
* `sum_count_eq_countP`: Counting the entries below a bound value by value.
-/

namespace Wrk

namespace Samples

theorem foldl_min_le_start (xs : List Nat) (a : Nat) : xs.foldl min a ≤ a := by
  induction xs generalizing a with
  | nil => exact le_refl a
  | cons x xs ih => exact le_trans (ih (min a x)) (min_le_left a x)

theorem foldl_min_le (xs : List Nat) (a x : Nat) (h : x ∈ xs) : xs.foldl min a ≤ x := by
  induction xs generalizing a with
  | nil => exact absurd h List.not_mem_nil
  | cons y ys ih =>
      rcases List.mem_cons.mp h with rfl | hx
      · exact le_trans (foldl_min_le_start ys (min a x)) (min_le_right a x)
      · exact ih (min a y) hx

theorem foldl_min_mem (xs : List Nat) (a : Nat) :
    xs.foldl min a = a ∨ xs.foldl min a ∈ xs := by
  induction xs generalizing a with
  | nil => exact Or.inl rfl
  | cons x xs ih =>
      rw [List.foldl_cons]
      rcases ih (min a x) with h | h
      · rw [h]
        by_cases hax : a ≤ x
        · exact Or.inl (Nat.min_eq_left hax)
        · exact Or.inr (by rw [Nat.min_eq_right (by omega)]; exact List.mem_cons_self)
      · exact Or.inr (List.mem_cons_of_mem x h)

theorem start_le_foldl_max (xs : List Nat) (a : Nat) : a ≤ xs.foldl max a := by
  induction xs generalizing a with
  | nil => exact le_refl a
  | cons x xs ih => exact le_trans (le_max_left a x) (ih (max a x))

theorem le_foldl_max (xs : List Nat) (a x : Nat) (h : x ∈ xs) : x ≤ xs.foldl max a := by
  induction xs generalizing a with
  | nil => exact absurd h List.not_mem_nil
  | cons y ys ih =>
      rcases List.mem_cons.mp h with rfl | hx
      · exact le_trans (le_max_right a x) (start_le_foldl_max ys (max a x))
      · exact ih (max a y) hx

theorem foldl_max_mem (xs : List Nat) (a : Nat) :
    xs.foldl max a = a ∨ xs.foldl max a ∈ xs := by
  induction xs generalizing a with
  | nil => exact Or.inl rfl
  | cons x xs ih =>
      rw [List.foldl_cons]
      rcases ih (max a x) with h | h
      · rw [h]
        by_cases hax : x ≤ a
        · exact Or.inl (Nat.max_eq_left hax)
        · exact Or.inr (by rw [Nat.max_eq_right (by omega)]; exact List.mem_cons_self)
      · exact Or.inr (List.mem_cons_of_mem x h)

/-- A minimum kept by other means, once it is a lower bound and is attained,
    is the fold. -/
theorem eq_foldl_min (xs : List Nat) (a m : Nat) (hle : ∀ x ∈ xs, m ≤ x) (hstart : m ≤ a)
    (hmem : m = a ∨ m ∈ xs) : m = xs.foldl min a := by
  refine le_antisymm ?_ ?_
  · rcases foldl_min_mem xs a with h | h
    · rw [h]
      exact hstart
    · exact hle _ h
  · rcases hmem with h | h
    · rw [h]
      exact foldl_min_le_start xs a
    · exact foldl_min_le xs a m h

theorem eq_foldl_max (xs : List Nat) (a m : Nat) (hle : ∀ x ∈ xs, x ≤ m) (hstart : a ≤ m)
    (hmem : m = a ∨ m ∈ xs) : m = xs.foldl max a := by
  refine le_antisymm ?_ ?_
  · rcases hmem with h | h
    · rw [h]
      exact start_le_foldl_max xs a
    · exact le_foldl_max xs a m h
  · rcases foldl_max_mem xs a with h | h
    · rw [h]
      exact hstart
    · exact hle _ h

/-- A sum over the entries of a list is the sum over any set of values that
    has all those contributing, each weighted by how often it occurs. -/
theorem sum_count_mul (S : Finset Nat) (xs : List Nat) (f : Nat → Nat)
    (hall : ∀ x ∈ xs, f x ≠ 0 → x ∈ S) :
    ∑ v ∈ S, xs.count v * f v = (xs.map f).sum := by
  rw [Finset.sum_list_map_count xs f]
  -- Values outside the list occur zero times, values outside `S` contribute zero.
  have hl : ∑ v ∈ xs.toFinset, xs.count v • f v = ∑ v ∈ xs.toFinset ∪ S, xs.count v * f v := by
    refine Finset.sum_subset Finset.subset_union_left (fun v _ hv => ?_)
    rw [List.count_eq_zero_of_not_mem (fun h => hv (List.mem_toFinset.mpr h)), zero_nsmul]
  have hr : ∑ v ∈ S, xs.count v * f v = ∑ v ∈ xs.toFinset ∪ S, xs.count v * f v := by
    refine Finset.sum_subset Finset.subset_union_right (fun v hv hS => ?_)
    by_cases hf : f v = 0
    · rw [hf, Nat.mul_zero]
    · rcases Finset.mem_union.mp hv with hx | hx
      · exact absurd (hall v (List.mem_toFinset.mp hx) hf) hS
      · exact absurd hx hS
  rw [hl, hr]

/-- Counting, value by value, the entries below a bound. -/
theorem sum_count_eq_countP (n : Nat) (xs : List Nat) :
    ∑ v ∈ Finset.range n, xs.count v = xs.countP (· < n) := by
  induction xs with
  | nil => simp only [List.count_nil, Finset.sum_const_zero, List.countP_nil]
  | cons x xs ih =>
      simp only [List.count_cons, Finset.sum_add_distrib, ih, List.countP_cons]
      congr 1
      by_cases hx : x < n
      · rw [if_pos (by simp only [hx, decide_true])]
        rw [Finset.sum_eq_single x (fun v _ hv => if_neg (by simp only [beq_iff_eq, Ne.symm hv,
          not_false_eq_true])) (fun hn => absurd (Finset.mem_range.mpr hx) hn)]
        rw [if_pos (beq_self_eq_true x)]
      · rw [if_neg (by simp only [hx, decide_false, Bool.false_eq_true, not_false_eq_true])]
        refine Finset.sum_eq_zero (fun v hv => if_neg ?_)
        have := Finset.mem_range.mp hv
        simp only [beq_iff_eq]
        omega

end Samples

end Wrk
