import Mathlib.Data.List.Count
import Mathlib.Order.Lattice
import Mathlib.Tactic.Common

/-!
# Order Statistics

The `k`-th smallest entry of a list, counted from one and with multiplicity:
the entry at that place when the list is sorted. It is the entry that fewer
than `k` entries are below and at least `k` are not above, which is how an
algorithm finds it that counts and does not sort.

## Main definitions

* `kthSmallest`: The entry at a place of the sorted list.

## Theorems

* `sorted_getElem_iff`: An entry of a sorted list, by counting.
* `kthSmallest_iff`: The `k`-th smallest entry, by counting.
-/

namespace Wrk

namespace OrderStatistic

variable {α : Type*} [LinearOrder α]

/-- The `k`-th smallest entry. -/
def kthSmallest (xs : List α) (k : Nat) : Option α := (xs.mergeSort (fun a b => a ≤ b))[k - 1]?

/-- Below the first entry of a sorted list there is nothing. -/
theorem countP_lt_head (a : α) (l : List α) (h : ∀ b ∈ l, a ≤ b) : l.countP (· < a) = 0 := by
  rw [List.countP_eq_zero]
  intro b hb
  rw [decide_eq_true_eq, not_lt]
  exact h b hb

/-- The entry at a place of a sorted list has at most so many entries below
    it, and more that are not above it. -/
theorem sorted_getElem_iff (l : List α) (hl : l.Pairwise (· ≤ ·)) (i : Nat) (v : α) :
    l[i]? = some v ↔ v ∈ l ∧ l.countP (· < v) ≤ i ∧ i < l.countP (· ≤ v) := by
  induction l generalizing i with
  | nil => simp only [List.getElem?_nil, reduceCtorEq, List.not_mem_nil, false_and]
  | cons a l ih =>
      rcases List.pairwise_cons.mp hl with ⟨ha, hl'⟩
      have hlow := countP_lt_head a l ha
      rw [List.countP_cons, List.countP_cons]
      cases i with
      | zero =>
          rw [List.getElem?_cons_zero, Option.some.injEq]
          constructor
          · rintro rfl
            refine ⟨List.mem_cons_self, ?_, ?_⟩
            · simp only [hlow, lt_irrefl, decide_false, Bool.false_eq_true, if_false, Nat.add_zero,
                Nat.le_refl]
            · rw [if_pos (by simp only [le_refl, decide_true])]
              exact Nat.succ_pos _
          · rintro ⟨hmem, hlt, _⟩
            -- A greater entry has the first one below it.
            by_contra hne
            have hav : a < v := by
              rcases List.mem_cons.mp hmem with h | h
              · exact absurd h.symm hne
              · exact lt_of_le_of_ne (ha v h) hne
            rw [if_pos (decide_eq_true hav)] at hlt
            omega
      | succ i =>
          rw [List.getElem?_cons_succ, ih hl']
          by_cases hav : a < v
          · -- The first entry counts on both sides.
            have hmem : v ∈ a :: l ↔ v ∈ l := by
              rw [List.mem_cons]
              exact or_iff_right (ne_of_gt hav)
            rw [hmem, if_pos (decide_eq_true hav), if_pos (decide_eq_true hav.le)]
            refine and_congr_right fun _ => ?_
            omega
          · constructor
            · rintro ⟨hmem, _, hle⟩
              -- An equal entry: what is not above it is counted once more.
              have heq : a = v := le_antisymm (ha v hmem) (not_lt.mp hav)
              rw [if_neg (by rw [decide_eq_true_eq]; exact hav),
                if_pos (decide_eq_true heq.le), ← heq, hlow]
              rw [← heq] at hle
              exact ⟨List.mem_cons_self, Nat.zero_le _, by omega⟩
            · rintro ⟨hmem, _, hle⟩
              have hva : v ≤ a := not_lt.mp hav
              have hin : v ∈ l := by
                by_contra hout
                -- Then no entry of the rest is at most `v`.
                have hzero : l.countP (· ≤ v) = 0 := by
                  rw [List.countP_eq_zero]
                  intro b hb
                  rw [decide_eq_true_eq]
                  intro hbv
                  have hvb : v ≤ b := le_trans hva (ha b hb)
                  exact hout (le_antisymm hvb hbv ▸ hb)
                rw [hzero] at hle
                split_ifs at hle <;> omega
              have heq : a = v := le_antisymm (ha v hin) hva
              rw [if_pos (decide_eq_true heq.le)] at hle
              rw [← heq, hlow]
              rw [← heq] at hin hle
              exact ⟨hin, Nat.zero_le _, by omega⟩

/-- The `k`-th smallest entry is the one that fewer than `k` entries are below
    and at least `k` are not above. -/
theorem kthSmallest_iff (xs : List α) (k : Nat) (v : α) (hk : 0 < k) :
    kthSmallest xs k = some v ↔
      v ∈ xs ∧ xs.countP (· < v) < k ∧ k ≤ xs.countP (· ≤ v) := by
  have hsorted : (xs.mergeSort (fun a b => a ≤ b)).Pairwise (· ≤ ·) := by
    have h := @List.pairwise_mergeSort α (fun a b => decide (a ≤ b))
      (fun a b c hab hbc => by
        rw [decide_eq_true_eq] at *
        exact le_trans hab hbc)
      (fun a b => by
        rw [Bool.or_eq_true, decide_eq_true_eq, decide_eq_true_eq]
        exact le_total a b) xs
    exact h.imp of_decide_eq_true
  -- Counting does not depend on the order.
  have hperm := List.mergeSort_perm xs (fun a b => a ≤ b)
  rw [kthSmallest, sorted_getElem_iff _ hsorted, hperm.mem_iff, hperm.countP_eq,
    hperm.countP_eq]
  refine and_congr_right fun _ => ?_
  omega

end OrderStatistic

end Wrk
