import Wrk.Core.OrderStatistic
import Wrk.Stats.Percentile

/-!
# Percentiles as Order Statistics

A percentile is a recorded value at a place: the scan adds up the counters
from the least value on, so it stops at the first value that enough of the
recorded ones are not above. What was recorded is the values that were below
the limit.

The counters hold 64 bits. A value that is recorded `2 ^ 64` times is counted
zero times.

## Main definitions

* `accepted`: The values that are recorded.

## Theorems

* `recordAll_accepted`: The histogram is that of the accepted values.
* `percentileScan_counts`: The scan adds up how many values are not above.
* `statsPercentile_kthSmallest`: A percentile is an order statistic.
* `statsPercentile_wraps`: One of a value whose counter has wrapped.
-/

namespace Wrk

open OrderStatistic

/-- The values that a histogram records. -/
def accepted (M : Nat) (xs : List Nat) : List Nat := xs.filter (· < wrap64 (M + 1))

theorem recordAll_filter (s : Stats) (xs : List Nat) :
    recordAll s xs = recordAll s (xs.filter (· < s.limit)) := by
  induction xs generalizing s with
  | nil => rfl
  | cons x xs ih =>
      have hcons : recordAll s (x :: xs) = recordAll (statsRecord s x).1 xs := rfl
      rw [hcons, ih, statsRecord_limit]
      by_cases hx : x < s.limit
      · have hkeep : (x :: xs).filter (· < s.limit) = x :: xs.filter (· < s.limit) :=
          List.filter_cons_of_pos (decide_eq_true hx)
        rw [hkeep]
        rfl
      · have hdrop : (x :: xs).filter (· < s.limit) = xs.filter (· < s.limit) :=
          List.filter_cons_of_neg (by rw [decide_eq_true_eq]; exact hx)
        rw [hdrop, statsRecord_rejected s x (Nat.le_of_not_lt hx)]

/-- What is recorded is the histogram of the accepted values. -/
theorem recordAll_accepted (M : Nat) (xs : List Nat) :
    recordAll (statsAlloc M) xs = ofSamples M (accepted M xs) := by
  rw [recordAll_filter]
  exact recordAll_alloc M _ fun x hx => of_decide_eq_true (List.mem_filter.mp hx).2

/-! ### The scan -/

theorem countP_le_eq (ys : List Nat) (i : Nat) : ys.countP (· < i + 1) = ys.countP (· ≤ i) := by
  refine List.countP_congr fun y _ => ?_
  rw [decide_eq_true_eq, decide_eq_true_eq]
  omega

theorem countP_lt_add_count (ys : List Nat) (i : Nat) :
    ys.countP (· < i) + ys.count i = ys.countP (· ≤ i) := by
  rw [← countP_le_eq, ← Samples.sum_count_eq_countP, ← Samples.sum_count_eq_countP,
    Finset.sum_range_succ]

/-- The scan from a value on, with the number of values below it: it stops at
    the first value that enough are not above. -/
theorem percentileScan_counts (M k a n : Nat) (ys : List Nat) (hlen : ys.length < 2 ^ 64)
    (hlo : ys.countP (· < a) < k) (hhi : k ≤ ys.countP (· < a + n)) :
    kthSmallest ys k =
      some (percentileScan (ofSamples M ys) k (ys.countP (· < a)) (List.range' a n)) := by
  induction n generalizing a with
  | zero =>
      rw [Nat.add_zero] at hhi
      omega
  | succ n ih =>
      have hdata : (ofSamples M ys).data a = ys.count a :=
        wrap64_of_lt _ (Nat.lt_of_le_of_lt List.count_le_length hlen)
      -- The running total does not wrap, since it never passes the number of values.
      have htotal : wrap64 (ys.countP (· < a) + (ofSamples M ys).data a) =
          ys.countP (· ≤ a) := by
        rw [hdata, countP_lt_add_count]
        exact wrap64_of_lt _ (Nat.lt_of_le_of_lt List.countP_le_length hlen)
      rw [List.range'_succ, percentileScan, htotal]
      by_cases hk : k ≤ ys.countP (· ≤ a)
      · rw [if_pos hk, kthSmallest_iff _ _ _ (by omega)]
        refine ⟨?_, hlo, hk⟩
        -- The counter changed the total.
        have hsum := countP_lt_add_count ys a
        exact List.count_pos_iff.mp (by omega)
      · -- Too few are not above this value, so the scan goes on with the next.
        rw [if_neg hk, ← countP_le_eq]
        refine ih (a + 1) ?_ ?_
        · rw [countP_le_eq]
          omega
        · rw [show a + 1 + n = a + (n + 1) by omega]
          exact hhi

/-- With at least one value recorded, and fewer than the counters can count, a
    percentile below one hundred is the order statistic it asks for. -/
theorem statsPercentile_kthSmallest (M : Nat) (xs : List Nat) (p : Rat) (hp : 0 ≤ p)
    (hp' : p < 100) (hcount : 1 ≤ (recordAll (statsAlloc M) xs).count)
    (hlen : (accepted M xs).length < 2 ^ 64) :
    kthSmallest (accepted M xs) (⌊p * (recordAll (statsAlloc M) xs).count / 100⌋.toNat + 1) =
      some (statsPercentile (recordAll (statsAlloc M) xs) p) := by
  rw [recordAll_accepted] at hcount ⊢
  generalize accepted M xs = ys at *
  have hnum : (ofSamples M ys).count = ys.length := wrap64_of_lt _ hlen
  have hshare : p * (ofSamples M ys).count / 100 = p / 100 * (ofSamples M ys).count := by ring
  have hrank := percentileRank_eq (ofSamples M ys) p hp
  rw [hshare, ← hrank]
  -- No value is below the minimum, where the scan starts.
  have hstart : ys.countP (· < (ofSamples M ys).min) = 0 := by
    rw [List.countP_eq_zero]
    intro y hy
    rw [decide_eq_true_eq]
    exact Nat.not_lt.mpr (Samples.foldl_min_le ys uint64Max y hy)
  have hpos := percentileRank_pos (ofSamples M ys) p hp
  have hscan := percentileScan_counts M (percentileRank (ofSamples M ys) p) (ofSamples M ys).min
    ((ofSamples M ys).max + 1 - (ofSamples M ys).min) ys hlen (by omega) ?_
  · rw [hstart] at hscan
    exact hscan
  · -- Every value is scanned, and the rank is at most their number.
    have hall : ys.countP (· < (ofSamples M ys).min +
        ((ofSamples M ys).max + 1 - (ofSamples M ys).min)) = ys.length := by
      rw [List.countP_eq_length]
      intro y hy
      rw [decide_eq_true_eq]
      have hmem := (mem_cells _ y).mp (mem_cells_of_mem M ys y hy)
      omega
    rw [hall, percentileRank_le_iff _ p hp, hnum]
    have hne : (0 : Rat) < ys.length := by
      rw [hnum] at hcount
      exact_mod_cast hcount
    exact mul_lt_mul_of_pos_right hp' hne

/-- The median of two and ten. -/
theorem statsPercentile_kthSmallest_two :
    kthSmallest (accepted 20 [2, 10])
        (⌊(50 : Rat) * (recordAll (statsAlloc 20) [2, 10]).count / 100⌋.toNat + 1) =
      some (statsPercentile (recordAll (statsAlloc 20) [2, 10]) 50) :=
  statsPercentile_kthSmallest 20 [2, 10] 50 (by norm_num) (by norm_num) (by decide) (by decide)

/-! ### Counters that wrap -/

/-- A value recorded until its counter is zero again, and a greater one. -/
def wrapped (n : Nat) : List Nat := List.replicate n 1 ++ [5]

theorem wrapped_count (n i : Nat) :
    (wrapped n).count i = (if i = 1 then n else 0) + if i = 5 then 1 else 0 := by
  unfold wrapped
  rw [List.count_append, List.count_replicate, List.count_singleton]
  simp only [beq_iff_eq, @eq_comm _ i]

theorem wrapped_bounds (M n : Nat) (hn : 0 < n) :
    (ofSamples M (wrapped n)).min = 1 ∧ (ofSamples M (wrapped n)).max = 5 := by
  have hmem : ∀ x, x ∈ wrapped n ↔ x = 1 ∨ x = 5 := by
    intro x
    unfold wrapped
    rw [List.mem_append, List.mem_replicate, List.mem_singleton, and_iff_right (by omega)]
  constructor
  · symm
    refine Samples.eq_foldl_min _ uint64Max 1 (fun x hx => ?_) (by decide)
      (Or.inr ((hmem 1).mpr (Or.inl rfl)))
    have := (hmem x).mp hx
    omega
  · symm
    refine Samples.eq_foldl_max _ 0 5 (fun x hx => ?_) (by decide)
      (Or.inr ((hmem 5).mpr (Or.inr rfl)))
    have := (hmem x).mp hx
    omega

/-- Only the greater value is counted. -/
theorem wrapped_data (M n i : Nat) (hn : wrap64 n = 0) :
    (ofSamples M (wrapped n)).data i = if i = 5 then 1 else 0 := by
  change wrap64 ((wrapped n).count i) = _
  rw [wrapped_count]
  by_cases hi : i = 1
  · rw [hi, if_pos rfl, if_neg (by decide), Nat.add_zero, hn]
  · rw [if_neg hi, Nat.zero_add]
    split_ifs <;> rfl

theorem accepted_wrapped (n : Nat) : accepted 10 (wrapped n) = wrapped n := by
  refine List.filter_eq_self.mpr fun x hx => ?_
  unfold wrapped at hx
  rw [List.mem_append, List.mem_replicate, List.mem_singleton] at hx
  refine decide_eq_true (show x < 11 from ?_)
  omega

/-- With one value recorded `2 ^ 64` times and a greater one once, the least
    percentile is the greater. -/
theorem statsPercentile_wraps : ¬ ∀ (M : Nat) (xs : List Nat) (p : Rat), 0 ≤ p → p < 100 →
    1 ≤ (recordAll (statsAlloc M) xs).count →
      kthSmallest (accepted M xs)
          (⌊p * (recordAll (statsAlloc M) xs).count / 100⌋.toNat + 1) =
        some (statsPercentile (recordAll (statsAlloc M) xs) p) := by
  intro h
  obtain ⟨n, hn, hpos⟩ : ∃ n, wrap64 n = 0 ∧ 0 < n := ⟨2 ^ 64, by decide, by decide⟩
  have hlen : wrap64 (wrapped n).length = 1 := by
    unfold wrapped
    rw [List.length_append, List.length_replicate, List.length_singleton, ← wrap64_wrap64_add, hn]
    rfl
  have hall := accepted_wrapped n
  rcases wrapped_bounds 10 n hpos with ⟨hmin, hmax⟩
  have hcount : (ofSamples 10 (wrapped n)).count = 1 := hlen
  have hclaim := h 10 (wrapped n) 0 (le_refl 0) (by norm_num)
  rw [recordAll_accepted, hall, hcount] at hclaim
  have hcells : (ofSamples 10 (wrapped n)).cells = [1, 2, 3, 4, 5] := by
    rw [Stats.cells, hmin, hmax]
    rfl
  have hrank : percentileRank (ofSamples 10 (wrapped n)) 0 = 1 := by
    rw [percentileRank_eq _ 0 (le_refl 0), zero_div, zero_mul]
    rfl
  have hfive : statsPercentile (ofSamples 10 (wrapped n)) 0 = 5 := by
    rw [statsPercentile, hrank, hcells]
    simp only [percentileScan, wrapped_data 10 n _ hn]
    decide
  have hone : ⌊(0 : Rat) * ((1 : Nat) : Rat) / 100⌋.toNat + 1 = 1 := by
    rw [zero_mul, zero_div]
    rfl
  rw [hfive, hone, kthSmallest_iff (wrapped n) 1 5 Nat.one_pos] at hclaim
  rcases hclaim (le_refl 1) with ⟨_, hlt, _⟩
  -- All the values that the counter lost lie below the one that is returned.
  have hbelow : n ≤ (wrapped n).countP (· < 5) := by
    unfold wrapped
    rw [List.countP_append, List.countP_replicate, if_pos (by decide)]
    exact Nat.le_add_right _ _
  omega

end Wrk
