import Wrk.Core.Samples
import Wrk.Stats.Basic
import Mathlib.Tactic.Linarith
import Mathlib.Tactic.Positivity

/-!
# Scanning a Histogram

What the range from `min` to `max` holds when a histogram is the one a list
of samples should produce. Every sample is in the range, so a sum over the
range weighted by the counters is a sum over the samples, and the mean is the
mean of the samples as long as the 64-bit sums do not wrap.

## Main definitions

* `Stats.Fits`: Every counter holds a 64-bit value.
* `SumsFit`: The wrapped sums of a list of samples still have their mean
  between the least and the greatest sample.

## Theorems

* `mem_cells_of_mem`: Every sample is in the scanned range.
* `sum_cells`: Summing over the range is summing over the samples.
* `ofSamples_total`: The number of samples is the total of the range.
* `ofSamples_mean`: The mean in terms of the samples.
* `ofSamples_mean_between`: When the mean is within the bounds.
* `sumsFit_of_lt`: Sums that do not wrap are enough.
-/

namespace Wrk

/-- The counters and the total hold 64-bit values. -/
def Stats.Fits (s : Stats) : Prop := (∀ v, s.data v < 2 ^ 64) ∧ s.count < 2 ^ 64

theorem mem_cells (s : Stats) (i : Nat) : i ∈ s.cells ↔ s.min ≤ i ∧ i ≤ s.max := by
  rw [Stats.cells, List.mem_range'_1]
  omega

theorem cells_nodup (s : Stats) : s.cells.Nodup := List.nodup_range'

theorem ofSamples_fits (M : Nat) (ys : List Nat) : (ofSamples M ys).Fits :=
  ⟨fun _ => wrap64_lt _, wrap64_lt _⟩

/-- Every sample lies between the recorded bounds. -/
theorem mem_cells_of_mem (M : Nat) (ys : List Nat) (y : Nat) (h : y ∈ ys) :
    y ∈ (ofSamples M ys).cells :=
  (mem_cells _ y).mpr
    ⟨Samples.foldl_min_le ys uint64Max y h, Samples.le_foldl_max ys 0 y h⟩

theorem mem_of_data_ne_zero (M : Nat) (ys : List Nat) (i : Nat)
    (h : (ofSamples M ys).data i ≠ 0) : i ∈ ys := by
  by_contra hc
  refine h ?_
  simp only [ofSamples, List.count_eq_zero_of_not_mem hc, wrap64_zero]

/-- A sum over the scanned range, weighted by how often each value occurs, is
    a sum over the samples. -/
theorem sum_cells (M : Nat) (ys : List Nat) (f : Nat → Nat) :
    ((ofSamples M ys).cells.map (fun v => ys.count v * f v)).sum = (ys.map f).sum := by
  rw [← List.sum_toFinset _ (cells_nodup _)]
  exact Samples.sum_count_mul _ ys f
    (fun y hy _ => List.mem_toFinset.mpr (mem_cells_of_mem M ys y hy))

theorem ofSamples_total (M : Nat) (ys : List Nat) :
    (ofSamples M ys).count = wrap64 ((ofSamples M ys).cells.map (ofSamples M ys).data).sum := by
  have hdata : (ofSamples M ys).data = fun v => wrap64 (ys.count v) := rfl
  have hsum := sum_cells M ys (fun _ => 1)
  simp only [Nat.mul_one, List.map_const', List.sum_replicate, nsmul_eq_mul, Nat.cast_id,
    Nat.mul_one] at hsum
  rw [hdata, wrap64_sum_wrap64, hsum]
  rfl

/-- The accumulator of a wrapped sum. -/
theorem foldl_wrap64 (l : List Nat) (f : Nat → Nat) (a : Nat) :
    wrap64 (l.foldl (fun sum i => wrap64 (sum + wrap64 (f i))) a) = wrap64 (a + (l.map f).sum) := by
  induction l generalizing a with
  | nil => rw [List.map_nil, List.sum_nil, Nat.add_zero, List.foldl_nil]
  | cons i l ih =>
      rw [List.foldl_cons, ih, List.map_cons, List.sum_cons, wrap64_wrap64_add, Nat.add_right_comm,
        wrap64_add_wrap64]
      congr 1
      omega

theorem foldl_wrap64_lt (l : List Nat) (f : Nat → Nat) (a : Nat) (ha : a < 2 ^ 64) :
    l.foldl (fun sum i => wrap64 (sum + wrap64 (f i))) a < 2 ^ 64 := by
  induction l generalizing a with
  | nil => exact ha
  | cons i l ih => exact ih _ (wrap64_lt _)

/-- The mean is the wrapped sum of the samples over their wrapped number. -/
theorem ofSamples_mean (M : Nat) (ys : List Nat) :
    statsMean (ofSamples M ys)
      = if wrap64 ys.length = 0 then 0 else (wrap64 ys.sum : Rat) / wrap64 ys.length := by
  have hsum : (ofSamples M ys).cells.foldl
      (fun sum i => wrap64 (sum + wrap64 ((ofSamples M ys).data i * i))) 0 = wrap64 ys.sum := by
    have hdata : ∀ i, wrap64 ((ofSamples M ys).data i * i) = wrap64 (ys.count i * i) :=
      fun i => wrap64_wrap64_mul _ i
    -- The counters have wrapped, and their products wrap again.
    simp only [hdata]
    have hlt := foldl_wrap64_lt (ofSamples M ys).cells (fun i => ys.count i * i) 0 (by decide)
    have heq := foldl_wrap64 (ofSamples M ys).cells (fun i => ys.count i * i) 0
    rw [wrap64_of_lt _ hlt, Nat.zero_add, sum_cells M ys (fun i => i), List.map_id'] at heq
    exact heq
  rw [statsMean, hsum]
  rfl

/-- The 64-bit sums of a list of samples give a mean between the least and
    the greatest of them. When the number of samples wraps to zero, the mean
    is reported as zero. -/
def SumsFit (ys : List Nat) : Prop :=
  if wrap64 ys.length = 0 then 0 ∈ ys
  else ys.foldl min uint64Max * wrap64 ys.length ≤ wrap64 ys.sum ∧
    wrap64 ys.sum ≤ ys.foldl max 0 * wrap64 ys.length

theorem ofSamples_mean_between (M : Nat) (ys : List Nat) :
    ((ofSamples M ys).min ≤ statsMean (ofSamples M ys) ∧
      statsMean (ofSamples M ys) ≤ (ofSamples M ys).max) ↔ SumsFit ys := by
  have hmin : (ofSamples M ys).min = ys.foldl min uint64Max := rfl
  have hmax : (ofSamples M ys).max = ys.foldl max 0 := rfl
  rw [ofSamples_mean, SumsFit, hmin, hmax]
  by_cases hn : wrap64 ys.length = 0
  · rw [if_pos hn, if_pos hn]
    constructor
    · rintro ⟨h, _⟩
      have h0 : ys.foldl min uint64Max = 0 := by
        have : ys.foldl min uint64Max ≤ 0 := by exact_mod_cast h
        omega
      -- A minimum of zero is a sample, since the field starts elsewhere.
      rcases Samples.foldl_min_mem ys uint64Max with hm | hm
      · rw [h0] at hm
        exact absurd hm (by decide)
      · rwa [h0] at hm
    · intro h
      have h0 : ys.foldl min uint64Max ≤ 0 := Samples.foldl_min_le ys uint64Max 0 h
      exact ⟨by exact_mod_cast h0, by positivity⟩
  · have hpos : (0 : Rat) < wrap64 ys.length := by exact_mod_cast Nat.pos_of_ne_zero hn
    rw [if_neg hn, if_neg hn, le_div_iff₀ hpos, div_le_iff₀ hpos]
    exact ⟨fun h => ⟨by exact_mod_cast h.1, by exact_mod_cast h.2⟩,
      fun h => ⟨by exact_mod_cast h.1, by exact_mod_cast h.2⟩⟩

theorem sum_bounds (ys : List Nat) (a b : Nat) (h : ∀ y ∈ ys, a ≤ y ∧ y ≤ b) :
    a * ys.length ≤ ys.sum ∧ ys.sum ≤ b * ys.length := by
  induction ys with
  | nil => exact ⟨le_refl 0, le_refl 0⟩
  | cons y ys ih =>
      rcases ih (fun z hz => h z (List.mem_cons_of_mem y hz)) with ⟨h1, h2⟩
      rcases h y List.mem_cons_self with ⟨h3, h4⟩
      rw [List.length_cons, List.sum_cons, Nat.mul_succ, Nat.mul_succ]
      omega

/-- Samples whose sums do not wrap have their mean within their bounds. -/
theorem sumsFit_of_lt (ys : List Nat) (hys : ys ≠ []) (hlen : ys.length < 2 ^ 64)
    (hsum : ys.sum < 2 ^ 64) : SumsFit ys := by
  have hpos : 0 < ys.length := List.length_pos_iff.mpr hys
  rw [SumsFit, wrap64_of_lt _ hlen, wrap64_of_lt _ hsum, if_neg (by omega)]
  exact sum_bounds ys _ _ (fun y hy =>
    ⟨Samples.foldl_min_le ys uint64Max y hy, Samples.le_foldl_max ys 0 y hy⟩)

end Wrk
