import Wrk.Core.Division
import Wrk.Stats.Summary

/-!
# The Spread of a Histogram

The three functions of `stats.c` that a line of the report is made of: the
mean, the standard deviation, and the share of the samples within it. They
divide by the number of samples, which the first two look at before and the
third does not.

Numbers are exact, over a field that the square root is a function of.

## Main definitions

* `statsMeanLogged`: The mean, with its division.
* `statsStdev`: The standard deviation.
* `statsWithinStdev`: The percentage of samples within `n` of them.

## Theorems

* `statsMeanLogged_value`: The mean is the one of the histogram.
* `statsMeanLogged_noZero`, `statsStdev_noZero`: The guarded divisions.
* `statsWithinStdev_noZero_iff`: The one that is not.
-/

namespace Wrk

open Divisions

section Spread

variable {K : Type} [Field K] [LinearOrder K] [IsStrictOrderedRing K]

/-- The sum of `stats_mean`, a 64-bit counter. -/
def Stats.meanSum (s : Stats) : Nat :=
  s.cells.foldl (fun sum i => wrap64 (sum + wrap64 (s.data i * i))) 0

/-- `stats_mean`, with its division. -/
def statsMeanLogged (s : Stats) : Divisions K K :=
  if s.count = 0 then return 0
  else divide (s.meanSum : K) (s.count : K)

/-- The sum of `stats_stdev`: squares of distances, as often as counted. -/
def Stats.squareSum (s : Stats) (mean : K) : K :=
  s.cells.foldl
    (fun sum i => if s.data i ≠ 0 then sum + ((i : K) - mean) ^ 2 * (s.data i : K) else sum) 0

/-- `stats_stdev`. -/
def statsStdev (sqrtl : K → K) (s : Stats) (mean : K) : Divisions K K :=
  if s.count < 2 then return 0
  else do
    let variance ← divide (s.squareSum mean) ((s.count - 1 : Nat) : K)
    return sqrtl variance

/-- The sum of `stats_within_stdev`, a 64-bit counter. -/
def Stats.withinSum (s : Stats) (lower upper : K) : Nat :=
  s.cells.foldl
    (fun sum (i : Nat) =>
      if lower ≤ (i : K) ∧ (i : K) ≤ upper then wrap64 (sum + s.data i) else sum) 0

/-- `stats_within_stdev`. -/
def statsWithinStdev (s : Stats) (mean stdev : K) (n : Nat) : Divisions K K := do
  let upper := mean + stdev * n
  let lower := mean - stdev * n
  let share ← divide (s.withinSum lower upper : K) (s.count : K)
  return share * ((100 : Nat) : K)

omit [LinearOrder K] [IsStrictOrderedRing K] in
theorem statsMeanLogged_value [CharZero K] (s : Stats) :
    (statsMeanLogged s : Divisions K K).value = (statsMean s : K) := by
  unfold statsMeanLogged statsMean
  split_ifs
  · rw [value_pure, Rat.cast_zero]
  · rw [value_divide, Rat.cast_div, Rat.cast_natCast, Rat.cast_natCast]
    rfl

/-- The mean of no samples is not divided. -/
theorem statsMeanLogged_noZero (s : Stats) : (statsMeanLogged s : Divisions K K).NoZero := by
  unfold statsMeanLogged
  split_ifs with hcount
  · exact noZero_pure _
  · rw [noZero_divide, Nat.cast_ne_zero]
    exact hcount

/-- Nor is the deviation of one. -/
theorem statsStdev_noZero (sqrtl : K → K) (s : Stats) (mean : K) :
    (statsStdev sqrtl s mean).NoZero := by
  unfold statsStdev
  split_ifs with hcount
  · exact noZero_pure _
  · rw [noZero_bind, noZero_divide, Nat.cast_ne_zero]
    exact ⟨by omega, noZero_pure _⟩

/-- The share of no samples is. -/
theorem statsWithinStdev_noZero_iff (s : Stats) (mean stdev : K) (n : Nat) :
    (statsWithinStdev s mean stdev n).NoZero ↔ s.count ≠ 0 := by
  unfold statsWithinStdev
  rw [noZero_bind, noZero_divide, Nat.cast_ne_zero]
  exact and_iff_left (noZero_pure _)

end Spread

end Wrk
