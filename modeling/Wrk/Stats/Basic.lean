import Wrk.Core.Loop
import Wrk.Core.Word
import Mathlib.Data.List.Count
import Mathlib.Data.List.Induction
import Mathlib.Data.Rat.Floor

/-!
# The Histogram

The `stats` structure of `stats.c` and its operations, each as the source
computes it when no other thread is running. A histogram is an array of
64-bit counters indexed by the value counted, with the number of samples, the
exclusive upper limit on values, and the least and greatest value seen.

The summary functions all scan the same index range, from `min` to `max`
inclusive, which is `cells`. On a fresh histogram `min` is the largest 64-bit
value and `max` is zero, so the range is empty. The scanning index is a
64-bit counter; it cannot pass the end of the range, because `max` is a value
that was below `limit`.

`statsCorrect` is the one operation that may not return. Its inner loop
lowers `m` by `expected`, which a caller computes, so it is run with a bound
on the iterations of each inner loop and returns nothing when that is used
up.

Means and percentiles are `long double` in the source and rational here: the
rank of a percentile is computed exactly, rounding half away from zero.

## Main definitions

* `Stats`: A histogram.
* `statsAlloc`: An empty histogram accepting values up to a maximum.
* `statsRecord`: Counting one sample.
* `statsCorrect`: Adding the samples that coordinated omission hid.
* `statsMean`: The mean sample.
* `statsPercentile`: The sample at a percentile.
* `recordAll`: Recording a list of samples in order.
* `ofSamples`: The histogram a list of samples should produce.

## Theorems

* `statsRecord_rejected`: A sample at or past the limit changes nothing.
* `statsRecord_accepted`: What recording an accepted sample does.
* `recordAll_append`: Recording a concatenation.
* `recordAll_max`, `recordAll_max_lt`: The maximum is a value below the limit.
* `recordAll_alloc`: Recording accepted samples builds their histogram.
-/

namespace Wrk

/-- The `stats` structure. The counters past `limit` do not exist in the
    source; no operation here reaches them. -/
@[ext] structure Stats where
  count : Nat
  limit : Nat
  min : Nat
  max : Nat
  data : Nat → Nat

/-- `stats_alloc`: zeroed memory, then the limit and the initial minimum. -/
def statsAlloc (max : Nat) : Stats :=
  { count := 0, limit := wrap64 (max + 1), min := uint64Max, max := 0, data := fun _ => 0 }

/-- Add to one counter. -/
def Stats.addData (s : Stats) (n count : Nat) : Stats :=
  { s with data := fun i => if i = n then wrap64 (s.data i + count) else s.data i }

/-- Add to the number of samples. -/
def Stats.addCount (s : Stats) (count : Nat) : Stats :=
  { s with count := wrap64 (s.count + count) }

/-- `stats_record`, with the value it returns. Alone, each of the two
    compare-and-swap loops replaces a bound that `n` improves on and leaves
    any other. -/
def statsRecord (s : Stats) (n : Nat) : Stats × Nat :=
  if n ≥ s.limit then (s, 0)
  else
    let s := (s.addData n 1).addCount 1
    let s := { s with min := if n < s.min then n else s.min }
    let s := { s with max := if n > s.max then n else s.max }
    (s, 1)

/-- The guard of the inner loop of `stats_correct`. -/
def correctGuard (expected : Int) (count : Nat) (x : Stats × Int) : Bool :=
  count != 0 && x.2 > expected

/-- The body of the inner loop of `stats_correct`. -/
def correctBody (expected : Int) (count : Nat) (x : Stats × Int) : Stats × Int :=
  ((x.1.addData x.2.toNat count).addCount count, x.2 - expected)

/-- One iteration of the outer loop of `stats_correct`, for the counter
    `n`. -/
def correctAt (expected : Int) (fuel : Nat) (s : Stats) (n : Nat) : Option Stats :=
  (Loop.whileLoop (correctGuard expected (s.data n)) (correctBody expected (s.data n)) fuel
    (s, toInt64 n - expected)).map Prod.fst

/-- The counter `stats_correct` starts from, `expected * 2` as an unsigned
    value. -/
def correctStart (expected : Int) : Nat := (expected * 2 % 2 ^ 64).toNat

/-- `stats_correct`, bounding each inner loop by `fuel` iterations. The outer
    bound `max` is read again on every iteration in the source, but nothing
    in the loop writes it. -/
def statsCorrect (s : Stats) (expected : Int) (fuel : Nat) : Option Stats :=
  (List.range' (correctStart expected) (s.max + 1 - correctStart expected)).foldlM
    (correctAt expected fuel) s

/-- The indices every summary function scans. -/
def Stats.cells (s : Stats) : List Nat := List.range' s.min (s.max + 1 - s.min)

/-- `stats_mean`. The sum is a 64-bit counter. -/
def statsMean (s : Stats) : Rat :=
  if s.count = 0 then 0
  else (s.cells.foldl (fun sum i => wrap64 (sum + wrap64 (s.data i * i))) 0 : Nat) / s.count

/-- `round`, to the nearest integer with halves away from zero. -/
def roundHalfAway (x : Rat) : Int := if 0 ≤ x then ⌊x + 1 / 2⌋ else ⌈x - 1 / 2⌉

/-- The rank a percentile asks for. -/
def percentileRank (s : Stats) (p : Rat) : Nat :=
  (roundHalfAway (p / 100 * s.count + 1 / 2)).toNat

/-- The scan of `stats_percentile`: the first index at which the running
    total reaches the rank, or zero if none does. -/
def percentileScan (s : Stats) (rank : Nat) : Nat → List Nat → Nat
  | _, [] => 0
  | total, i :: is =>
      if wrap64 (total + s.data i) ≥ rank then i
      else percentileScan s rank (wrap64 (total + s.data i)) is

/-- `stats_percentile`. -/
def statsPercentile (s : Stats) (p : Rat) : Nat :=
  percentileScan s (percentileRank s p) 0 s.cells

/-- Record samples one after another, discarding the return values. -/
def recordAll (s : Stats) (xs : List Nat) : Stats :=
  xs.foldl (fun s x => (statsRecord s x).1) s

/-- The histogram of a list of samples, stated without an algorithm: each
    counter holds the number of occurrences, and the bounds are the least and
    greatest sample. -/
def ofSamples (M : Nat) (xs : List Nat) : Stats :=
  { count := wrap64 xs.length
    limit := wrap64 (M + 1)
    min := xs.foldl min uint64Max
    max := xs.foldl max 0
    data := fun v => wrap64 (xs.count v) }

/-- A sample at or past the limit is refused and changes nothing. -/
theorem statsRecord_rejected (s : Stats) (n : Nat) (h : s.limit ≤ n) :
    statsRecord s n = (s, 0) := by
  rw [statsRecord, if_pos h]

/-- An accepted sample raises its own counter and the total by one, and
    widens the bounds to include itself. -/
theorem statsRecord_accepted (s : Stats) (n : Nat) (h : n < s.limit) :
    statsRecord s n =
      ({ count := wrap64 (s.count + 1)
         limit := s.limit
         min := min s.min n
         max := max s.max n
         data := fun i => if i = n then wrap64 (s.data i + 1) else s.data i }, 1) := by
  rw [statsRecord, if_neg (by omega)]
  have hmin : min s.min n = if n < s.min then n else s.min := by
    by_cases hn : n < s.min
    · rw [if_pos hn]
      exact Nat.min_eq_right (by omega)
    · rw [if_neg hn]
      exact Nat.min_eq_left (by omega)
  have hmax : max s.max n = if n > s.max then n else s.max := by
    by_cases hn : n > s.max
    · rw [if_pos hn]
      exact Nat.max_eq_right (by omega)
    · rw [if_neg hn]
      exact Nat.max_eq_left (by omega)
  rw [hmin, hmax]
  rfl

theorem statsRecord_limit (s : Stats) (n : Nat) : (statsRecord s n).1.limit = s.limit := by
  by_cases h : n < s.limit
  · rw [statsRecord_accepted s n h]
  · rw [statsRecord_rejected s n (by omega)]

theorem recordAll_append (s : Stats) (xs ys : List Nat) :
    recordAll s (xs ++ ys) = recordAll (recordAll s xs) ys := by
  rw [recordAll, List.foldl_append, ← recordAll, ← recordAll]

theorem recordAll_concat (s : Stats) (xs : List Nat) (x : Nat) :
    recordAll s (xs ++ [x]) = (statsRecord (recordAll s xs) x).1 := by
  rw [recordAll_append]
  rfl

theorem recordAll_limit (s : Stats) (xs : List Nat) : (recordAll s xs).limit = s.limit := by
  induction xs using List.reverseRecOn with
  | nil => rfl
  | append_singleton xs x ih => rw [recordAll_concat, statsRecord_limit, ih]

/-- The maximum is below the limit, unless nothing was accepted. -/
theorem recordAll_max (M : Nat) (xs : List Nat) :
    (recordAll (statsAlloc M) xs).max = 0 ∨
      (recordAll (statsAlloc M) xs).max < (recordAll (statsAlloc M) xs).limit := by
  induction xs using List.reverseRecOn with
  | nil => exact Or.inl rfl
  | append_singleton xs x ih =>
      rw [recordAll_concat]
      by_cases hx : x < (recordAll (statsAlloc M) xs).limit
      · rw [statsRecord_accepted _ x hx]
        dsimp only
        right
        omega
      · rw [statsRecord_rejected _ x (by omega)]
        exact ih

theorem recordAll_max_lt (M : Nat) (xs : List Nat) :
    (recordAll (statsAlloc M) xs).max + 1 < 2 ^ 64 := by
  have hlimit : (recordAll (statsAlloc M) xs).limit < 2 ^ 64 := by
    rw [recordAll_limit]
    exact wrap64_lt _
  have hlt := recordAll_max M xs
  omega

/-- Recording accepted samples on a fresh histogram builds exactly the
    histogram of those samples. -/
theorem recordAll_alloc (M : Nat) (xs : List Nat) (h : ∀ x ∈ xs, x < wrap64 (M + 1)) :
    recordAll (statsAlloc M) xs = ofSamples M xs := by
  induction xs using List.reverseRecOn with
  | nil => rfl
  | append_singleton xs x ih =>
      have hprev := ih (fun y hy => h y (List.mem_append_left [x] hy))
      have hx : x < wrap64 (M + 1) := h x (List.mem_append_right xs (List.mem_singleton_self x))
      rw [recordAll_concat, hprev, statsRecord_accepted _ x hx]
      simp only [ofSamples]
      ext1
      · simp only [List.length_append, List.length_singleton, wrap64_wrap64_add]
      · rfl
      · simp only [List.foldl_append, List.foldl_cons, List.foldl_nil]
      · simp only [List.foldl_append, List.foldl_cons, List.foldl_nil]
      · funext i
        simp only [List.count_append, List.count_singleton]
        by_cases hi : i = x
        · rw [if_pos hi, wrap64_wrap64_add, hi, beq_self_eq_true, if_pos rfl]
        · have hxi : (x == i) = false := by simp only [beq_eq_false_iff_ne, ne_eq, Ne.symm hi,
            not_false_eq_true]
          rw [if_neg hi, hxi, if_neg (by simp only [Bool.false_eq_true, not_false_eq_true]),
            Nat.add_zero]

end Wrk
