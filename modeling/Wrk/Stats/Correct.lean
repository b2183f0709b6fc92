import Wrk.Stats.Summary
import Mathlib.Algebra.BigOperators.Ring.Finset
import Mathlib.Tactic.Ring

/-!
# Correcting for Coordinated Omission

What `stats_correct` computes when it returns. A sample `x` recorded by a
client that meant to send a request every `e` units stands for the requests
it did not send meanwhile; `missing e x` lists the latencies those would have
seen, `x - e`, `x - 2e` and so on down to the last one above `e`. The outer
loop visits the counters in increasing order and the inner loop writes only
below the counter it reads, so no synthetic sample is ever read as a source,
and the result is the histogram before the call with `missing e n` added
`data[n]` times for each `n`.

The correction raises counters directly. It does not touch `min`, so a
synthetic sample below the least recorded one lies outside the range that
every summary function scans. The correction agrees with recording the
missing samples exactly when there is no such sample and the 64-bit sums behave.

The index `n` is converted to a signed integer, so counters from `2 ^ 63` on
are never corrected; their missing samples would have to vanish modulo the
size of a counter, which `LargeCancel` says.

## Main definitions

* `missing`: The samples hidden behind one sample.
* `addMany`: Adding one number to each counter of a list.
* `Corrects`: The correction of a histogram returns a given one.
* `corrected`: The samples the correction adds for one counter.
* `withMissing`: Samples together with what is missing behind each.
* `AgreesWithRecording`: A histogram is the one that recording the missing
  samples would have built.
* `Covered`: No missing sample is below every recorded one.
* `LargeCancel`: What is missing behind the samples too large to be corrected
  cancels.

## Theorems

* `mem_missing`: Which numbers are missing behind a sample.
* `correctAt_of_large_fuel`: One outer iteration adds the missing samples.
* `foldlM_correctAt`: The outer loop adds them for every counter.
* `statsCorrect_effect`: The correction as a closed form.
* `corrects_unique`: The correction has at most one result.
* `statsCorrect_agrees_iff`: When the correction agrees with recording.
* `statsCorrect_loses_minimum`: One sample on which it does not.
-/

namespace Wrk

open Loop

/-- The synthetic samples of `x` at interval `e`: `x - e`, `x - 2e`, ... as
    long as they are greater than `e`. -/
def missing (e x : Nat) : List Nat := (List.range ((x - 1) / e - 1)).map (fun k => x - (k + 1) * e)

/-- The same from a first value on: `m`, `m - e`, ... as long as they are
    greater than `e`. -/
def missingFrom (e m : Nat) : List Nat := (List.range ((m - 1) / e)).map (fun k => m - k * e)

theorem missing_eq_missingFrom (e x : Nat) (hx : e ≤ x) :
    missing e x = missingFrom e (x - e) := by
  have hdiv : (x - e - 1) / e = (x - 1) / e - 1 := by
    rw [show x - e - 1 = x - 1 - e * 1 by omega, Nat.sub_mul_div]
  rw [missing, missingFrom, hdiv]
  refine List.map_congr_left (fun k _ => ?_)
  rw [Nat.add_mul, Nat.one_mul]
  omega

/-- Exactly the values above `e` that lie a positive number of intervals
    below the sample. -/
theorem mem_missing (e x m : Nat) (he : 0 < e) :
    m ∈ missing e x ↔ e < m ∧ ∃ k, 1 ≤ k ∧ m + k * e = x := by
  simp only [missing, List.mem_map, List.mem_range]
  constructor
  · rintro ⟨k, hk, rfl⟩
    have hle : (k + 2) * e ≤ x - 1 := (Nat.le_div_iff_mul_le he).mp (by omega)
    have h1 : (k + 2) * e = (k + 1) * e + e := by ring
    exact ⟨by omega, k + 1, by omega, by omega⟩
  · rintro ⟨hm, k, hk, rfl⟩
    refine ⟨k - 1, ?_, ?_⟩
    · have h1 : (k + 1) * e ≤ m + k * e - 1 := by
        rw [Nat.add_mul, Nat.one_mul]
        omega
      have := (Nat.le_div_iff_mul_le he).mpr h1
      omega
    · rw [show k - 1 + 1 = k by omega]
      omega

theorem missing_lt (e x m : Nat) (he : 0 < e) (h : m ∈ missing e x) : e < m ∧ m < x := by
  rcases (mem_missing e x m he).mp h with ⟨hm, k, hk, rfl⟩
  have : 0 < k * e := Nat.mul_pos hk he
  exact ⟨hm, by omega⟩

theorem missing_eq_nil (e x : Nat) (he : 0 < e) (h : x ≤ 2 * e) : missing e x = [] := by
  refine List.eq_nil_iff_forall_not_mem.mpr (fun m hm => ?_)
  rcases (mem_missing e x m he).mp hm with ⟨hm, k, hk, rfl⟩
  have : 1 * e ≤ k * e := Nat.mul_le_mul_right e hk
  omega

theorem missingFrom_of_lt (e m : Nat) (he : 0 < e) (h : e < m) :
    missingFrom e m = m :: missingFrom e (m - e) := by
  have hdiv : (m - 1) / e = (m - e - 1) / e + 1 := by
    rw [show m - 1 = m - e - 1 + e by omega, Nat.add_div_right _ he]
  rw [missingFrom, hdiv, List.range_succ_eq_map, List.map_cons, Nat.zero_mul, Nat.sub_zero,
    List.map_map, missingFrom]
  congr 1
  refine List.map_congr_left (fun k _ => ?_)
  rw [Function.comp_apply, Nat.succ_mul]
  omega

theorem missingFrom_of_le (e m : Nat) (h : m ≤ e) : missingFrom e m = [] := by
  rw [missingFrom, List.map_eq_nil_iff, List.range_eq_nil]
  rcases Nat.eq_zero_or_pos e with rfl | he
  · exact Nat.div_zero _
  · exact Nat.div_eq_of_lt (by omega)

/-- Add `count` to each counter of a list, and to the total each time. -/
def addMany (s : Stats) (count : Nat) (ms : List Nat) : Stats :=
  ms.foldl (fun s m => (s.addData m count).addCount count) s

theorem addMany_bounds (s : Stats) (count : Nat) (ms : List Nat) :
    (addMany s count ms).limit = s.limit ∧ (addMany s count ms).min = s.min ∧
      (addMany s count ms).max = s.max := by
  induction ms generalizing s with
  | nil => exact ⟨rfl, rfl, rfl⟩
  | cons m ms ih => exact ih ((s.addData m count).addCount count)

theorem addMany_data (s : Stats) (count : Nat) (ms : List Nat) (i : Nat) (hs : s.data i < 2 ^ 64) :
    (addMany s count ms).data i = wrap64 (s.data i + count * ms.count i) := by
  induction ms generalizing s with
  | nil =>
      rw [List.count_nil, Nat.mul_zero, Nat.add_zero, wrap64_of_lt _ hs]
      rfl
  | cons m ms ih =>
      have hcell : ((s.addData m count).addCount count).data i
          = if i = m then wrap64 (s.data i + count) else s.data i := rfl
      have hlt : ((s.addData m count).addCount count).data i < 2 ^ 64 := by
        rw [hcell]
        by_cases him : i = m
        · rw [if_pos him]
          exact wrap64_lt _
        · rw [if_neg him]
          exact hs
      -- The cell stays below the word size, so that the sum can be taken at once.
      have := ih ((s.addData m count).addCount count) hlt
      rw [addMany, List.foldl_cons, ← addMany, this, hcell, List.count_cons]
      by_cases him : i = m
      · rw [if_pos him, wrap64_wrap64_add, him, beq_self_eq_true, if_pos rfl]
        congr 1
        ring
      · have hmi : (m == i) = false := by simp only [beq_eq_false_iff_ne, ne_eq, Ne.symm him,
          not_false_eq_true]
        rw [if_neg him, hmi, if_neg (by simp only [Bool.false_eq_true, not_false_eq_true]),
          Nat.add_zero]

theorem addMany_count (s : Stats) (count : Nat) (ms : List Nat) (hs : s.count < 2 ^ 64) :
    (addMany s count ms).count = wrap64 (s.count + count * ms.length) := by
  induction ms generalizing s with
  | nil =>
      rw [List.length_nil, Nat.mul_zero, Nat.add_zero, wrap64_of_lt _ hs]
      rfl
  | cons m ms ih =>
      have hcell : ((s.addData m count).addCount count).count = wrap64 (s.count + count) := rfl
      have := ih ((s.addData m count).addCount count) (by rw [hcell]; exact wrap64_lt _)
      rw [addMany, List.foldl_cons, ← addMany, this, hcell, wrap64_wrap64_add, List.length_cons]
      congr 1
      ring

theorem addMany_fits (s : Stats) (count : Nat) (ms : List Nat) (hs : s.Fits) :
    (addMany s count ms).Fits :=
  ⟨fun v => by rw [addMany_data s count ms v (hs.1 v)]; exact wrap64_lt _,
    by rw [addMany_count s count ms hs.2]; exact wrap64_lt _⟩

theorem addMany_zero (s : Stats) (ms : List Nat) (hs : s.Fits) : addMany s 0 ms = s := by
  rcases addMany_bounds s 0 ms with ⟨hlim, hmin, hmax⟩
  ext1
  · rw [addMany_count s 0 ms hs.2, Nat.zero_mul, Nat.add_zero, wrap64_of_lt _ hs.2]
  · exact hlim
  · exact hmin
  · exact hmax
  · funext i
    rw [addMany_data s 0 ms i (hs.1 i), Nat.zero_mul, Nat.add_zero, wrap64_of_lt _ (hs.1 i)]

/-- The inner loop from `m` on adds `count` to each of `m`, `m - e`, ... that
    is greater than `e`. -/
theorem halts_inner (e count : Nat) (he : 0 < e) (hcount : count ≠ 0) (s : Stats) (m : Nat) :
    ∃ m', Halts (correctGuard e count) (correctBody e count) (s, (m : Int))
      (addMany s count (missingFrom e m), m') := by
  induction m using Nat.strongRecOn generalizing s with
  | _ m ih =>
    by_cases hm : e < m
    · -- One iteration, then the rest from `m - e`.
      have hguard : correctGuard e count (s, (m : Int)) = true := by
        simp only [correctGuard, bne_iff_ne, ne_eq, hcount, not_false_eq_true, gt_iff_lt,
          Nat.cast_lt, hm, decide_true, Bool.and_true]
      have hbody : correctBody e count (s, (m : Int))
          = ((s.addData m count).addCount count, ((m - e : Nat) : Int)) := by
        simp only [correctBody, Int.toNat_natCast, Prod.mk.injEq, true_and]
        omega
      rcases ih (m - e) (by omega) ((s.addData m count).addCount count) with ⟨m', hm'⟩
      refine ⟨m', halts_step _ _ _ _ hguard ?_⟩
      rw [hbody, missingFrom_of_lt e m he hm]
      exact hm'
    · rw [missingFrom_of_le e m (by omega)]
      refine ⟨m, halts_exit _ _ _ ?_⟩
      simp only [correctGuard, gt_iff_lt, Nat.cast_lt, hm, decide_false, Bool.and_false]

/-- The samples added for one counter: none from `2 ^ 63` on, where the
    signed index is negative. -/
def corrected (e n : Nat) : List Nat := if n < 2 ^ 63 then missing e n else []

theorem correctAt_mono (e : Int) (fuel more : Nat) (s t : Stats) (n : Nat)
    (h : correctAt e fuel s n = some t) : correctAt e (fuel + more) s n = some t := by
  simp only [correctAt, Option.map_eq_some_iff] at h ⊢
  rcases h with ⟨x, hx, rfl⟩
  exact ⟨x, whileLoop_mono _ _ fuel _ x hx more, rfl⟩

/-- With enough fuel, one outer iteration adds the missing samples of its
    counter, once for each time that value was counted. -/
theorem correctAt_of_large_fuel (e n : Nat) (he : 0 < e) (hn : 2 * e ≤ n) (hn' : n < 2 ^ 64)
    (s : Stats) (hs : s.Fits) :
    ∃ fuel, correctAt e fuel s n = some (addMany s (s.data n) (corrected e n)) := by
  by_cases hsmall : n < 2 ^ 63 ∧ s.data n ≠ 0
  · have hstart : toInt64 n - e = ((n - e : Nat) : Int) := by
      rw [toInt64_of_lt n hsmall.1]
      omega
    rcases halts_inner e (s.data n) he hsmall.2 s (n - e) with ⟨m', fuel, hf⟩
    refine ⟨fuel, ?_⟩
    rw [correctAt, hstart, hf, corrected, if_pos hsmall.1,
      missing_eq_missingFrom e n (by omega)]
    rfl
  · -- The loop is not entered: nothing was counted, or the index is negative.
    have hguard : correctGuard e (s.data n) (s, toInt64 n - e) = false := by
      by_cases hz : s.data n = 0
      · simp only [correctGuard, hz, bne_self_eq_false, Bool.false_and]
      · have hneg := toInt64_neg n (by by_contra hc; exact hsmall ⟨by omega, hz⟩) hn'
        simp only [correctGuard, gt_iff_lt, Bool.and_eq_false_imp, decide_eq_false_iff_not]
        intro _
        omega
    refine ⟨0, ?_⟩
    have hsame : addMany s (s.data n) (corrected e n) = s := by
      by_cases hz : s.data n = 0
      · rw [hz, addMany_zero s _ hs]
      · rw [corrected, if_neg (fun hc => hsmall ⟨hc, hz⟩)]
        rfl
    rw [correctAt, whileLoop, hguard, hsame]
    rfl

/-- The whole correction, reading every count from `d`. -/
def addCorrected (e : Nat) (d : Nat → Nat) (s : Stats) (l : List Nat) : Stats :=
  l.foldl (fun s n => addMany s (d n) (corrected e n)) s

theorem addCorrected_bounds (e : Nat) (d : Nat → Nat) (s : Stats) (l : List Nat) :
    (addCorrected e d s l).limit = s.limit ∧ (addCorrected e d s l).min = s.min ∧
      (addCorrected e d s l).max = s.max := by
  induction l generalizing s with
  | nil => exact ⟨rfl, rfl, rfl⟩
  | cons n l ih =>
      rcases addMany_bounds s (d n) (corrected e n) with ⟨hlim, hmin, hmax⟩
      rcases ih (addMany s (d n) (corrected e n)) with ⟨hlim', hmin', hmax'⟩
      exact ⟨hlim'.trans hlim, hmin'.trans hmin, hmax'.trans hmax⟩

theorem addCorrected_data (e : Nat) (d : Nat → Nat) (s : Stats) (l : List Nat) (hs : s.Fits)
    (i : Nat) :
    (addCorrected e d s l).data i
      = wrap64 (s.data i + (l.map (fun n => d n * (corrected e n).count i)).sum) := by
  induction l generalizing s with
  | nil =>
      rw [List.map_nil, List.sum_nil, Nat.add_zero, wrap64_of_lt _ (hs.1 i)]
      rfl
  | cons n l ih =>
      rw [addCorrected, List.foldl_cons, ← addCorrected, ih _ (addMany_fits s _ _ hs),
        addMany_data s _ _ i (hs.1 i), wrap64_wrap64_add, List.map_cons, List.sum_cons, Nat.add_assoc]

theorem addCorrected_count (e : Nat) (d : Nat → Nat) (s : Stats) (l : List Nat) (hs : s.Fits) :
    (addCorrected e d s l).count
      = wrap64 (s.count + (l.map (fun n => d n * (corrected e n).length)).sum) := by
  induction l generalizing s with
  | nil =>
      rw [List.map_nil, List.sum_nil, Nat.add_zero, wrap64_of_lt _ hs.2]
      rfl
  | cons n l ih =>
      rw [addCorrected, List.foldl_cons, ← addCorrected, ih _ (addMany_fits s _ _ hs),
        addMany_count s _ _ hs.2, wrap64_wrap64_add, List.map_cons, List.sum_cons, Nat.add_assoc]

theorem foldlM_correctAt_mono (e : Int) (fuel more : Nat) (l : List Nat) (s t : Stats)
    (h : l.foldlM (correctAt e fuel) s = some t) :
    l.foldlM (correctAt e (fuel + more)) s = some t := by
  induction l generalizing s with
  | nil => exact h
  | cons n l ih =>
      simp only [List.foldlM_cons, Option.bind_eq_bind, Option.bind_eq_some_iff] at h ⊢
      rcases h with ⟨u, hu, ht⟩
      exact ⟨u, correctAt_mono e fuel more s u n hu, ih u ht⟩

/-- The outer loop over increasing counters. Each iteration writes below the
    counter it reads, so the counters still to be read hold what they held at
    the start, which `hd` says of the rest of the list. -/
theorem foldlM_correctAt (e : Nat) (he : 0 < e) (d : Nat → Nat) (l : List Nat)
    (hl : l.Pairwise (· < ·)) (hb : ∀ n ∈ l, 2 * e ≤ n ∧ n < 2 ^ 64) (s : Stats) (hs : s.Fits)
    (hd : ∀ n ∈ l, s.data n = d n) :
    ∃ fuel, l.foldlM (correctAt e fuel) s = some (addCorrected e d s l) := by
  induction l generalizing s with
  | nil => exact ⟨0, rfl⟩
  | cons n l ih =>
      rcases List.pairwise_cons.mp hl with ⟨hlt, hl'⟩
      rcases hb n List.mem_cons_self with ⟨hn, hn'⟩
      rcases correctAt_of_large_fuel e n he hn hn' s hs with ⟨f1, h1⟩
      rw [hd n List.mem_cons_self] at h1
      have hd' : ∀ m ∈ l, (addMany s (d n) (corrected e n)).data m = d m := by
        -- What is added for `n` lies below it, and the cells to come are above.
        intro m hm
        have habsent : m ∉ corrected e n := by
          intro hc
          have hmiss : m ∈ missing e n := by
            by_cases h63 : n < 2 ^ 63
            · rwa [corrected, if_pos h63] at hc
            · rw [corrected, if_neg h63] at hc
              exact absurd hc List.not_mem_nil
          have := (missing_lt e n m he hmiss).2
          have := hlt m hm
          omega
        rw [addMany_data s _ _ m (hs.1 m), List.count_eq_zero_of_not_mem habsent, Nat.mul_zero,
          Nat.add_zero, wrap64_of_lt _ (hs.1 m), hd m (List.mem_cons_of_mem n hm)]
      rcases ih hl' (fun m hm => hb m (List.mem_cons_of_mem n hm)) _ (addMany_fits s _ _ hs) hd' with
        ⟨f2, h2⟩
      refine ⟨f1 + f2, ?_⟩
      simp only [List.foldlM_cons, Option.bind_eq_bind, Option.bind_eq_some_iff]
      refine ⟨_, correctAt_mono e f1 f2 s _ n h1, ?_⟩
      rw [Nat.add_comm f1 f2]
      exact foldlM_correctAt_mono e f2 f1 l _ _ h2

/-- The counters the outer loop visits. -/
def correctRange (s : Stats) (e : Nat) : List Nat := List.range' (2 * e) (s.max + 1 - 2 * e)

theorem correctStart_eq (e : Nat) (h : 2 * e < 2 ^ 64) : correctStart e = 2 * e := by
  rw [correctStart]
  omega

/-- `stats_correct` returns `h`. -/
def Corrects (s : Stats) (e : Int) (h : Stats) : Prop := ∃ fuel, statsCorrect s e fuel = some h

theorem corrects_unique (s : Stats) (e : Int) (h h' : Stats) (h1 : Corrects s e h)
    (h2 : Corrects s e h') : h = h' := by
  rcases h1 with ⟨f1, h1⟩
  rcases h2 with ⟨f2, h2⟩
  have e1 := foldlM_correctAt_mono e f1 f2 _ s h h1
  have e2 := foldlM_correctAt_mono e f2 f1 _ s h' h2
  rw [Nat.add_comm f2 f1, e1, Option.some.injEq] at e2
  exact e2

/-- The correction returns, with the missing samples of every counter added
    as often as its value was counted before the call. -/
theorem statsCorrect_effect (s : Stats) (e : Nat) (he : 0 < e) (he2 : 2 * e < 2 ^ 64)
    (hs : s.Fits) (hmax : s.max < 2 ^ 64) :
    Corrects s e (addCorrected e s.data s (correctRange s e)) := by
  have hrange : ∀ n ∈ correctRange s e, 2 * e ≤ n ∧ n < 2 ^ 64 := by
    intro n hn
    rw [correctRange, List.mem_range'_1] at hn
    omega
  rcases foldlM_correctAt e he s.data (correctRange s e) List.pairwise_lt_range' hrange s hs
    (fun _ _ => rfl) with ⟨fuel, hf⟩
  refine ⟨fuel, ?_⟩
  rw [statsCorrect, correctStart_eq e he2]
  exact hf

/-- The samples together with the missing ones behind each. -/
def withMissing (e : Nat) (xs : List Nat) : List Nat := xs ++ xs.flatMap (missing e)

/-- A histogram agrees with recording the missing samples: it is the one that
    recording builds, its counters lie within its bounds and add up to its
    count, and its mean lies between its bounds. -/
structure AgreesWithRecording (M e : Nat) (xs : List Nat) (h : Stats) : Prop where
  same : h = recordAll (statsAlloc M) (withMissing e xs)
  inside : ∀ i, h.data i ≠ 0 → h.min ≤ i ∧ i ≤ h.max
  total : h.count = wrap64 (h.cells.map h.data).sum
  mean : xs ≠ [] → h.min ≤ statsMean h ∧ statsMean h ≤ h.max

/-- No missing sample is below every recorded one. -/
def Covered (e : Nat) (xs : List Nat) : Prop := ∀ x ∈ xs, ∀ m ∈ missing e x, ∃ y ∈ xs, y ≤ m

/-- The samples from `2 ^ 63` on, which the correction skips, miss every value
    a multiple of `2 ^ 64` times. -/
def LargeCancel (e : Nat) (xs : List Nat) : Prop :=
  ∀ m, wrap64 (((xs.filter (2 ^ 63 ≤ ·)).flatMap (missing e)).count m) = 0

theorem withMissing_le (e M : Nat) (he : 0 < e) (xs : List Nat) (hxs : ∀ x ∈ xs, x ≤ M) :
    ∀ y ∈ withMissing e xs, y ≤ M := by
  intro y hy
  rcases List.mem_append.mp hy with h | h
  · exact hxs y h
  · rcases List.mem_flatMap.mp h with ⟨x, hx, hm⟩
    have := (missing_lt e x y he hm).2
    have := hxs x hx
    omega

/-- Missing samples never raise the maximum. -/
theorem withMissing_max (e : Nat) (he : 0 < e) (xs : List Nat) :
    (withMissing e xs).foldl max 0 = xs.foldl max 0 := by
  symm
  refine Samples.eq_foldl_max _ 0 _ (fun y hy => ?_) (Nat.zero_le _) ?_
  · rcases List.mem_append.mp hy with h | h
    · exact Samples.le_foldl_max xs 0 y h
    · rcases List.mem_flatMap.mp h with ⟨x, hx, hm⟩
      have := (missing_lt e x y he hm).2
      have := Samples.le_foldl_max xs 0 x hx
      omega
  · exact (Samples.foldl_max_mem xs 0).imp_right (List.mem_append_left _)

/-- They leave the minimum alone exactly when they are covered. -/
theorem withMissing_min_iff (e : Nat) (he : 0 < e) (xs : List Nat)
    (hxs : ∀ x ∈ xs, x ≤ uint64Max) :
    xs.foldl min uint64Max = (withMissing e xs).foldl min uint64Max ↔ Covered e xs := by
  constructor
  · intro h x hx m hm
    have hle : xs.foldl min uint64Max ≤ m := by
      rw [h]
      exact Samples.foldl_min_le _ uint64Max m
        (List.mem_append_right xs (List.mem_flatMap.mpr ⟨x, hx, hm⟩))
    rcases Samples.foldl_min_mem xs uint64Max with hmin | hmin
    · -- The start is attained only when nothing is below it, but `m` is.
      have := (missing_lt e x m he hm).2
      have := hxs x hx
      omega
    · exact ⟨_, hmin, hle⟩
  · intro h
    refine Samples.eq_foldl_min _ uint64Max _ (fun y hy => ?_)
      (Samples.foldl_min_le_start xs uint64Max) ?_
    · rcases List.mem_append.mp hy with hm | hm
      · exact Samples.foldl_min_le xs uint64Max y hm
      · rcases List.mem_flatMap.mp hm with ⟨x, hx, hm⟩
        rcases h x hx y hm with ⟨z, hz, hzy⟩
        exact le_trans (Samples.foldl_min_le xs uint64Max z hz) hzy
    · exact (Samples.foldl_min_mem xs uint64Max).imp_right (List.mem_append_left _)

/-- What is missing is what the correction adds and what the samples it skips
    are missing. -/
theorem count_missing_split (e : Nat) (xs : List Nat) (i : Nat) :
    (xs.flatMap (missing e)).count i = (xs.flatMap (corrected e)).count i
      + ((xs.filter (2 ^ 63 ≤ ·)).flatMap (missing e)).count i := by
  induction xs with
  | nil => rfl
  | cons x xs ih =>
      rw [List.flatMap_cons, List.flatMap_cons, List.count_append, List.count_append, ih]
      by_cases hx : x < 2 ^ 63
      · rw [corrected, if_pos hx, List.filter_cons_of_neg (by simp only [decide_eq_true_eq]; omega)]
        omega
      · rw [corrected, if_neg hx, List.filter_cons_of_pos (by simp only [decide_eq_true_eq]; omega),
          List.flatMap_cons, List.count_append, List.count_nil]
        omega

/-- A sum over the visited counters is a sum over the samples, when only
    samples that are visited contribute. -/
theorem sum_correctRange (M e : Nat) (xs : List Nat) (f : Nat → Nat)
    (hf : ∀ x, x ≤ 2 * e → f x = 0) :
    wrap64 ((correctRange (ofSamples M xs) e).map (fun n => (ofSamples M xs).data n * f n)).sum
      = wrap64 (xs.map f).sum := by
  have hregroup : ((correctRange (ofSamples M xs) e).map (fun n => xs.count n * f n)).sum
      = (xs.map f).sum := by
    have hnodup : (correctRange (ofSamples M xs) e).Nodup := List.nodup_range'
    rw [← List.sum_toFinset _ hnodup]
    refine Samples.sum_count_mul _ xs f (fun x hx hne => ?_)
    have hgt : 2 * e < x := by
      by_contra hc
      exact hne (hf x (by omega))
    have := Samples.le_foldl_max xs 0 x hx
    have hmax : (ofSamples M xs).max = xs.foldl max 0 := rfl
    rw [List.mem_toFinset, correctRange, List.mem_range'_1, hmax]
    omega
  rw [← hregroup, ← wrap64_sum_wrap64, ← wrap64_sum_wrap64 _ (fun n => xs.count n * f n)]
  congr 3
  funext n
  exact wrap64_wrap64_mul _ _

/-- The histogram the correction leaves, counter by counter. -/
theorem addCorrected_ofSamples_data (M e : Nat) (he : 0 < e) (xs : List Nat) (i : Nat) :
    (addCorrected e (ofSamples M xs).data (ofSamples M xs)
        (correctRange (ofSamples M xs) e)).data i
      = wrap64 (xs.count i + (xs.flatMap (corrected e)).count i) := by
  have hdata : (ofSamples M xs).data i = wrap64 (xs.count i) := rfl
  rw [addCorrected_data _ _ _ _ (ofSamples_fits M xs), ← wrap64_add_wrap64,
    sum_correctRange M e xs (fun n => (corrected e n).count i), hdata, wrap64_wrap64_add,
    wrap64_add_wrap64, List.count_flatMap]
  · rfl
  · intro x hx
    rw [corrected, missing_eq_nil e x he hx, ite_self, List.count_nil]

theorem addCorrected_ofSamples_count (M e : Nat) (he : 0 < e) (xs : List Nat) :
    (addCorrected e (ofSamples M xs).data (ofSamples M xs)
        (correctRange (ofSamples M xs) e)).count
      = wrap64 (xs.length + (xs.flatMap (corrected e)).length) := by
  have hcount : (ofSamples M xs).count = wrap64 xs.length := rfl
  rw [addCorrected_count _ _ _ _ (ofSamples_fits M xs), ← wrap64_add_wrap64,
    sum_correctRange M e xs (fun n => (corrected e n).length), hcount, wrap64_wrap64_add,
    wrap64_add_wrap64, List.length_flatMap]
  intro x hx
  rw [corrected, missing_eq_nil e x he hx, ite_self, List.length_nil]

/-- A list in which every value occurs a multiple of `2 ^ 64` times has a
    multiple of `2 ^ 64` entries. -/
theorem wrap64_length (l : List Nat) (h : ∀ v, wrap64 (l.count v) = 0) : wrap64 l.length = 0 := by
  have hdvd : 2 ^ 64 ∣ ∑ v ∈ l.toFinset, l.count v :=
    Finset.dvd_sum (fun v _ => Nat.dvd_of_mod_eq_zero (h v))
  rw [List.sum_toFinset_count_eq_length] at hdvd
  exact Nat.mod_eq_zero_of_dvd hdvd

theorem largeCancel_length (e : Nat) (xs : List Nat) (h : LargeCancel e xs) :
    wrap64 (xs.flatMap (missing e)).length = wrap64 (xs.flatMap (corrected e)).length := by
  have hperm : (xs.flatMap (missing e)).Perm
      (xs.flatMap (corrected e) ++ (xs.filter (2 ^ 63 ≤ ·)).flatMap (missing e)) :=
    List.perm_iff_count.mpr (fun i => by rw [count_missing_split, List.count_append])
  rw [hperm.length_eq, List.length_append, ← wrap64_add_wrap64, wrap64_length _ h, Nat.add_zero]

/-- The correction leaves the histogram that recording builds exactly when
    the minimum is covered and what it skips cancels. -/
theorem addCorrected_same_iff (M e : Nat) (he : 0 < e) (xs : List Nat)
    (hxs : ∀ x ∈ xs, x ≤ uint64Max) :
    addCorrected e (ofSamples M xs).data (ofSamples M xs) (correctRange (ofSamples M xs) e)
        = ofSamples M (withMissing e xs) ↔ Covered e xs ∧ LargeCancel e xs := by
  rcases addCorrected_bounds e (ofSamples M xs).data (ofSamples M xs)
    (correctRange (ofSamples M xs) e) with ⟨hlim, hmin, hmax⟩
  -- Both sides of a counter differ by what is missing behind large samples.
  have hcell : ∀ i, (addCorrected e (ofSamples M xs).data (ofSamples M xs)
        (correctRange (ofSamples M xs) e)).data i = (ofSamples M (withMissing e xs)).data i
      ↔ wrap64 (((xs.filter (2 ^ 63 ≤ ·)).flatMap (missing e)).count i) = 0 := by
    intro i
    have href : (ofSamples M (withMissing e xs)).data i
        = wrap64 (xs.count i + (xs.flatMap (corrected e)).count i
          + ((xs.filter (2 ^ 63 ≤ ·)).flatMap (missing e)).count i) := by
      rw [Nat.add_assoc, ← count_missing_split, ← List.count_append]
      rfl
    rw [addCorrected_ofSamples_data M e he, href]
    constructor
    · intro h
      exact ((wrap64_add_left_cancel _ 0 _).mp h).symm
    · intro h
      exact (wrap64_add_left_cancel _ 0 _).mpr h.symm
  constructor
  · intro h
    refine ⟨(withMissing_min_iff e he xs hxs).mp ?_, fun i => (hcell i).mp (by rw [h])⟩
    have := congrArg Stats.min h
    rw [hmin] at this
    exact this
  · rintro ⟨hcov, hlarge⟩
    ext1
    · rw [addCorrected_ofSamples_count M e he, ← wrap64_add_wrap64, ← largeCancel_length e xs hlarge,
        wrap64_add_wrap64, ← List.length_append]
      rfl
    · exact hlim
    · rw [hmin]
      exact (withMissing_min_iff e he xs hxs).mpr hcov
    · rw [hmax]
      exact (withMissing_max e he xs).symm
    · funext i
      exact (hcell i).mpr (hlarge i)

/-- The correction of recorded samples returns, and what it returns agrees
    with recording the missing samples exactly when none of them is below
    every recorded one, those of samples past the signed range cancel, and
    the sums the mean is computed from keep it between the bounds. -/
theorem statsCorrect_agrees_iff (M e : Nat) (xs : List Nat) (hM : M < 2 ^ 64 - 1) (he : 0 < e)
    (he2 : 2 * e < 2 ^ 63) (hxs : ∀ x ∈ xs, x ≤ M) :
    ∃ h, Corrects (recordAll (statsAlloc M) xs) e h ∧
      (AgreesWithRecording M e xs h ↔
        Covered e xs ∧ LargeCancel e xs ∧ (xs ≠ [] → SumsFit (withMissing e xs))) := by
  have hlimit : wrap64 (M + 1) = M + 1 := wrap64_of_lt _ (by omega)
  have hrec : recordAll (statsAlloc M) xs = ofSamples M xs :=
    recordAll_alloc M xs (fun x hx => by have := hxs x hx; omega)
  have href : recordAll (statsAlloc M) (withMissing e xs) = ofSamples M (withMissing e xs) :=
    recordAll_alloc M _ (fun x hx => by have := withMissing_le e M he xs hxs x hx; omega)
  have hsmall : ∀ x ∈ xs, x ≤ uint64Max := fun x hx => by
    have := hxs x hx
    unfold uint64Max
    omega
  have hmax : (ofSamples M xs).max < 2 ^ 64 := by
    have hfold : (ofSamples M xs).max = xs.foldl max 0 := rfl
    rcases Samples.foldl_max_mem xs 0 with h | h
    · omega
    · have := hxs _ h
      omega
  refine ⟨addCorrected e (ofSamples M xs).data (ofSamples M xs) (correctRange (ofSamples M xs) e),
    ?_, ?_⟩
  · rw [hrec]
    exact statsCorrect_effect _ e he (by omega) (ofSamples_fits M xs) hmax
  · -- The cells agree exactly under the two conditions on the samples. The mean
    -- is a third, as it is computed from sums that wrap.
    have hsame := addCorrected_same_iff M e he xs hsmall
    constructor
    · intro h
      have heq := h.same
      rw [href] at heq
      rcases hsame.mp heq with ⟨hcov, hlarge⟩
      refine ⟨hcov, hlarge, fun hne => ?_⟩
      have hmean := h.mean hne
      rw [heq] at hmean
      exact (ofSamples_mean_between M _).mp hmean
    · rintro ⟨hcov, hlarge, hsums⟩
      rw [hsame.mpr ⟨hcov, hlarge⟩]
      exact
        { same := href.symm
          inside := fun i hi => (mem_cells _ i).mp
            (mem_cells_of_mem M _ i (mem_of_data_ne_zero M _ i hi))
          total := ofSamples_total M _
          mean := fun hne => (ofSamples_mean_between M _).mpr (hsums hne) }

/-- Two samples, one below every value missing behind the other. -/
theorem statsCorrect_agrees_two_ten :
    ∃ h, Corrects (recordAll (statsAlloc 20) [2, 10]) 3 h ∧
      (AgreesWithRecording 20 3 [2, 10] h ↔
        Covered 3 [2, 10] ∧ LargeCancel 3 [2, 10] ∧
          ([2, 10] ≠ [] → SumsFit (withMissing 3 [2, 10]))) :=
  statsCorrect_agrees_iff 20 3 [2, 10] (by decide) (by decide) (by decide) (by decide)

/-- A single sample of ten with an interval of three: seven and four are
    counted, and the minimum stays at ten. -/
theorem statsCorrect_loses_minimum :
    ∃ h, Corrects (recordAll (statsAlloc 20) [10]) 3 h ∧ h.data 4 = 1 ∧ h.min = 10 ∧
      (recordAll (statsAlloc 20) (withMissing 3 [10])).min = 4 ∧
        ¬ AgreesWithRecording 20 3 [10] h := by
  refine ⟨((statsCorrect (recordAll (statsAlloc 20) [10]) 3 5).getD (statsAlloc 20)),
    ⟨5, rfl⟩, by decide, by decide, by decide, fun h => ?_⟩
  have hmin := congrArg Stats.min h.same
  exact absurd hmin (by decide)

end Wrk
