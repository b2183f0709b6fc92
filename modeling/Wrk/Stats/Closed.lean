import Wrk.Stats.Percentile
import Mathlib.Order.Interval.Finset.Nat

/-!
# The Correction, Counter by Counter

What `stats_correct` leaves in each counter, as a sum over the counters before
the call, and what it writes on the way. The loops are run again with a log of
every write: the counter that was read, and the counter that was raised. Every
write is above the interval and below the counter read, and the counters are
read in increasing order, so a counter that has been raised is not read
afterwards.

## Main definitions

* `hidden`: The samples hidden from one counter.
* `Write`, `tracedCorrect`: The correction with a log of its writes.
* `ClosedForm`: What the correction leaves and writes.

## Theorems

* `tracedCorrect_fst`: The log does not change the result.
* `sum_missing_count`: Missing samples, counter by counter.
* `statsCorrect_closed`: The closed form.
-/

namespace Wrk

open Loop

/-- The samples that lie a positive number of intervals above a value. None is
    hidden from a value up to the interval. -/
def hidden (s : Stats) (e i : Nat) : Nat :=
  if e < i then
    ∑ k ∈ (Finset.Icc 1 s.max).filter (fun k => i + k * e ≤ s.max), s.data (i + k * e)
  else 0

/-! ### Writes -/

/-- A write of the inner loop: the counter the outer loop is at, and the
    counter that is raised. -/
structure Write where
  source : Nat
  cell : Nat
  deriving DecidableEq, Repr

/-- The body of the inner loop, with the log, oldest first. -/
def tracedBody (expected : Int) (n count : Nat) (x : (Stats × Int) × List Write) :
    (Stats × Int) × List Write :=
  (correctBody expected count x.1, x.2 ++ [⟨n, x.1.2.toNat⟩])

/-- One iteration of the outer loop. -/
def tracedAt (expected : Int) (fuel : Nat) (x : Stats × List Write) (n : Nat) :
    Option (Stats × List Write) :=
  (whileLoop (fun y => correctGuard expected (x.1.data n) y.1)
    (tracedBody expected n (x.1.data n)) fuel ((x.1, toInt64 n - expected), x.2)).map
      (fun y => (y.1.1, y.2))

/-- `stats_correct` with the log. -/
def tracedCorrect (s : Stats) (expected : Int) (fuel : Nat) : Option (Stats × List Write) :=
  (List.range' (correctStart expected) (s.max + 1 - correctStart expected)).foldlM
    (tracedAt expected fuel) (s, [])

theorem tracedAt_fst (expected : Int) (fuel : Nat) (x : Stats × List Write) (n : Nat) :
    (tracedAt expected fuel x n).map Prod.fst = correctAt expected fuel x.1 n := by
  -- The loop with the log keeps the state of the loop without.
  have hsame := whileLoop_simulates (correctGuard expected (x.1.data n))
    (correctBody expected (x.1.data n)) (fun y => correctGuard expected (x.1.data n) y.1)
    (tracedBody expected n (x.1.data n)) Prod.fst (fun _ => rfl) (fun _ => rfl) fuel
    ((x.1, toInt64 n - expected), x.2)
  rw [correctAt, ← hsame, tracedAt, Option.map_map, Option.map_map]
  rfl

/-- The log does not change what the correction returns. -/
theorem tracedCorrect_fst (s : Stats) (expected : Int) (fuel : Nat) :
    (tracedCorrect s expected fuel).map Prod.fst = statsCorrect s expected fuel := by
  have hfold : ∀ (l : List Nat) (x : Stats × List Write),
      (l.foldlM (tracedAt expected fuel) x).map Prod.fst =
        l.foldlM (correctAt expected fuel) x.1 := by
    intro l
    induction l with
    | nil => exact fun _ => rfl
    | cons n l ih =>
        intro x
        rw [List.foldlM_cons, List.foldlM_cons, ← tracedAt_fst expected fuel x n]
        cases tracedAt expected fuel x n with
        | none => rfl
        | some y => exact ih y
  exact hfold _ (s, [])

/-- The writes up to a counter: each above the interval and below the counter
    it was made for, which is not below one raised before. -/
structure Ordered (e n : Nat) (writes : List Write) : Prop where
  between : ∀ w ∈ writes, e < w.cell ∧ w.cell < w.source ∧ w.source ≤ n
  once : writes.Pairwise (fun w w' => w.cell < w'.source)

theorem ordered_mono (e n n' : Nat) (h : n ≤ n') (writes : List Write)
    (hw : Ordered e n writes) : Ordered e n' writes :=
  ⟨fun w hmem => ⟨(hw.between w hmem).1, (hw.between w hmem).2.1,
    Nat.le_trans (hw.between w hmem).2.2 h⟩, hw.once⟩

/-- One more write for the counter the outer loop is at. -/
theorem ordered_write (e n cell : Nat) (writes : List Write) (hw : Ordered e n writes)
    (hlo : e < cell) (hhi : cell < n) : Ordered e n (writes ++ [⟨n, cell⟩]) := by
  constructor
  · intro w hmem
    rcases List.mem_append.mp hmem with h | h
    · exact hw.between w h
    · rw [List.mem_singleton.mp h]
      exact ⟨hlo, hhi, Nat.le_refl n⟩
  · -- What was raised before lies below the counter read now.
    refine List.pairwise_append.mpr ⟨hw.once, List.pairwise_singleton _ _, ?_⟩
    intro w hmem w' hmem'
    rw [List.mem_singleton.mp hmem']
    have hbetween := hw.between w hmem
    change w.cell < n
    omega

/-- One iteration of the outer loop writes in order. -/
theorem tracedAt_ordered (e n fuel : Nat) (he : 0 < e) (hn : n < 2 ^ 63)
    (x y : Stats × List Write) (hx : Ordered e n x.2)
    (h : tracedAt e fuel x n = some y) : Ordered e n y.2 := by
  rcases Option.map_eq_some_iff.mp h with ⟨z, hz, hy⟩
  -- The index only falls, from one interval below the counter.
  have hinv := halts_invariant (fun y => correctGuard e (x.1.data n) y.1)
    (tracedBody e n (x.1.data n))
    (fun y : (Stats × Int) × List Write => y.1.2 ≤ n - e ∧ Ordered e n y.2)
    (fun y hI hguard => ?_) ((x.1, toInt64 n - e), x.2) z ?_ ⟨fuel, hz⟩
  · rw [← hy]
    exact hinv.1.2
  · simp only [correctGuard, Bool.and_eq_true, decide_eq_true_eq, gt_iff_lt] at hguard
    refine ⟨?_, ordered_write e n _ y.2 hI.2 ?_ ?_⟩
    · have hle := hI.1
      change y.1.2 - e ≤ n - e
      omega
    · have hlt := hguard.2
      omega
    · have hle := hI.1
      omega
  · refine ⟨?_, hx⟩
    rw [toInt64_of_lt n hn]

/-- The whole correction writes in order. -/
theorem foldlM_tracedAt_ordered (e fuel max : Nat) (he : 0 < e) (hmax : max < 2 ^ 63)
    (l : List Nat) (hl : l.Pairwise (· < ·)) (hb : ∀ n ∈ l, n ≤ max) (first : Nat)
    (hfirst : ∀ n ∈ l, first ≤ n) (hle : first ≤ max) (x y : Stats × List Write)
    (hx : Ordered e first x.2) (h : l.foldlM (tracedAt e fuel) x = some y) :
    Ordered e max y.2 := by
  induction l generalizing x first with
  | nil =>
      rw [List.foldlM_nil, Option.pure_def, Option.some.injEq] at h
      rw [← h]
      exact ordered_mono e first max hle _ hx
  | cons n l ih =>
      -- The counters are read in increasing order, so each bound holds for the next.
      rw [List.foldlM_cons] at h
      rcases Option.bind_eq_some_iff.mp h with ⟨z, hz, hrest⟩
      rcases List.pairwise_cons.mp hl with ⟨hlt, hl'⟩
      have hn := hb n List.mem_cons_self
      have hstep := tracedAt_ordered e n fuel he (by omega) x z
        (ordered_mono e first n (hfirst n List.mem_cons_self) _ hx) hz
      exact ih hl' (fun m hm => hb m (List.mem_cons_of_mem n hm)) n
        (fun m hm => Nat.le_of_lt (hlt m hm)) hn z hstep hrest

/-! ### Sums -/

theorem missing_nodup (e x : Nat) (he : 0 < e) : (missing e x).Nodup := by
  refine List.Nodup.map_on (fun j hj k hk hjk => ?_) List.nodup_range
  rw [List.mem_range] at hj hk
  -- Both are within the range, so neither subtraction stops at zero.
  have hle : (max j k + 2) * e ≤ x - 1 := (Nat.le_div_iff_mul_le he).mp (by omega)
  have hj' : (j + 1) * e ≤ (max j k + 2) * e := Nat.mul_le_mul_right e (by omega)
  have hk' : (k + 1) * e ≤ (max j k + 2) * e := Nat.mul_le_mul_right e (by omega)
  have hmul : (j + 1) * e = (k + 1) * e := by omega
  have := Nat.eq_of_mul_eq_mul_right he hmul
  omega

/-- Summing over the counters read what each adds to one counter is summing
    the counters a positive number of intervals above it. -/
theorem sum_missing_count (s : Stats) (e i : Nat) (he : 0 < e) :
    ∑ n ∈ Finset.Icc (2 * e) s.max, s.data n * (missing e n).count i = hidden s e i := by
  unfold hidden
  split_ifs with hi
  · let K := (Finset.Icc 1 s.max).filter (fun k => i + k * e ≤ s.max)
    -- Each number of intervals is another counter.
    have hinj : ∀ k ∈ K, ∀ k' ∈ K, i + k * e = i + k' * e → k = k' :=
      fun k _ k' _ h => Nat.eq_of_mul_eq_mul_right he (by omega)
    have hmem : ∀ n, n ∈ K.image (fun k => i + k * e) ↔ n ≤ s.max ∧ i ∈ missing e n := by
      intro n
      simp only [K, Finset.mem_image, Finset.mem_filter, Finset.mem_Icc]
      rw [mem_missing e n i he]
      constructor
      · rintro ⟨k, ⟨⟨hk, _⟩, hle⟩, rfl⟩
        exact ⟨hle, hi, k, hk, rfl⟩
      · rintro ⟨hle, _, k, hk, rfl⟩
        have hke : k ≤ k * e := Nat.le_mul_of_pos_right k he
        exact ⟨k, ⟨⟨hk, by omega⟩, hle⟩, rfl⟩
    have hsub : K.image (fun k => i + k * e) ⊆ Finset.Icc (2 * e) s.max := by
      intro n hn
      rcases (hmem n).mp hn with ⟨hle, hmiss⟩
      rcases (mem_missing e n i he).mp hmiss with ⟨_, k, hk, rfl⟩
      have hke : 1 * e ≤ k * e := Nat.mul_le_mul_right e hk
      rw [Finset.mem_Icc]
      omega
    -- Only those counters add anything, and each of them once.
    calc ∑ n ∈ Finset.Icc (2 * e) s.max, s.data n * (missing e n).count i
        = ∑ n ∈ K.image (fun k => i + k * e), s.data n * (missing e n).count i := by
          refine (Finset.sum_subset hsub fun n hn habsent => ?_).symm
          have hno : i ∉ missing e n := fun h =>
            habsent ((hmem n).mpr ⟨(Finset.mem_Icc.mp hn).2, h⟩)
          rw [List.count_eq_zero_of_not_mem hno, Nat.mul_zero]
      _ = ∑ n ∈ K.image (fun k => i + k * e), s.data n := by
          refine Finset.sum_congr rfl fun n hn => ?_
          rw [List.count_eq_one_of_mem (missing_nodup e n he) ((hmem n).mp hn).2, Nat.mul_one]
      _ = ∑ k ∈ K, s.data (i + k * e) := Finset.sum_image hinj
  · refine Finset.sum_eq_zero fun n _ => ?_
    have habsent : i ∉ missing e n := fun h => hi (missing_lt e n i he h).1
    rw [List.count_eq_zero_of_not_mem habsent, Nat.mul_zero]

/-- The counters the outer loop visits, below the sign bit. -/
theorem sum_correctRange_missing (s : Stats) (e : Nat) (hmax : s.max < 2 ^ 63)
    (f : List Nat → Nat) :
    ((correctRange s e).map (fun n => s.data n * f (corrected e n))).sum =
      ∑ n ∈ Finset.Icc (2 * e) s.max, s.data n * f (missing e n) := by
  -- The loop's range is the interval, and below the sign bit its index is exact.
  have hrange : (correctRange s e).toFinset = Finset.Icc (2 * e) s.max := by
    ext n
    rw [List.mem_toFinset, correctRange, List.mem_range'_1, Finset.mem_Icc]
    omega
  have hnodup : (correctRange s e).Nodup := List.nodup_range'
  rw [← List.sum_toFinset _ hnodup, hrange]
  refine Finset.sum_congr rfl fun n hn => ?_
  have hle := (Finset.mem_Icc.mp hn).2
  rw [corrected, if_pos (by omega)]

/-- The number of writes of a counter's size is the number of samples hidden
    from all counters together. -/
theorem sum_missing_length (s : Stats) (e : Nat) (he : 0 < e) (hlimit : s.max < s.limit) :
    ∑ n ∈ Finset.Icc (2 * e) s.max, s.data n * (missing e n).length =
      ∑ i ∈ Finset.range s.limit, hidden s e i := by
  -- Count each missing sample at its value, and sum over the values first.
  calc ∑ n ∈ Finset.Icc (2 * e) s.max, s.data n * (missing e n).length
      = ∑ n ∈ Finset.Icc (2 * e) s.max, ∑ i ∈ Finset.range s.limit,
          s.data n * (missing e n).count i := by
        refine Finset.sum_congr rfl fun n hn => ?_
        have hlen := Samples.sum_count_mul (Finset.range s.limit) (missing e n) (fun _ => 1)
          fun m hm _ => by
            have hlt := (missing_lt e n m he hm).2
            have hle := (Finset.mem_Icc.mp hn).2
            rw [Finset.mem_range]
            omega
        simp only [Nat.mul_one, List.map_const', List.sum_replicate, nsmul_eq_mul, Nat.cast_id]
          at hlen
        rw [← Finset.mul_sum, hlen]
    _ = ∑ i ∈ Finset.range s.limit, ∑ n ∈ Finset.Icc (2 * e) s.max,
          s.data n * (missing e n).count i := Finset.sum_comm
    _ = ∑ i ∈ Finset.range s.limit, hidden s e i :=
        Finset.sum_congr rfl fun i _ => sum_missing_count s e i he

/-! ### The closed form -/

/-- What the correction leaves, and what it writes. -/
structure ClosedForm (s : Stats) (e : Nat) (h : Stats) (writes : List Write) : Prop where
  data : ∀ i, h.data i = s.data i + hidden s e i
  count : (h.count : Int) - s.count =
    ∑ i ∈ Finset.range s.limit, ((h.data i : Int) - s.data i)
  limit : h.limit = s.limit
  min : h.min = s.min
  max : h.max = s.max
  between : ∀ w ∈ writes, e < w.cell ∧ w.cell < s.max
  once : ∀ w ∈ writes, w.cell < w.source
  unread : writes.Pairwise (fun w w' => w.cell < w'.source)

/-- Nothing is hidden from the maximum on. -/
theorem hidden_of_max_le (s : Stats) (e i : Nat) (he : 0 < e) (hmax : s.max ≤ i) :
    hidden s e i = 0 := by
  unfold hidden
  split_ifs with hi
  · refine Finset.sum_eq_zero fun k hk => ?_
    rcases Finset.mem_filter.mp hk with ⟨hmem, hle⟩
    have hpos : 0 < k * e := Nat.mul_pos (Finset.mem_Icc.mp hmem).1 he
    omega
  · rfl

/-- The correction of recorded samples returns the closed form, as long as the
    signed index and the counters have room. -/
theorem statsCorrect_closed (M e : Nat) (xs : List Nat) (he : 0 < e) (he2 : 2 * e < 2 ^ 63)
    (hmax : (recordAll (statsAlloc M) xs).max < 2 ^ 63)
    (hdata : ∀ i, (recordAll (statsAlloc M) xs).data i +
      hidden (recordAll (statsAlloc M) xs) e i < 2 ^ 64)
    (hcount : (recordAll (statsAlloc M) xs).count +
      ∑ i ∈ Finset.range (recordAll (statsAlloc M) xs).limit,
        hidden (recordAll (statsAlloc M) xs) e i < 2 ^ 64) :
    ∃ fuel h writes, tracedCorrect (recordAll (statsAlloc M) xs) e fuel = some (h, writes) ∧
      statsCorrect (recordAll (statsAlloc M) xs) e fuel = some h ∧
        ClosedForm (recordAll (statsAlloc M) xs) e h writes := by
  have hfits : (recordAll (statsAlloc M) xs).Fits := seen_fits M xs _ Seen.recorded
  have hlimit := recordAll_max M xs
  generalize recordAll (statsAlloc M) xs = s at *
  rcases statsCorrect_effect s e he (by omega) hfits (by omega) with ⟨fuel, hf⟩
  have htraced := tracedCorrect_fst s e fuel
  rw [hf, Option.map_eq_some_iff] at htraced
  rcases htraced with ⟨⟨h, writes⟩, ht, hh⟩
  refine ⟨fuel, h, writes, ht, hf.trans (congrArg some hh.symm), ?_⟩
  have hh' : h = addCorrected e s.data s (correctRange s e) := hh
  rcases addCorrected_bounds e s.data s (correctRange s e) with ⟨hlim, hmin, hmx⟩
  -- Each counter has room, so nothing wraps.
  have hcell : ∀ i, h.data i = s.data i + hidden s e i := by
    intro i
    rw [hh', addCorrected_data e s.data s _ hfits i,
      sum_correctRange_missing s e hmax (fun l => l.count i), sum_missing_count s e i he]
    exact wrap64_of_lt _ (hdata i)
  have hsum : ∑ n ∈ Finset.Icc (2 * e) s.max, s.data n * (missing e n).length =
      ∑ i ∈ Finset.range s.limit, hidden s e i := by
    rcases hlimit with hzero | hlt
    · -- Nothing recorded: there is nothing to correct either.
      rw [Finset.sum_eq_zero fun i _ => hidden_of_max_le s e i he (by omega)]
      refine Finset.sum_eq_zero fun n hn => ?_
      have hle := (Finset.mem_Icc.mp hn)
      omega
    · exact sum_missing_length s e he hlt
  have htotal : h.count = s.count + ∑ i ∈ Finset.range s.limit, hidden s e i := by
    rw [hh', addCorrected_count e s.data s _ hfits,
      sum_correctRange_missing s e hmax List.length, hsum]
    exact wrap64_of_lt _ hcount
  -- The log starts empty, and the loop reads the counters in order.
  have hordered : Ordered e s.max writes := by
    refine foldlM_tracedAt_ordered e fuel s.max he hmax (List.range' (2 * e) (s.max + 1 - 2 * e))
      List.pairwise_lt_range' (fun n hn => ?_) 0 (fun _ _ => Nat.zero_le _) (Nat.zero_le _) (s, [])
      (h, writes) ⟨fun w hw => absurd hw List.not_mem_nil, List.Pairwise.nil⟩ ?_
    · rw [List.mem_range'_1] at hn
      omega
    · rw [← correctStart_eq e (by omega)]
      exact ht
  refine ⟨hcell, ?_, by rw [hh', hlim], by rw [hh', hmin], by rw [hh', hmx], fun w hw => ?_,
    fun w hw => (hordered.between w hw).2.1, hordered.once⟩
  · rw [htotal]
    push_cast
    rw [add_sub_cancel_left]
    refine Finset.sum_congr rfl fun i _ => ?_
    rw [hcell i]
    push_cast
    rw [add_sub_cancel_left]
  · rcases hordered.between w hw with ⟨hlo, hhi, hsource⟩
    exact ⟨hlo, by omega⟩

/-- The samples two and ten with an interval of three. -/
theorem statsCorrect_closed_two_ten :
    ∃ fuel h writes, tracedCorrect (recordAll (statsAlloc 20) [2, 10]) 3 fuel = some (h, writes) ∧
      statsCorrect (recordAll (statsAlloc 20) [2, 10]) 3 fuel = some h ∧
        ClosedForm (recordAll (statsAlloc 20) [2, 10]) 3 h writes := by
  refine statsCorrect_closed 20 3 [2, 10] (by decide) (by decide) (by decide) (fun i => ?_) ?_
  · by_cases hi : 10 ≤ i
    · rw [hidden_of_max_le _ 3 i (by decide) hi, Nat.add_zero]
      exact (recordAll_fits _ [2, 10] ⟨fun _ => Nat.two_pow_pos 64, Nat.two_pow_pos 64⟩).1 i
    · have hall : ∀ i < 10, (recordAll (statsAlloc 20) [2, 10]).data i +
          hidden (recordAll (statsAlloc 20) [2, 10]) 3 i < 2 ^ 64 := by decide +kernel
      exact hall i (by omega)
  · decide +kernel

end Wrk
