import Wrk.Stats.Correct
import Mathlib.Data.Rat.Floor
import Mathlib.Tactic.FieldSimp

/-!
# Percentiles

When the percentiles of a histogram are a monotone distribution of its
samples. The rank of a percentile `p` is the least integer greater than
`p * count / 100`, so a percentile is reached when some running total over
the scanned range exceeds `p * count / 100`. Where it is reached, the index
returned is one whose counter is not zero, and a greater percentile is
reached no earlier. Where it is not, the result is zero whatever was
recorded.

The running total can fall short in two ways. At `p = 100` the rank is one
more than the number of samples. After a correction, `count` includes the
samples below `min`, which the scan never adds.

## Main definitions

* `Seen`: The histograms a report or a script can look at.
* `Reached`: Some running total exceeds the share of the samples asked for.
* `Distribution`: Two percentiles are ordered and both are samples.

## Theorems

* `percentileRank_le_iff`: A total reaches the rank exactly when it exceeds
  the share.
* `percentileScan_reached`: The scan stops at the first such index.
* `reached_recorded_iff`: Without correction, all below 100 is reached.
* `reached_corrected_iff`: After one, the samples from the minimum on are.
* `statsPercentile_distribution_iff`: When two percentiles are ordered samples.
* `statsPercentile_hundred`: The hundredth percentile of one sample is zero.
-/

namespace Wrk

/-- The histograms a report or a script can look at: the samples `xs`
    recorded on a fresh histogram, and then possibly corrected. -/
inductive Seen (M : Nat) (xs : List Nat) : Stats → Prop
  | recorded : Seen M xs (recordAll (statsAlloc M) xs)
  | corrected (e : Int) (h : Stats) (he : 0 < e) (he' : e < 2 ^ 63)
      (hc : Corrects (recordAll (statsAlloc M) xs) e h) : Seen M xs h

/-- Running totals of the counters over a list of indices. -/
def totals (s : Stats) : Nat → List Nat → List Nat
  | _, [] => []
  | total, i :: is => wrap64 (total + s.data i) :: totals s (wrap64 (total + s.data i)) is

/-- Some running total over the scanned range exceeds `p` percent of the
    number of samples. -/
def Reached (s : Stats) (p : Rat) : Prop := ∃ t ∈ totals s 0 s.cells, p * s.count < 100 * t

/-- Two percentiles are ordered and both are values that were counted. -/
structure Distribution (s : Stats) (p q : Rat) : Prop where
  mono : statsPercentile s p ≤ statsPercentile s q
  lower : s.data (statsPercentile s p) ≠ 0
  upper : s.data (statsPercentile s q) ≠ 0

theorem percentileRank_eq (s : Stats) (p : Rat) (hp : 0 ≤ p) :
    percentileRank s p = ⌊p / 100 * s.count⌋.toNat + 1 := by
  have hshare : 0 ≤ p / 100 * s.count := by positivity
  have hfloor : 0 ≤ ⌊p / 100 * s.count⌋ := Int.floor_nonneg.mpr hshare
  rw [percentileRank, roundHalfAway, if_pos (by linarith), add_assoc,
    show (1 / 2 + 1 / 2 : Rat) = 1 by norm_num, Int.floor_add_one]
  omega

/-- A total reaches the rank exactly when it exceeds the share of samples. -/
theorem percentileRank_le_iff (s : Stats) (p : Rat) (hp : 0 ≤ p) (total : Nat) :
    percentileRank s p ≤ total ↔ p * s.count < 100 * total := by
  have hshare : 0 ≤ p / 100 * s.count := by positivity
  have hfloor : 0 ≤ ⌊p / 100 * s.count⌋ := Int.floor_nonneg.mpr hshare
  have hlt : ⌊p / 100 * s.count⌋ < (total : Int) ↔ p / 100 * s.count < total := by
    rw [Int.floor_lt]
    norm_cast
  have hscale : p / 100 * s.count < total ↔ p * s.count < 100 * total := by
    constructor
    · intro h
      linarith
    · intro h
      linarith
  rw [percentileRank_eq s p hp, ← hscale, ← hlt]
  omega

theorem percentileScan_none (s : Stats) (rank total : Nat) (l : List Nat)
    (h : ∀ t ∈ totals s total l, t < rank) : percentileScan s rank total l = 0 := by
  induction l generalizing total with
  | nil => rfl
  | cons i is ih =>
      have hi := h _ List.mem_cons_self
      rw [percentileScan, if_neg (by omega)]
      exact ih _ (fun t ht => h t (List.mem_cons_of_mem _ ht))

/-- When some running total reaches the rank, the scan returns a counted
    index of the list. Reaching the rank for the first time means the total
    changed, so the counter there is not zero. -/
theorem percentileScan_reached (s : Stats) (rank total : Nat) (l : List Nat)
    (hstart : total < rank) (hlt : total < 2 ^ 64) (h : ∃ t ∈ totals s total l, rank ≤ t) :
    percentileScan s rank total l ∈ l ∧ s.data (percentileScan s rank total l) ≠ 0 := by
  induction l generalizing total with
  | nil =>
      rcases h with ⟨t, ht, _⟩
      exact absurd ht List.not_mem_nil
  | cons i is ih =>
      by_cases hi : rank ≤ wrap64 (total + s.data i)
      · rw [percentileScan, if_pos hi]
        refine ⟨List.mem_cons_self, fun hz => ?_⟩
        rw [hz, Nat.add_zero, wrap64_of_lt _ hlt] at hi
        omega
      · have hrest : ∃ t ∈ totals s (wrap64 (total + s.data i)) is, rank ≤ t := by
          rcases h with ⟨t, ht, hr⟩
          rcases List.mem_cons.mp ht with rfl | ht
          · exact absurd hr hi
          · exact ⟨t, ht, hr⟩
        rw [percentileScan, if_neg hi]
        rcases ih _ (by omega) (wrap64_lt _) hrest with ⟨hmem, hdata⟩
        exact ⟨List.mem_cons_of_mem _ hmem, hdata⟩

/-- A greater rank that is reached is reached no earlier, along increasing
    indices. -/
theorem percentileScan_mono (s : Stats) (rank rank' total : Nat) (l : List Nat)
    (hl : l.Pairwise (· < ·)) (hr : rank ≤ rank') (hstart : total < rank) (hlt : total < 2 ^ 64)
    (h : ∃ t ∈ totals s total l, rank' ≤ t) :
    percentileScan s rank total l ≤ percentileScan s rank' total l := by
  induction l generalizing total with
  | nil => exact le_refl 0
  | cons i is ih =>
      rcases List.pairwise_cons.mp hl with ⟨hi, his⟩
      by_cases h' : rank' ≤ wrap64 (total + s.data i)
      · rw [percentileScan, percentileScan, if_pos (by omega), if_pos h']
      · have hrest : ∃ t ∈ totals s (wrap64 (total + s.data i)) is, rank' ≤ t := by
          rcases h with ⟨t, ht, hr'⟩
          rcases List.mem_cons.mp ht with rfl | ht
          · exact absurd hr' h'
          · exact ⟨t, ht, hr'⟩
        have hin := (percentileScan_reached s rank' (wrap64 (total + s.data i)) is (by omega)
          (wrap64_lt _) hrest).1
        rw [percentileScan, percentileScan, if_neg h']
        by_cases h0 : rank ≤ wrap64 (total + s.data i)
        · rw [if_pos h0]
          exact Nat.le_of_lt (hi _ hin)
        · rw [if_neg h0]
          exact ih _ his (by omega) (wrap64_lt _) hrest

theorem correctAt_fits (e : Int) (fuel : Nat) (s t : Stats) (n : Nat) (hs : s.Fits)
    (h : correctAt e fuel s n = some t) : t.Fits := by
  simp only [correctAt, Option.map_eq_some_iff] at h
  rcases h with ⟨x, hx, rfl⟩
  refine (Loop.halts_invariant _ _ (fun x : Stats × Int => x.1.Fits) ?_ _ x hs ⟨fuel, hx⟩).1
  rintro ⟨u, m⟩ hu _
  refine ⟨fun v => ?_, wrap64_lt _⟩
  simp only [correctBody, Stats.addCount, Stats.addData]
  by_cases hv : v = m.toNat
  · rw [if_pos hv]
    exact wrap64_lt _
  · rw [if_neg hv]
    exact hu.1 v

theorem corrects_fits (s : Stats) (e : Int) (h : Stats) (hs : s.Fits) (hc : Corrects s e h) :
    h.Fits := by
  rcases hc with ⟨fuel, hc⟩
  rw [statsCorrect] at hc
  generalize List.range' (correctStart e) (s.max + 1 - correctStart e) = l at hc
  induction l generalizing s with
  | nil =>
      rw [List.foldlM_nil, Option.pure_def, Option.some.injEq] at hc
      rwa [← hc]
  | cons n l ih =>
      simp only [List.foldlM_cons, Option.bind_eq_bind, Option.bind_eq_some_iff] at hc
      rcases hc with ⟨u, hu, hrest⟩
      exact ih u (correctAt_fits e fuel s u n hs hu) hrest

theorem recordAll_fits (s : Stats) (xs : List Nat) (hs : s.Fits) : (recordAll s xs).Fits := by
  induction xs using List.reverseRecOn with
  | nil => exact hs
  | append_singleton xs x ih =>
      rw [recordAll_concat]
      by_cases hx : x < (recordAll s xs).limit
      · rw [statsRecord_accepted _ x hx]
        refine ⟨fun v => ?_, wrap64_lt _⟩
        by_cases hv : v = x
        · simp only [hv, if_true, wrap64_lt]
        · simp only [hv, if_false]
          exact ih.1 v
      · rw [statsRecord_rejected _ x (by omega)]
        exact ih

theorem seen_fits (M : Nat) (xs : List Nat) (h : Stats) (hs : Seen M xs h) : h.Fits := by
  have hrec : (recordAll (statsAlloc M) xs).Fits :=
    recordAll_fits _ xs ⟨fun _ => Nat.two_pow_pos 64, Nat.two_pow_pos 64⟩
  cases hs with
  | recorded => exact hrec
  | corrected e _ _ _ hc => exact corrects_fits _ e h hrec hc

theorem statsPercentile_not_reached (s : Stats) (p : Rat) (hp : 0 ≤ p) (h : ¬ Reached s p) :
    statsPercentile s p = 0 := by
  refine percentileScan_none s _ 0 s.cells (fun t ht => ?_)
  by_contra hc
  exact h ⟨t, ht, (percentileRank_le_iff s p hp t).mp (by omega)⟩

theorem reached_rank (s : Stats) (p : Rat) (hp : 0 ≤ p) (h : Reached s p) :
    ∃ t ∈ totals s 0 s.cells, percentileRank s p ≤ t := by
  rcases h with ⟨t, ht, hlt⟩
  exact ⟨t, ht, (percentileRank_le_iff s p hp t).mpr hlt⟩

theorem percentileRank_pos (s : Stats) (p : Rat) (hp : 0 ≤ p) : 0 < percentileRank s p := by
  rw [percentileRank_eq s p hp]
  omega

theorem statsPercentile_reached (s : Stats) (p : Rat) (hp : 0 ≤ p) (h : Reached s p) :
    statsPercentile s p ∈ s.cells ∧ s.data (statsPercentile s p) ≠ 0 :=
  percentileScan_reached s _ 0 s.cells (percentileRank_pos s p hp) (by decide) (reached_rank s p hp h)

/-- Without wrapping, the running totals increase to the sum of the counters. -/
theorem totals_le (s : Stats) (total : Nat) (l : List Nat)
    (h : total + (l.map s.data).sum < 2 ^ 64) :
    ∀ t ∈ totals s total l, t ≤ total + (l.map s.data).sum := by
  induction l generalizing total with
  | nil => exact fun t ht => absurd ht List.not_mem_nil
  | cons i is ih =>
      rw [List.map_cons, List.sum_cons, ← Nat.add_assoc] at h ⊢
      have hi : wrap64 (total + s.data i) = total + s.data i := wrap64_of_lt _ (by omega)
      intro t ht
      rw [totals, hi] at ht
      rcases List.mem_cons.mp ht with rfl | ht
      · omega
      · exact ih _ h t ht

theorem sum_mem_totals (s : Stats) (total : Nat) (l : List Nat) (hl : l ≠ [])
    (h : total + (l.map s.data).sum < 2 ^ 64) :
    total + (l.map s.data).sum ∈ totals s total l := by
  induction l generalizing total with
  | nil => exact absurd rfl hl
  | cons i is ih =>
      rw [List.map_cons, List.sum_cons, ← Nat.add_assoc] at h ⊢
      have hi : wrap64 (total + s.data i) = total + s.data i := wrap64_of_lt _ (by omega)
      rw [totals, hi]
      by_cases his : is = []
      · rw [his, List.map_nil, List.sum_nil]
        exact List.mem_cons_self
      · exact List.mem_cons_of_mem _ (ih _ his h)

/-- Without wrapping, a percentile is reached exactly when the samples in the
    scanned range exceed its share. -/
theorem reached_iff (s : Stats) (p : Rat) (hne : s.cells ≠ [])
    (hsum : (s.cells.map s.data).sum < 2 ^ 64) :
    Reached s p ↔ p * s.count < 100 * (s.cells.map s.data).sum := by
  have hsum' : 0 + (s.cells.map s.data).sum < 2 ^ 64 := by omega
  constructor
  · rintro ⟨t, ht, hlt⟩
    have hle := totals_le s 0 s.cells hsum' t ht
    have : (t : Rat) ≤ (s.cells.map s.data).sum := by
      rw [Nat.zero_add] at hle
      exact_mod_cast hle
    linarith
  · intro h
    refine ⟨_, sum_mem_totals s 0 s.cells hne hsum', ?_⟩
    rwa [Nat.zero_add]

theorem sum_indicator (ys : List Nat) (a : Nat) :
    (ys.map (fun y => if a ≤ y then 1 else 0)).sum = ys.countP (a ≤ ·) := by
  induction ys with
  | nil => rfl
  | cons y ys ih =>
      rw [List.map_cons, List.sum_cons, ih, List.countP_cons]
      by_cases hy : a ≤ y
      · rw [if_pos hy, if_pos (by simp only [hy, decide_true]), Nat.add_comm]
      · rw [if_neg hy, if_neg (by simp only [hy, decide_false, Bool.false_eq_true,
          not_false_eq_true]), Nat.add_zero, Nat.zero_add]

/-- Of a histogram that counts the samples `ys`, with any bounds, the scanned
    range holds the samples between the bounds. -/
theorem sum_cells_countP (s : Stats) (ys : List Nat) (hlen : ys.length < 2 ^ 64)
    (hdata : ∀ i, s.data i = wrap64 (ys.count i)) (hmax : ∀ y ∈ ys, y ≤ s.max) :
    (s.cells.map s.data).sum = ys.countP (s.min ≤ ·) := by
  have hcount : ∀ i, s.data i = ys.count i := fun i => by
    have : ys.count i ≤ ys.length := List.count_le_length
    rw [hdata, wrap64_of_lt _ (by omega)]
  rw [← List.sum_toFinset _ (cells_nodup s)]
  have hind : ∀ v ∈ s.cells.toFinset,
      s.data v = ys.count v * (if s.min ≤ v then 1 else 0) := by
    intro v hv
    rw [List.mem_toFinset, mem_cells] at hv
    rw [hcount, if_pos hv.1, Nat.mul_one]
  rw [Finset.sum_congr rfl hind, Samples.sum_count_mul _ ys (fun v => if s.min ≤ v then 1 else 0)]
  · exact sum_indicator ys s.min
  · intro y hy hne
    rw [List.mem_toFinset, mem_cells]
    refine ⟨?_, hmax y hy⟩
    by_contra hc
    exact hne (if_neg hc)

/-- What was recorded is reached below one hundred, and not at it. -/
theorem reached_recorded_iff (M : Nat) (xs : List Nat) (hM : M < 2 ^ 64 - 1) (hxs : ∀ x ∈ xs, x ≤ M)
    (hne : xs ≠ []) (hlen : xs.length < 2 ^ 64) (p : Rat) :
    Reached (recordAll (statsAlloc M) xs) p ↔ p < 100 := by
  have hlimit : wrap64 (M + 1) = M + 1 := wrap64_of_lt _ (by omega)
  rw [recordAll_alloc M xs (fun x hx => by have := hxs x hx; omega)]
  have hsum : ((ofSamples M xs).cells.map (ofSamples M xs).data).sum = xs.length := by
    rw [sum_cells_countP _ xs hlen (fun _ => rfl) (fun y hy => Samples.le_foldl_max xs 0 y hy),
      List.countP_eq_length]
    intro x hx
    exact decide_eq_true (Samples.foldl_min_le xs uint64Max x hx)
  have hcount : (ofSamples M xs).count = xs.length := wrap64_of_lt _ hlen
  have hcells : (ofSamples M xs).cells ≠ [] := by
    rcases List.exists_mem_of_ne_nil xs hne with ⟨x, hx⟩
    exact List.ne_nil_of_mem (mem_cells_of_mem M xs x hx)
  have hpos : (0 : Rat) < xs.length := by exact_mod_cast List.length_pos_iff.mpr hne
  rw [reached_iff _ p hcells (by omega), hsum, hcount]
  exact mul_lt_mul_iff_of_pos_right hpos

/-- After a correction only the samples from the recorded minimum on are
    reached, while the share is taken of all of them. -/
theorem reached_corrected_iff (M e : Nat) (xs : List Nat) (h : Stats) (hM : M < 2 ^ 63)
    (he : 0 < e) (he2 : 2 * e < 2 ^ 63) (hxs : ∀ x ∈ xs, x ≤ M) (hne : xs ≠ [])
    (hlen : (withMissing e xs).length < 2 ^ 64)
    (hc : Corrects (recordAll (statsAlloc M) xs) e h) (p : Rat) :
    Reached h p ↔ p * (withMissing e xs).length
      < 100 * (withMissing e xs).countP (xs.foldl min uint64Max ≤ ·) := by
  have hlimit : wrap64 (M + 1) = M + 1 := wrap64_of_lt _ (by omega)
  have hmax : (ofSamples M xs).max < 2 ^ 64 := by
    have hfold : (ofSamples M xs).max = xs.foldl max 0 := rfl
    rcases Samples.foldl_max_mem xs 0 with h0 | h0
    · omega
    · have := hxs _ h0
      omega
  rw [recordAll_alloc M xs (fun x hx => by have := hxs x hx; omega)] at hc
  rw [corrects_unique _ _ _ _ hc
    (statsCorrect_effect _ e he (by omega) (ofSamples_fits M xs) hmax)]
  rcases addCorrected_bounds e (ofSamples M xs).data (ofSamples M xs)
    (correctRange (ofSamples M xs) e) with ⟨_, hmin, hmax'⟩
  -- No sample is past the signed range, so everything missing is corrected.
  have hall : xs.flatMap (corrected e) = xs.flatMap (missing e) := by
    refine List.flatMap_congr (fun x hx => ?_)
    have := hxs x hx
    rw [corrected, if_pos (by omega)]
  have hdata : ∀ i, (addCorrected e (ofSamples M xs).data (ofSamples M xs)
      (correctRange (ofSamples M xs) e)).data i = wrap64 ((withMissing e xs).count i) := by
    intro i
    rw [addCorrected_ofSamples_data M e he, hall, ← List.count_append]
    rfl
  have hcount : (addCorrected e (ofSamples M xs).data (ofSamples M xs)
      (correctRange (ofSamples M xs) e)).count = (withMissing e xs).length := by
    rw [addCorrected_ofSamples_count M e he, hall, ← List.length_append]
    exact wrap64_of_lt _ hlen
  have hsum := sum_cells_countP _ (withMissing e xs) hlen hdata (fun y hy => by
    rw [hmax']
    have := Samples.le_foldl_max (withMissing e xs) 0 y hy
    rwa [withMissing_max e he xs] at this)
  rw [hmin] at hsum
  have hcells : (addCorrected e (ofSamples M xs).data (ofSamples M xs)
      (correctRange (ofSamples M xs) e)).cells ≠ [] := by
    rcases List.exists_mem_of_ne_nil xs hne with ⟨x, hx⟩
    refine List.ne_nil_of_mem ((mem_cells _ x).mpr ?_)
    rw [hmin, hmax']
    exact (mem_cells _ x).mp (mem_cells_of_mem M xs x hx)
  have hle : (withMissing e xs).countP ((ofSamples M xs).min ≤ ·) ≤ (withMissing e xs).length :=
    List.countP_le_length
  rw [reached_iff _ p hcells (by omega), hsum, hcount]
  rfl

theorem reached_of_le (s : Stats) (p q : Rat) (hpq : p ≤ q) (h : Reached s q) : Reached s p := by
  rcases h with ⟨t, ht, hlt⟩
  refine ⟨t, ht, lt_of_le_of_lt ?_ hlt⟩
  exact mul_le_mul_of_nonneg_right hpq (by positivity)

/-- A reached percentile is zero exactly when zero is the least value and
    alone exceeds the share. -/
theorem statsPercentile_eq_zero_iff (s : Stats) (hs : s.Fits) (p : Rat) (hp : 0 ≤ p)
    (h : Reached s p) :
    statsPercentile s p = 0 ↔ s.min = 0 ∧ p * s.count < 100 * s.data 0 := by
  have hhead : s.min = 0 → s.cells = 0 :: List.range' 1 s.max := by
    intro hmin
    rw [Stats.cells, hmin, Nat.sub_zero, List.range'_succ]
  have hzero : wrap64 (0 + s.data 0) = s.data 0 := by
    rw [Nat.zero_add, wrap64_of_lt _ (hs.1 0)]
  constructor
  · intro h0
    have hmem := (statsPercentile_reached s p hp h).1
    have hmin : s.min = 0 := by
      rw [h0, mem_cells] at hmem
      omega
    refine ⟨hmin, ?_⟩
    by_contra hc
    -- The scan passes index zero, so it stops at a positive one.
    have hpass : ¬ percentileRank s p ≤ s.data 0 := fun hle =>
      hc ((percentileRank_le_iff s p hp _).mp hle)
    rcases reached_rank s p hp h with ⟨t, ht, hr⟩
    rw [hhead hmin, totals, hzero] at ht
    have hrest : t ∈ totals s (s.data 0) (List.range' 1 s.max) := by
      rcases List.mem_cons.mp ht with rfl | ht
      · exact absurd hr hpass
      · exact ht
    have hin := (percentileScan_reached s (percentileRank s p) (s.data 0) (List.range' 1 s.max)
      (by omega) (hs.1 0) ⟨t, hrest, hr⟩).1
    rw [statsPercentile, hhead hmin, percentileScan, hzero, if_neg hpass] at h0
    rw [h0, List.mem_range'_1] at hin
    omega
  · rintro ⟨hmin, hlt⟩
    rw [statsPercentile, hhead hmin, percentileScan, hzero,
      if_pos ((percentileRank_le_iff s p hp _).mpr hlt)]

/-- Two percentiles of a histogram someone can look at form a distribution of
    its samples exactly when the greater one is reached, or zero was counted
    and the smaller one is zero as well. -/
theorem statsPercentile_distribution_iff (M : Nat) (xs : List Nat) (h : Stats)
    (hseen : Seen M xs h) (p q : Rat) (hp : 0 ≤ p) (hpq : p ≤ q) :
    Distribution h p q ↔
      Reached h q ∨
        (h.data 0 ≠ 0 ∧ (¬ Reached h p ∨ (h.min = 0 ∧ p * h.count < 100 * h.data 0))) := by
  have hs := seen_fits M xs h hseen
  have hq : 0 ≤ q := le_trans hp hpq
  constructor
  · intro hd
    by_cases hrq : Reached h q
    · exact Or.inl hrq
    · have hqz := statsPercentile_not_reached h q hq hrq
      have hpz : statsPercentile h p = 0 := by
        have := hd.mono
        omega
      have hdata := hd.upper
      rw [hqz] at hdata
      refine Or.inr ⟨hdata, ?_⟩
      by_cases hrp : Reached h p
      · exact Or.inr ((statsPercentile_eq_zero_iff h hs p hp hrp).mp hpz)
      · exact Or.inl hrp
  · intro hc
    by_cases hrq : Reached h q
    · have hrp := reached_of_le h p q hpq hrq
      refine ⟨?_, (statsPercentile_reached h p hp hrp).2, (statsPercentile_reached h q hq hrq).2⟩
      refine percentileScan_mono h _ _ 0 h.cells List.pairwise_lt_range' ?_
        (percentileRank_pos h p hp) (by decide) (reached_rank h q hq hrq)
      -- A greater percentile asks for a greater rank.
      rw [percentileRank_le_iff h p hp]
      refine lt_of_le_of_lt (mul_le_mul_of_nonneg_right hpq (by positivity)) ?_
      exact (percentileRank_le_iff h q hq _).mp (le_refl _)
    · rcases hc with hc | ⟨hdata, hsmall⟩
      · exact absurd hc hrq
      · have hqz := statsPercentile_not_reached h q hq hrq
        have hpz : statsPercentile h p = 0 := by
          by_cases hrp : Reached h p
          · exact (statsPercentile_eq_zero_iff h hs p hp hrp).mpr
              (hsmall.resolve_left (not_not.mpr hrp))
          · exact statsPercentile_not_reached h p hp hrp
        exact ⟨by omega, by rwa [hpz], by rwa [hqz]⟩

/-- Three samples, the greatest of which hides three more: the lower quartile
    and the ninetieth percentile of all six. -/
theorem statsPercentile_distribution_corrected :
    ∃ h, Corrects (recordAll (statsAlloc 20) [1, 3, 9]) 2 h ∧ h.count = 6 ∧
      statsPercentile h 25 < statsPercentile h 90 ∧ Distribution h 25 90 := by
  refine ⟨(statsCorrect (recordAll (statsAlloc 20) [1, 3, 9]) 2 5).getD (statsAlloc 20), ⟨5, rfl⟩,
    by decide, by decide +kernel, ?_⟩
  exact (statsPercentile_distribution_iff 20 [1, 3, 9] _
    (.corrected 2 _ (by decide) (by decide) ⟨5, rfl⟩) 25 90 (by norm_num) (by norm_num)).mpr
      (Or.inl ⟨6, by decide +kernel, by decide +kernel⟩)

/-- The median of one recorded sample is that sample, and its hundredth
    percentile is zero, which was not recorded. -/
theorem statsPercentile_hundred :
    Seen 10 [1] (recordAll (statsAlloc 10) [1]) ∧
      statsPercentile (recordAll (statsAlloc 10) [1]) 50 = 1 ∧
      statsPercentile (recordAll (statsAlloc 10) [1]) 100 = 0 ∧
      ¬ Distribution (recordAll (statsAlloc 10) [1]) 50 100 := by
  have h50 : statsPercentile (recordAll (statsAlloc 10) [1]) 50 = 1 := by decide +kernel
  have h100 : statsPercentile (recordAll (statsAlloc 10) [1]) 100 = 0 := by decide +kernel
  refine ⟨Seen.recorded, h50, h100, fun h => ?_⟩
  have := h.mono
  rw [h50, h100] at this
  omega

end Wrk
