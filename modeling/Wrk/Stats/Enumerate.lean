import Wrk.Stats.Order

/-!
# Enumerating a Histogram

A script can go through the values of a histogram one by one: the length of
the object is the number of nonzero counters, and calling it with an index
finds the counter with that many nonzero ones before it. Both scan the same
range, and the second counts in the variable it returns the counter in.

Both numbers the script is given are passed through `lua_Number`. Up to
`2 ^ 53` that is exact, and the conversion is left out here.

## Main definitions

* `statsPopcount`, `statsValueAt`: The two scans.
* `scriptStatsLen`, `scriptStatsCall`: What a script calls.
* `enumerated`: The pairs a script goes through.
* `Enumeration`: They are the samples.

## Theorems

* `statsPopcount_eq`, `statsValueAt_eq`: Both scans see the nonzero counters.
* `enumeration_exact`: The pairs enumerate the samples.
* `enumeration_wraps`: They do not when a counter has wrapped.
-/

namespace Wrk

/-- `stats_popcount`. -/
def statsPopcount (s : Stats) : Nat :=
  s.cells.foldl (fun count i => if s.data i ≠ 0 then wrap64 (count + 1) else count) 0

/-- The scan of `stats_value_at`, with the value of its output parameter. -/
def valueScan (s : Stats) (index : Nat) : Nat → List Nat → Nat × Nat
  | count, [] => (0, count)
  | count, i :: is =>
      if s.data i ≠ 0 then
        if count = index then (i, s.data i) else valueScan s index (wrap64 (count + 1)) is
      else valueScan s index count is

/-- `stats_value_at`, with the count it stores. -/
def statsValueAt (s : Stats) (index : Nat) : Nat × Nat := valueScan s index 0 s.cells

/-- `script_stats_len` and `script_stats_call`. -/
def scriptStatsLen (s : Stats) : Nat := statsPopcount s
def scriptStatsCall (s : Stats) (index : Nat) : Nat × Nat := statsValueAt s (sub64 index 1)

/-- The pairs `stats_value_at` returns for the indices below the length. -/
def enumerated (s : Stats) : List (Nat × Nat) := (List.range (statsPopcount s)).map (statsValueAt s)

/-- The pairs enumerate the samples that were recorded. -/
structure Enumeration (M : Nat) (xs : List Nat) (s : Stats) : Prop where
  increasing : (enumerated s).Pairwise (fun x y => x.1 < y.1)
  counters : ∀ x ∈ enumerated s, x.2 = s.data x.1 ∧ 0 < x.2
  complete : ∀ v ∈ accepted M xs, ∃ x ∈ enumerated s, x.1 = v
  first : 0 < statsPopcount s → (statsValueAt s 0).1 = s.min
  last : 0 < statsPopcount s → (statsValueAt s (statsPopcount s - 1)).1 = s.max
  total : ((enumerated s).map Prod.snd).sum = s.count
  /-- The script goes through the same pairs, and they are the samples. -/
  script : (List.range' 1 (scriptStatsLen s)).map (scriptStatsCall s) = enumerated s
  samples : ((enumerated s).flatMap (fun x => List.replicate x.2 x.1)).Perm (accepted M xs)

/-! ### The scans -/

/-- The indices of the nonzero counters. -/
def Stats.nonzero (s : Stats) : List Nat := s.cells.filter (fun i => s.data i ≠ 0)

theorem popcount_scan (s : Stats) (l : List Nat) (count : Nat)
    (h : count + l.length < 2 ^ 64) :
    l.foldl (fun count i => if s.data i ≠ 0 then wrap64 (count + 1) else count) count =
      count + (l.filter (fun i => s.data i ≠ 0)).length := by
  induction l generalizing count with
  | nil => rfl
  | cons i l ih =>
      rw [List.length_cons] at h
      rw [List.foldl_cons, List.filter_cons]
      by_cases hi : s.data i ≠ 0
      · rw [if_pos hi, wrap64_of_lt _ (by omega), ih _ (by omega), if_pos (decide_eq_true hi),
          List.length_cons]
        omega
      · rw [if_neg hi, ih _ (by omega), if_neg (by rw [decide_eq_true_eq]; exact hi)]

theorem valueScan_nonzero (s : Stats) (index count : Nat) (l : List Nat)
    (h : count + l.length < 2 ^ 64) (hlo : count ≤ index) (v : Nat)
    (hv : (l.filter (fun i => s.data i ≠ 0))[index - count]? = some v) :
    valueScan s index count l = (v, s.data v) := by
  induction l generalizing count with
  | nil => exact absurd hv.symm (Option.some_ne_none v)
  | cons i l ih =>
      rw [List.length_cons] at h
      rw [List.filter_cons] at hv
      rw [valueScan]
      by_cases hi : s.data i ≠ 0
      · rw [if_pos (decide_eq_true hi)] at hv
        rw [if_pos hi]
        -- `count` is how many nonzero counters have been passed.
        by_cases hc : count = index
        · rw [hc, Nat.sub_self, List.getElem?_cons_zero, Option.some.injEq] at hv
          rw [if_pos hc, hv]
        · rw [if_neg hc, wrap64_of_lt _ (by omega)]
          refine ih (count + 1) (by omega) (by omega) ?_
          rw [show index - count = index - (count + 1) + 1 by omega,
            List.getElem?_cons_succ] at hv
          exact hv
      · rw [if_neg (by rw [decide_eq_true_eq]; exact hi)] at hv
        rw [if_neg hi]
        exact ih count (by omega) hlo hv

/-- The scanned range is shorter than the counter can count. -/
theorem cells_length (s : Stats) (hmax : s.max + 1 < 2 ^ 64) : s.cells.length < 2 ^ 64 := by
  rw [Stats.cells, List.length_range']
  omega

theorem statsPopcount_eq (s : Stats) (hmax : s.max + 1 < 2 ^ 64) :
    statsPopcount s = s.nonzero.length := by
  have hlen := cells_length s hmax
  rw [statsPopcount, popcount_scan s s.cells 0 (by omega), Nat.zero_add]
  rfl

theorem statsValueAt_eq (s : Stats) (hmax : s.max + 1 < 2 ^ 64) (index v : Nat)
    (hv : s.nonzero[index]? = some v) : statsValueAt s index = (v, s.data v) := by
  have hlen := cells_length s hmax
  exact valueScan_nonzero s index 0 s.cells (by omega) (Nat.zero_le _) v hv

/-- The pairs are the nonzero counters, in order. -/
theorem enumerated_eq (s : Stats) (hmax : s.max + 1 < 2 ^ 64) :
    enumerated s = s.nonzero.map (fun v => (v, s.data v)) := by
  rw [enumerated, statsPopcount_eq s hmax]
  -- The two lists are as long, and agree at every index.
  refine List.ext_getElem (by simp only [List.length_map, List.length_range]) fun i hi hi' => ?_
  rw [List.length_map, List.length_range] at hi
  rw [List.getElem_map, List.getElem_map, List.getElem_range]
  exact statsValueAt_eq s hmax i _ (List.getElem?_eq_getElem hi)

/-! ### The samples -/

theorem nonzero_sorted (s : Stats) : s.nonzero.Pairwise (· < ·) := by
  have hcells : s.cells.Pairwise (· < ·) := List.pairwise_lt_range'
  exact hcells.filter _

theorem mem_nonzero (s : Stats) (v : Nat) :
    v ∈ s.nonzero ↔ (s.min ≤ v ∧ v ≤ s.max) ∧ s.data v ≠ 0 := by
  rw [Stats.nonzero, List.mem_filter, mem_cells, decide_eq_true_eq]

/-- Every sample has a nonzero counter, and nothing else has. -/
theorem mem_nonzero_samples (M : Nat) (ys : List Nat) (hlen : ys.length < 2 ^ 64) (v : Nat) :
    v ∈ (ofSamples M ys).nonzero ↔ v ∈ ys := by
  -- Fewer samples than a counter can count: the counter is exact.
  have hdata : (ofSamples M ys).data v = ys.count v :=
    wrap64_of_lt _ (Nat.lt_of_le_of_lt List.count_le_length hlen)
  rw [mem_nonzero, hdata]
  constructor
  · intro h
    exact List.count_pos_iff.mp (Nat.pos_of_ne_zero h.2)
  · intro h
    exact ⟨(mem_cells _ v).mp (mem_cells_of_mem M ys v h),
      Nat.ne_of_gt (List.count_pos_iff.mpr h)⟩

/-- The least entry of an increasing list comes first, and the greatest
    last. -/
theorem sorted_first (l : List Nat) (hl : l.Pairwise (· < ·)) (a : Nat) (ha : a ∈ l)
    (hle : ∀ b ∈ l, a ≤ b) : l[0]? = some a := by
  cases l with
  | nil => exact absurd ha List.not_mem_nil
  | cons b l =>
      rw [List.getElem?_cons_zero, Option.some.injEq]
      refine le_antisymm ?_ (hle b List.mem_cons_self)
      rcases List.mem_cons.mp ha with rfl | h
      · exact le_refl a
      · exact Nat.le_of_lt ((List.pairwise_cons.mp hl).1 a h)

theorem sorted_last (l : List Nat) (hl : l.Pairwise (· < ·)) (a : Nat) (ha : a ∈ l)
    (hle : ∀ b ∈ l, b ≤ a) : l[l.length - 1]? = some a := by
  rcases List.eq_nil_or_concat l with hnil | ⟨front, b, hconcat⟩
  · rw [hnil] at ha
    exact absurd ha List.not_mem_nil
  · rw [List.concat_eq_append] at hconcat
    rw [hconcat] at hl ha hle ⊢
    rw [List.length_append, List.length_singleton, Nat.add_sub_cancel,
      List.getElem?_append_right (Nat.le_refl _), Nat.sub_self, List.getElem?_cons_zero,
      Option.some.injEq]
    refine le_antisymm (hle b (List.mem_append_right _ List.mem_cons_self)) ?_
    rcases List.mem_append.mp ha with h | h
    · exact Nat.le_of_lt ((List.pairwise_append.mp hl).2.2 a h b List.mem_cons_self)
    · exact le_of_eq (List.mem_singleton.mp h)

theorem flatMap_replicate_count (l : List Nat) (d : Nat → Nat) (hl : l.Nodup) (v : Nat) :
    (l.flatMap (fun x => List.replicate (d x) x)).count v = if v ∈ l then d v else 0 := by
  induction l with
  | nil => rfl
  | cons x l ih =>
      rcases List.nodup_cons.mp hl with ⟨hx, hl'⟩
      rw [List.flatMap_cons, List.count_append, List.count_replicate, ih hl']
      by_cases hv : x = v
      · rw [← hv, if_pos (beq_self_eq_true x), if_neg hx, if_pos List.mem_cons_self,
          Nat.add_zero]
      · rw [if_neg (by rw [beq_iff_eq]; exact hv), Nat.zero_add]
        refine if_congr ?_ rfl rfl
        rw [List.mem_cons]
        exact (or_iff_right (Ne.symm hv)).symm

/-- The bounds are samples, if there are any. -/
theorem bounds_mem (M : Nat) (xs : List Nat) (hne : accepted M xs ≠ []) :
    (ofSamples M (accepted M xs)).min ∈ accepted M xs ∧
      (ofSamples M (accepted M xs)).max ∈ accepted M xs := by
  rcases List.exists_mem_of_ne_nil _ hne with ⟨y, hy⟩
  have hlt : y < wrap64 (M + 1) := of_decide_eq_true (List.mem_filter.mp hy).2
  have hlimit := wrap64_lt (M + 1)
  constructor
  · -- The minimum starts above every value that can be recorded.
    refine (Samples.foldl_min_mem (accepted M xs) uint64Max).resolve_left fun hmin => ?_
    have hle := Samples.foldl_min_le (accepted M xs) uint64Max y hy
    rw [hmin] at hle
    unfold uint64Max at hle
    omega
  · -- The maximum starts at zero, and is zero only if a sample is.
    rcases Samples.foldl_max_mem (accepted M xs) 0 with hmax | hmax
    · have hle := Samples.le_foldl_max (accepted M xs) 0 y hy
      have hzero : y = 0 := by omega
      change (accepted M xs).foldl max 0 ∈ accepted M xs
      rw [hmax, ← hzero]
      exact hy
    · exact hmax

/-- Fewer values than the counters can count are enumerated, each as often as
    it was recorded. -/
theorem enumeration_exact (M : Nat) (xs : List Nat) (hlen : (accepted M xs).length < 2 ^ 64) :
    Enumeration M xs (recordAll (statsAlloc M) xs) := by
  have hmax := recordAll_max_lt M xs
  have hys := recordAll_accepted M xs
  rw [hys] at hmax ⊢
  have hpairs := enumerated_eq _ hmax
  have hpop := statsPopcount_eq _ hmax
  have hvalue := statsValueAt_eq _ hmax
  have hmem := mem_nonzero_samples M _ hlen
  have hdata : ∀ v, (ofSamples M (accepted M xs)).data v = (accepted M xs).count v :=
    fun v => wrap64_of_lt _ (Nat.lt_of_le_of_lt List.count_le_length hlen)
  have hcount : (ofSamples M (accepted M xs)).count = (accepted M xs).length :=
    wrap64_of_lt _ hlen
  have hbounds := bounds_mem M xs
  generalize ofSamples M (accepted M xs) = s at *
  have hsorted := nonzero_sorted s
  have hnodup : s.nonzero.Nodup := hsorted.imp Nat.ne_of_lt
  -- Every value stands in the list as often as it was recorded.
  have hsamples : ((enumerated s).flatMap (fun x => List.replicate x.2 x.1)).Perm
      (accepted M xs) := by
    rw [hpairs, List.flatMap_map, List.perm_iff_count]
    intro v
    rw [flatMap_replicate_count _ _ hnodup v, hdata]
    split_ifs with hv
    · rfl
    · rw [hmem] at hv
      exact (List.count_eq_zero_of_not_mem hv).symm
  -- With a nonzero counter there are samples, so the bounds are among them.
  have hfull : 0 < statsPopcount s → accepted M xs ≠ [] := by
    intro hpos hnil
    rw [hpop] at hpos
    rcases List.exists_mem_of_length_pos hpos with ⟨v, hv⟩
    rw [hmem, hnil] at hv
    exact List.not_mem_nil hv
  constructor
  · rw [hpairs]
    exact List.pairwise_map.mpr hsorted
  · intro x hx
    rw [hpairs] at hx
    rcases List.mem_map.mp hx with ⟨v, hv, rfl⟩
    exact ⟨rfl, Nat.pos_of_ne_zero ((mem_nonzero s v).mp hv).2⟩
  · intro v hv
    rw [hpairs]
    exact ⟨(v, s.data v), List.mem_map_of_mem ((hmem v).mpr hv), rfl⟩
  · intro hpos
    have hmin := (hmem s.min).mpr (hbounds (hfull hpos)).1
    rw [hvalue 0 s.min (sorted_first _ hsorted s.min hmin
      fun b hb => ((mem_nonzero s b).mp hb).1.1)]
  · intro hpos
    have hlast := (hmem s.max).mpr (hbounds (hfull hpos)).2
    rw [hpop, hvalue _ s.max (sorted_last _ hsorted s.max hlast
      fun b hb => ((mem_nonzero s b).mp hb).1.2)]
  · have hlength := hsamples.length_eq
    rw [List.length_flatMap] at hlength
    simp only [List.length_replicate] at hlength
    rw [hcount]
    exact hlength
  · rw [scriptStatsLen, List.range'_eq_map_range, List.map_map]
    refine List.map_congr_left fun i _ => ?_
    -- A script counts from one.
    change statsValueAt s (sub64 (1 + i) 1) = statsValueAt s i
    rw [sub64_of_le _ _ (by omega), Nat.add_sub_cancel_left]
  · exact hsamples

/-- Three samples of two values. -/
theorem enumeration_exact_three : Enumeration 20 [2, 10, 2] (recordAll (statsAlloc 20) [2, 10, 2]) :=
  enumeration_exact 20 [2, 10, 2] (by decide)

/-- A value recorded `2 ^ 64` times is not enumerated. -/
theorem enumeration_wraps : ¬ ∀ (M : Nat) (xs : List Nat),
    Enumeration M xs (recordAll (statsAlloc M) xs) := by
  intro h
  obtain ⟨n, hn, hpos⟩ : ∃ n, wrap64 n = 0 ∧ 0 < n := ⟨2 ^ 64, by decide, by decide⟩
  have hclaim := h 10 (wrapped n)
  have hone : 1 ∈ accepted 10 (wrapped n) := by
    rw [accepted_wrapped n]
    exact List.mem_append_left _ (List.mem_replicate.mpr ⟨Nat.ne_of_gt hpos, rfl⟩)
  -- The value was recorded, so it would have to be enumerated with its count.
  rcases hclaim.complete 1 hone with ⟨x, hx, hx1⟩
  rcases hclaim.counters x hx with ⟨hdata, hcounted⟩
  rw [recordAll_accepted, accepted_wrapped n, hx1, wrapped_data 10 n 1 hn] at hdata
  rw [hdata] at hcounted
  exact absurd hcounted (Nat.lt_irrefl 0)

end Wrk
