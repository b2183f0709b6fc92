import Wrk.Stats.Allocation
import Wrk.Stats.Interval
import Wrk.Stats.Order
import Wrk.Stats.Spread
import Mathlib.Analysis.Real.Sqrt

/-!
# The Final Report

What `main` computes after the threads have ended, with the divisions it
takes: the rates, the interval of the correction, and for each histogram the
mean, the deviation and the share within it. Divisions by constants and by
the scale of a table of units are left out.

`main` looks at the number of responses of a connection before it divides by
it, and `parse_args` makes sure that there is a connection. The share is
divided by the number of samples unseen.

The number of samples of the latency histogram is a 64-bit counter that the
correction adds to.

## Main definitions

* `printStats`: The numbers of a line of the report.
* `rates`, `summaries`, `report`: The numbers of the whole report.
* `addedCount`: How many samples the correction adds.
* `Returns`: The correction ends.
* `latencyHistogram`, `requestsHistogram`: The histograms of a run.
* `Sampled`: Both histograms have samples to divide by.

## Theorems

* `correctLatency_count`: The number of samples after the correction.
* `printStats_noZero_iff`: The divisions of a line.
* `report_noZero_iff`: The reports that divide by zero nowhere.
* `report_divides_by_zero`: The report of a run without a response.
-/

namespace Wrk

open HttpParser (Bytes bytes)

open Divisions

open Main (Opt Args parseArgs)

/-- `MAX_THREAD_RATE_S`. -/
def maxThreadRateS : Nat := 10000000

/-- The numbers of one line of the report. -/
structure StatsLine (K : Type) where
  mean : K
  stdev : K
  max : Nat
  within : K

/-- The numbers of the report, as far as it is made of the histograms. -/
structure Summaries (K : Type) where
  latency : StatsLine K
  requests : StatsLine K
  distribution : List Nat

/-- The percentiles that `print_stats_latency` prints. -/
def percentiles : List Rat := [50, 75, 90, 99]

/-- How many samples `stats_correct` adds for an interval: of every counter it
    reads, those that are missing, as often as the value was counted. -/
def addedCount (s : Stats) (e : Int) : Nat :=
  if 0 < e then
    ((correctRange s e.toNat).map fun n => s.data n * (corrected e.toNat n).length).sum
  else 0

/-- The correction of `main` is not called, or its interval is positive, or
    it has nothing to do. -/
def Returns (s : Stats) (runtimeUs complete connections : Nat) : Prop :=
  complete / connections = 0 ∨ 0 < interval runtimeUs complete connections ∨
    Skipped s (interval runtimeUs complete connections)

/-- How many samples the latency histogram has in the end. -/
def finalCount (s : Stats) (runtimeUs complete connections : Nat) : Nat :=
  if complete / connections > 0 then
    s.count + addedCount s (interval runtimeUs complete connections)
  else s.count

section Report

variable {K : Type} [Field K] [LinearOrder K] [IsStrictOrderedRing K]

/-- The numbers of `print_stats`. -/
def printStats (sqrtl : K → K) (s : Stats) : Divisions K (StatsLine K) := do
  let mean ← statsMeanLogged s
  let stdev ← statsStdev sqrtl s mean
  let within ← statsWithinStdev s mean stdev 1
  return { mean := mean, stdev := stdev, max := s.max, within := within }

/-- The requests and the bytes of a second. -/
def rates (runtimeUs complete bytes : Nat) : Divisions K (K × K) := do
  let runtimeS ← divide (runtimeUs : K) ((1000000 : Nat) : K)
  let reqPerS ← divide (complete : K) runtimeS
  let bytesPerS ← divide (bytes : K) runtimeS
  return (reqPerS, bytesPerS)

/-- The correction of the latencies, which may not return. -/
def correction (cfg : Main.Config) (latency : Stats) (runtimeUs complete fuel : Nat) :
    Divisions K (Option Stats) := do
  let responses ← divideNat complete cfg.connections
  if responses > 0 then
    let responses ← divideNat complete cfg.connections
    let quotient ← divideNat runtimeUs responses
    return statsCorrect latency (toInt64 quotient) fuel
  else return some latency

/-- What `main` computes from the histograms. -/
def summaries (sqrtl : K → K) (cfg : Main.Config) (latency requests : Stats)
    (runtimeUs complete fuel : Nat) : Divisions K (Option (Summaries K)) := do
  match ← correction cfg latency runtimeUs complete fuel with
  | none => return none
  | some latency =>
      let latencyLine ← printStats sqrtl latency
      let requestsLine ← printStats sqrtl requests
      return some
        { latency := latencyLine
          requests := requestsLine
          distribution :=
            if cfg.latency then percentiles.map (statsPercentile latency) else [] }

/-- What `main` computes for the report. -/
def report (sqrtl : K → K) (cfg : Main.Config) (latency requests : Stats)
    (runtimeUs complete bytes fuel : Nat) : Divisions K ((K × K) × Option (Summaries K)) := do
  let perSecond ← rates runtimeUs complete bytes
  let lines ← summaries sqrtl cfg latency requests runtimeUs complete fuel
  return (perSecond, lines)

end Report

/-! ### The correction -/

/-- A correction that has nothing to do changes nothing. -/
theorem statsCorrect_skipped (s : Stats) (e : Int) (fuel : Nat) (h : Skipped s e) :
    statsCorrect s e fuel = some s := by
  -- One value after the other is skipped.
  have hfold : ∀ l : List Nat, (∀ n ∈ l, correctStart e ≤ n ∧ n ≤ s.max) →
      l.foldlM (correctAt e fuel) s = some s := by
    intro l hl
    induction l with
    | nil => rfl
    | cons n l ih =>
        rcases hl n List.mem_cons_self with ⟨hlo, hhi⟩
        have hskip : correctAt e fuel s n = some s :=
          correctAt_skips s e n fuel fun hn => by
            have := h n hlo hhi hn.1
            omega
        rw [List.foldlM_cons, hskip]
        exact ih fun m hm => hl m (List.mem_cons_of_mem n hm)
  refine hfold _ fun n hn => ?_
  rw [List.mem_range'_1] at hn
  omega

/-- The correction adds its samples to the count, and ends for some bound on
    its iterations if it ends at all. -/
theorem correctLatency_count (s : Stats) (runtimeUs complete connections : Nat) (hs : s.Fits)
    (hmax : s.max < 2 ^ 64) (hruntime : runtimeUs < 2 ^ 64) :
    (Returns s runtimeUs complete connections → ∃ fuel h,
      correctLatency s runtimeUs complete connections fuel = some h) ∧
    ∀ fuel h, correctLatency s runtimeUs complete connections fuel = some h →
      Returns s runtimeUs complete connections ∧
        h.count = wrap64 (finalCount s runtimeUs complete connections) := by
  unfold correctLatency Returns finalCount
  by_cases hresponses : complete / connections > 0
  · simp only [if_pos hresponses]
    have hnone : ¬ complete / connections = 0 := by omega
    rw [or_iff_right hnone]
    by_cases he : interval runtimeUs complete connections ≤ 0
    · -- Without a positive interval nothing is added.
      have hadded : addedCount s (interval runtimeUs complete connections) = 0 :=
        if_neg (by omega)
      rw [or_iff_right (by omega : ¬ 0 < interval runtimeUs complete connections), hadded]
      refine ⟨fun hskip => ⟨0, s, statsCorrect_skipped s _ 0 hskip⟩, fun fuel h hf => ?_⟩
      have hskip := (statsCorrect_returns_iff s _ he).mp ⟨fuel, h, hf⟩
      rw [statsCorrect_skipped s _ fuel hskip, Option.some.injEq] at hf
      refine ⟨hskip, ?_⟩
      rw [← hf, Nat.add_zero, wrap64_of_lt _ hs.2]
    · -- A positive interval is a number of microseconds.
      have hquot : runtimeUs / (complete / connections) < 2 ^ 64 :=
        Nat.lt_of_le_of_lt (Nat.div_le_self _ _) hruntime
      have hsmall : runtimeUs / (complete / connections) < 2 ^ 63 := by
        by_contra hc
        have hneg := toInt64_neg _ (Nat.le_of_not_lt hc) hquot
        unfold interval at he
        omega
      have heq : interval runtimeUs complete connections =
          ((runtimeUs / (complete / connections) : Nat) : Int) := toInt64_of_lt _ hsmall
      rw [heq] at he ⊢
      generalize runtimeUs / (complete / connections) = e at *
      have heffect := statsCorrect_effect s e (by omega) (by omega) hs hmax
      rcases heffect with ⟨fuel, hf⟩
      refine ⟨fun _ => ⟨fuel, _, hf⟩, fun more h hmore => ⟨Or.inl (by omega), ?_⟩⟩
      have hadded : addedCount s (e : Int) =
          ((correctRange s e).map fun n => s.data n * (corrected e n).length).sum := by
        unfold addedCount
        rw [if_pos (by omega), Int.toNat_natCast]
      rw [corrects_unique s e h _ ⟨more, hmore⟩ ⟨fuel, hf⟩, addCorrected_count e _ s _ hs,
        hadded]
  · simp only [if_neg hresponses]
    refine ⟨fun _ => ⟨0, s, rfl⟩,
      fun fuel h hf => ⟨Or.inl (Nat.eq_zero_of_not_pos hresponses), ?_⟩⟩
    rw [Option.some.injEq] at hf
    rw [← hf, wrap64_of_lt _ hs.2]

/-! ### The divisions -/

section Report

variable {K : Type} [Field K] [LinearOrder K] [IsStrictOrderedRing K]

/-- A line divides by zero if and only if there are no samples. -/
theorem printStats_noZero_iff (sqrtl : K → K) (s : Stats) :
    (printStats sqrtl s).NoZero ↔ s.count ≠ 0 := by
  unfold printStats
  rw [noZero_bind, noZero_bind, noZero_bind, statsWithinStdev_noZero_iff]
  constructor
  · rintro ⟨_, _, hcount, _⟩
    exact hcount
  · intro hcount
    exact ⟨statsMeanLogged_noZero s, statsStdev_noZero sqrtl s _, hcount, noZero_pure _⟩

/-- The rates are divided by the time of the run. -/
theorem rates_noZero_iff (runtimeUs complete bytes : Nat) :
    (rates runtimeUs complete bytes : Divisions K (K × K)).NoZero ↔ runtimeUs ≠ 0 := by
  have hruntime : (runtimeUs : K) / ((1000000 : Nat) : K) ≠ 0 ↔ runtimeUs ≠ 0 := by
    rw [div_ne_zero_iff, Nat.cast_ne_zero, Nat.cast_ne_zero]
    exact and_iff_left (by decide)
  unfold rates
  simp only [noZero_bind, noZero_divide, value_divide, hruntime]
  constructor
  · rintro ⟨_, h, _⟩
    exact h
  · intro h
    exact ⟨Nat.cast_ne_zero.mpr (by decide), h, h, noZero_pure _⟩

omit [LinearOrder K] [IsStrictOrderedRing K] in
/-- The correction divides by what is not zero, if there is a connection. -/
theorem correction_noZero [CharZero K] (cfg : Main.Config) (latency : Stats)
    (runtimeUs complete fuel : Nat) (hconnections : cfg.connections ≠ 0) :
    (correction cfg latency runtimeUs complete fuel : Divisions K (Option Stats)).NoZero := by
  unfold correction
  rw [noZero_bind, noZero_divideNat, value_divideNat]
  refine ⟨hconnections, ?_⟩
  split_ifs with hresponses
  · rw [noZero_bind, noZero_divideNat, noZero_bind, noZero_divideNat, value_divideNat]
    exact ⟨hconnections, by omega, noZero_pure _⟩
  · exact noZero_pure _

omit [LinearOrder K] [IsStrictOrderedRing K] in
theorem correction_value (cfg : Main.Config) (latency : Stats) (runtimeUs complete fuel : Nat) :
    (correction cfg latency runtimeUs complete fuel : Divisions K (Option Stats)).value =
      correctLatency latency runtimeUs complete cfg.connections fuel := by
  unfold correction correctLatency
  rw [value_bind, value_divideNat]
  split_ifs
  · rfl
  · rfl

/-- If the correction ends, the lines of both histograms are computed. -/
theorem summaries_noZero_iff (sqrtl : K → K) (cfg : Main.Config) (latency requests : Stats)
    (runtimeUs complete fuel : Nat) (hconnections : cfg.connections ≠ 0) :
    (summaries sqrtl cfg latency requests runtimeUs complete fuel).NoZero ↔
      ∀ h, correctLatency latency runtimeUs complete cfg.connections fuel = some h →
        h.count ≠ 0 ∧ requests.count ≠ 0 := by
  unfold summaries
  rw [noZero_bind, correction_value,
    and_iff_right (correction_noZero cfg latency runtimeUs complete fuel hconnections)]
  cases correctLatency latency runtimeUs complete cfg.connections fuel with
  | none => exact ⟨fun _ h hh => (Option.some_ne_none h hh.symm).elim, fun _ => noZero_pure _⟩
  | some s =>
      -- The two lines divide by the two counts.
      dsimp only
      rw [noZero_bind, noZero_bind, printStats_noZero_iff, printStats_noZero_iff]
      constructor
      · rintro ⟨hlatency, hrequests, _⟩ h hh
        rw [← Option.some.inj hh]
        exact ⟨hlatency, hrequests⟩
      · intro h
        exact ⟨(h s rfl).1, (h s rfl).2, noZero_pure _⟩

/-- The latency histogram of a run, before the correction. -/
def latencyHistogram (cfg : Main.Config) (latencies : List Nat) : Stats :=
  recordAll (statsAlloc (latencyMax cfg)) latencies

/-- The request-rate histogram of a run. -/
def requestsHistogram (requestRates : List Nat) : Stats :=
  recordAll (statsAlloc maxThreadRateS) requestRates

/-- Both histograms of a run have samples to divide by: the number of
    latencies, with those that the correction adds, is not a multiple of
    `2 ^ 64`, and neither is that of the rates. -/
def Sampled (cfg : Main.Config) (latencies requestRates : List Nat)
    (runtimeUs complete : Nat) : Prop :=
  ¬ 2 ^ 64 ∣ finalCount (latencyHistogram cfg latencies) runtimeUs complete cfg.connections ∧
    ¬ 2 ^ 64 ∣ (accepted maxThreadRateS requestRates).length

/-- If the correction of a run ends, there are samples to divide by. -/
def SampledIfEnded (cfg : Main.Config) (latencies requestRates : List Nat)
    (runtimeUs complete : Nat) : Prop :=
  Returns (latencyHistogram cfg latencies) runtimeUs complete cfg.connections →
    Sampled cfg latencies requestRates runtimeUs complete

/-- The summaries of a run, by what is recorded. -/
theorem summaries_sampled_iff (sqrtl : K → K) (cfg : Main.Config)
    (latencies requestRates : List Nat) (runtimeUs complete : Nat)
    (hconnections : cfg.connections ≠ 0) (hruntime : runtimeUs < 2 ^ 64) :
    (∀ fuel, (summaries sqrtl cfg (latencyHistogram cfg latencies) (requestsHistogram requestRates)
        runtimeUs complete fuel).NoZero) ↔
      SampledIfEnded cfg latencies requestRates runtimeUs complete := by
  have hfits : (latencyHistogram cfg latencies).Fits := seen_fits _ latencies _ Seen.recorded
  have hmax := recordAll_max_lt (latencyMax cfg) latencies
  have hrates : (requestsHistogram requestRates).count =
      wrap64 (accepted maxThreadRateS requestRates).length := by
    unfold requestsHistogram
    rw [recordAll_accepted]
    rfl
  -- A counter is zero if and only if what it counts is a multiple of its modulus.
  have hzero : ∀ n, wrap64 n ≠ 0 ↔ ¬ 2 ^ 64 ∣ n :=
    fun n => not_congr Nat.dvd_iff_mod_eq_zero.symm
  rcases correctLatency_count (latencyHistogram cfg latencies) runtimeUs complete cfg.connections
    hfits (Nat.lt_of_succ_lt hmax) hruntime with ⟨hends, hcount⟩
  simp only [summaries_noZero_iff sqrtl cfg _ _ runtimeUs complete _ hconnections]
  unfold SampledIfEnded Sampled
  rw [← hzero, ← hzero, ← hrates]
  constructor
  · intro hall hreturns
    rcases hends hreturns with ⟨fuel, t, hf⟩
    rw [← (hcount fuel t hf).2]
    exact hall fuel t hf
  · intro hall fuel t hf
    rcases hcount fuel t hf with ⟨hreturns, hsame⟩
    rw [hsame]
    exact hall hreturns

/-- For a command line that is accepted, the summaries of a run divide by zero
    nowhere if and only if, should the correction end, there are samples in
    both histograms; and the whole report if the clock has moved besides. -/
theorem report_noZero_iff (sqrtl : K → K) (options : List Opt) (operands : List Bytes) (a : Args)
    (h : parseArgs options operands = .ok a) (latencies requestRates : List Nat)
    (runtimeUs complete bytes : Nat) (hruntime : runtimeUs < 2 ^ 64) :
    ((∀ fuel, (summaries sqrtl a.cfg (latencyHistogram a.cfg latencies)
        (requestsHistogram requestRates) runtimeUs complete fuel).NoZero) ↔
      SampledIfEnded a.cfg latencies requestRates runtimeUs complete) ∧
    ((∀ fuel, (report sqrtl a.cfg (latencyHistogram a.cfg latencies)
        (requestsHistogram requestRates) runtimeUs complete bytes fuel).NoZero) ↔
      runtimeUs ≠ 0 ∧ SampledIfEnded a.cfg latencies requestRates runtimeUs complete) := by
  -- `parse_args` has refused zero connections.
  have hconnections : a.cfg.connections ≠ 0 := by
    have hchecked := (Main.parseArgs_ok options operands a h).2.2.2
    omega
  have hsummaries := summaries_sampled_iff sqrtl a.cfg latencies requestRates runtimeUs complete
    hconnections hruntime
  refine ⟨hsummaries, ?_⟩
  rw [← hsummaries]
  -- The rates are the only divisions besides.
  unfold report
  simp only [noZero_bind, rates_noZero_iff, noZero_pure, and_true]
  constructor
  · intro hall
    exact ⟨(hall 0).1, fun fuel => (hall fuel).2⟩
  · rintro ⟨hmoved, hall⟩ fuel
    exact ⟨hmoved, hall fuel⟩

end Report

/-- A command line that is only a URL is accepted, and run with the defaults. -/
theorem parseArgs_url : ∃ a, parseArgs [] [bytes "http://h/"] = .ok a ∧
    a.cfg = Main.defaults := by
  have hparts : (HttpParser.Url.scriptParseUrl (bytes "http://h/")).isSome = true := by
    decide +kernel
  rcases Option.isSome_iff_exists.mp hparts with ⟨parts, hparts⟩
  exact ⟨_, Main.parseArgs_plain _ parts hparts, rfl⟩

/-- Ten seconds with one response. -/
theorem report_noZero_one : ∃ a, parseArgs [] [bytes "http://h/"] = .ok a ∧ ∀ fuel,
    (report Real.sqrt a.cfg (latencyHistogram a.cfg [5]) (requestsHistogram [1]) 10000000 1 200
      fuel).NoZero := by
  rcases parseArgs_url with ⟨a, ha, hcfg⟩
  have hnoZero := report_noZero_iff Real.sqrt [] _ a ha [5] [1] 10000000 1 200 (by decide)
  refine ⟨a, ha, hnoZero.2.mpr ⟨by decide, fun _ => ?_⟩⟩
  rw [hcfg]
  exact ⟨by decide +kernel, by decide +kernel⟩

/-- Ten seconds without a response. -/
theorem report_divides_by_zero : ∃ a, parseArgs [] [bytes "http://h/"] = .ok a ∧ ∀ fuel,
    (0 : ℝ) ∈ (summaries Real.sqrt a.cfg (latencyHistogram a.cfg []) (requestsHistogram [])
      10000000 0 fuel).divisors := by
  rcases parseArgs_url with ⟨a, ha, hcfg⟩
  refine ⟨a, ha, fun fuel => ?_⟩
  have hdivides := summaries_noZero_iff Real.sqrt a.cfg (latencyHistogram a.cfg [])
    (requestsHistogram []) 10000000 0 fuel (by rw [hcfg]; decide)
  by_contra hzero
  have hall := hdivides.mp fun d hd hd0 => hzero (by rw [← hd0]; exact hd)
  -- No response is no correction.
  exact (hall _ (if_neg (by rw [Nat.zero_div]; decide))).1 rfl

end Wrk
