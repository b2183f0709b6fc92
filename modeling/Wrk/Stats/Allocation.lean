import Wrk.Main.Options
import Wrk.Stats.Basic

/-!
# The Memory of the Latency Histogram

`main` allocates the latency histogram for the timeout of the command line.
The seconds that are meant go through five products and two sums of 64 bits
before the size of the allocation and the limit are fixed: the scale of the
unit, the milliseconds, the microseconds, one more for the limit, eight bytes
for each counter, and the counters' header.

A timeout that is stored exactly and whose allocation fits makes all of them
exact. Any other separates the limit, which `stats_record` trusts, from the
memory behind it, or from the timeout that was meant.

## Main definitions

* `statsAllocBytes`: The size that `stats_alloc` asks `zcalloc` for.
* `latencyMax`: The argument of `stats_alloc` for the latencies.
* `timeoutMeant`: The timeout of a command line, in seconds.
* `CoversLimit`: The histogram has the memory and the limit that are meant.

## Theorems

* `stored_of_parse`: How the timeout is stored.
* `statsAlloc_covers_iff`: The timeouts whose histogram is covered.
-/

namespace Wrk

open HttpParser (Bytes bytes)

open Scanf

open Main (Opt Args Parsing parseArgs parseOption scanField)

/-- `sizeof(stats)`: four 64-bit fields. -/
def sizeofStats : Nat := 32

/-- The size of one counter. -/
def sizeofCounter : Nat := 8

/-- The size that `stats_alloc` asks for. -/
def statsAllocBytes (max : Nat) : Nat :=
  wrap64 (sizeofStats + wrap64 (sizeofCounter * wrap64 (max + 1)))

/-- `cfg.timeout * 1000`, the largest latency of the histogram. -/
def latencyMax (cfg : Main.Config) : Nat := wrap64 (cfg.timeout * 1000)

/-- The amount a text stands for, as an integer. -/
def amountMeant (m : Units) (optarg : Bytes) : Option Int :=
  (readNumeral optarg).bind fun r => (factor m r.2).map fun k : Nat => r.1.value * (k : Int)

/-- The timeout of a command line in seconds: that of the last option which
    gives one, or the default. -/
def timeoutMeant (options : List Opt) : Int :=
  options.foldl (fun seconds o =>
    match o with
    | .timeout optarg => (amountMeant timeUnitsS optarg).getD seconds
    | _ => seconds) 2

/-- The histogram for a timeout in seconds has one counter for every
    microsecond up to the timeout, the memory asked for is exactly that, and
    every counter below the limit is inside it. -/
structure CoversLimit (seconds : Int) (cfg : Main.Config) : Prop where
  requested : (statsAllocBytes (latencyMax cfg) : Int) =
    sizeofStats + sizeofCounter * (seconds * 1000000 + 1)
  limit : ((statsAlloc (latencyMax cfg)).limit : Int) = seconds * 1000000 + 1
  inside : ∀ n, n < (statsAlloc (latencyMax cfg)).limit →
    sizeofStats + sizeofCounter * (n + 1) ≤ statsAllocBytes (latencyMax cfg)

/-- A timeout in seconds is stored in milliseconds by way of the word that is
    scanned for its numeral. -/
def Stored (seconds : Int) (timeout : Nat) : Prop :=
  ∃ (x : Numeral) (k : Nat), 0 < k ∧ seconds = x.value * k ∧
    timeout = wrap64 (wrap64 (x.toUint64 * k) * 1000)

theorem timeoutMeant_append (done : List Opt) (o : Opt) :
    timeoutMeant (done ++ [o]) =
      match o with
      | .timeout optarg => (amountMeant timeUnitsS optarg).getD (timeoutMeant done)
      | _ => timeoutMeant done := by
  unfold timeoutMeant
  rw [List.foldl_append]
  rfl

/-- The amount that is scanned is the one that is meant, as a word. -/
theorem scanTime_meant (optarg : Bytes) (n v : Nat) (h : scanTime optarg n = (0, v)) :
    ∃ (x : Numeral) (k : Nat), 0 < k ∧ amountMeant timeUnitsS optarg = some (x.value * k) ∧
      v = wrap64 (x.toUint64 * k) := by
  unfold scanTime at h
  rw [scanUnits_eq] at h
  unfold amountMeant
  cases hx : readNumeral optarg with
  | none =>
      rw [hx] at h
      cases h
  | some r =>
      rw [hx, Option.bind_some] at h
      cases hk : factor timeUnitsS r.2 with
      | none =>
          rw [hk] at h
          cases h
      | some k =>
          rw [hk] at h
          cases h
          -- What is stored is the word of the numeral times the scale.
          refine ⟨r.1, k, factor_pos timeUnitsS timeUnitsS_lettered r.2 k hk, ?_, rfl⟩
          rw [Option.bind_some, hk, Option.map_some]

/-- An option keeps the timeout that is stored, or stores its own. -/
theorem stored_step (p : Parsing) (o : Opt) (p' : Parsing) (done : List Opt)
    (hp : Stored (timeoutMeant done) p.cfg.timeout) (h : parseOption p o = .ok p') :
    Stored (timeoutMeant (done ++ [o])) p'.cfg.timeout := by
  rw [timeoutMeant_append]
  -- A numeric option stores what its scanner accepts.
  have hscan : ∀ (scan : Bytes → Nat → Int × Nat) (optarg : Bytes) (n : Nat) (f : Nat → Parsing),
      (scanField scan optarg n >>= fun v => pure (f v)) = (.ok p' : Except Bytes Parsing) →
        ∃ v, scan optarg n = (0, v) ∧ f v = p' := by
    intro scan optarg n f hf
    cases hv : scanField scan optarg n with
    | error e =>
        rw [hv] at hf
        cases hf
    | ok v =>
        rw [hv] at hf
        exact ⟨v, Main.scanField_ok scan optarg n v hv, Except.ok.inj hf⟩
  cases o with
  | threads optarg =>
      rcases hscan _ _ _ _ h with ⟨v, _, rfl⟩
      exact hp
  | connections optarg =>
      rcases hscan _ _ _ _ h with ⟨v, _, rfl⟩
      exact hp
  | duration optarg =>
      rcases hscan _ _ _ _ h with ⟨v, _, rfl⟩
      exact hp
  | timeout optarg =>
      rcases hscan _ _ _ _ h with ⟨v, hv, rfl⟩
      rcases scanTime_meant optarg _ v hv with ⟨x, k, hk, hmeant, rfl⟩
      refine ⟨x, k, hk, ?_, rfl⟩
      dsimp only
      rw [hmeant, Option.getD_some]
  | script optarg => cases h; exact hp
  | header optarg => cases h; exact hp
  | latency => cases h; exact hp
  | version => cases h; exact hp
  | engine optarg => cases h; exact hp
  | other => cases h

/-- The timeout of an accepted command line, as it is stored. -/
theorem stored_of_parse (options : List Opt) (operands : List Bytes) (a : Args)
    (h : parseArgs options operands = .ok a) : Stored (timeoutMeant options) a.cfg.timeout := by
  refine Main.parseOptions_induct (fun p done => Stored (timeoutMeant done) p.cfg.timeout)
    (fun p o p' done hp ho => stored_step p o p' done hp ho) options [] _ _ ?_
    (Main.parseArgs_ok options operands a h).1
  exact ⟨⟨false, bytes "2"⟩, 1, by decide, by decide +kernel, by decide +kernel⟩

/-- If the counters of a maximum fit with their header, the request is exact. -/
theorem statsAllocBytes_of_fits (max : Nat)
    (h : sizeofStats + sizeofCounter * (max + 1) < 2 ^ 64) :
    statsAllocBytes max = sizeofStats + sizeofCounter * (max + 1) := by
  unfold statsAllocBytes
  unfold sizeofStats sizeofCounter at *
  rw [wrap64_of_lt (max + 1) (by omega), wrap64_of_lt (8 * (max + 1)) (by omega), wrap64_of_lt _ h]

/-- The histogram is covered if and only if the timeout that is meant is not
    negative and its counters fit into 64 bits with their header. -/
theorem statsAlloc_covers_iff (options : List Opt) (operands : List Bytes) (a : Args)
    (h : parseArgs options operands = .ok a) :
    CoversLimit (timeoutMeant options) a.cfg ↔ 0 ≤ timeoutMeant options ∧
      sizeofStats + sizeofCounter * (timeoutMeant options * 1000000 + 1) < 2 ^ 64 := by
  rcases stored_of_parse options operands a h with ⟨x, k, hk, hseconds, htimeout⟩
  constructor
  · intro hc
    have hword : statsAllocBytes (latencyMax a.cfg) < 2 ^ 64 := wrap64_lt _
    have hreq := hc.requested
    have hlim := hc.limit
    exact ⟨by omega, by omega⟩
  · rintro ⟨hsign, hfits⟩
    unfold sizeofStats sizeofCounter at hfits
    -- The numeral is not negative, and so it is stored as it is.
    have hvalue : 0 ≤ x.value := by
      by_contra hneg
      have := mul_neg_of_neg_of_pos (not_le.mp hneg) (Int.natCast_pos.mpr hk)
      omega
    rcases stored_of_fits x k hk hvalue (by rw [← hseconds]; omega) with ⟨hword, hmag, _⟩
    have hnat : timeoutMeant options = ((x.magnitude * k : Nat) : Int) := by rw [hseconds, hmag]
    rw [hnat] at hfits hsign ⊢
    generalize x.magnitude * k = s at *
    have hms : a.cfg.timeout = s * 1000 := by
      rw [htimeout, hword, wrap64_of_lt _ (by omega)]
    have hmax : latencyMax a.cfg = s * 1000000 := by
      unfold latencyMax
      rw [hms, wrap64_of_lt _ (by omega)]
      omega
    have hbytes := statsAllocBytes_of_fits (latencyMax a.cfg)
      (by rw [hmax]; unfold sizeofStats sizeofCounter; omega)
    have hlimit : (statsAlloc (latencyMax a.cfg)).limit = s * 1000000 + 1 := by
      unfold statsAlloc
      dsimp only
      rw [hmax, wrap64_of_lt _ (by omega)]
    refine ⟨?_, ?_, fun n hn => ?_⟩
    · rw [hbytes, hmax]
      push_cast
      rfl
    · rw [hlimit]
      push_cast
      rfl
    · rw [hlimit] at hn
      rw [hbytes, hmax]
      unfold sizeofStats sizeofCounter
      omega

/-- Half a minute. -/
theorem statsAlloc_covers_seconds :
    ∃ a, parseArgs [.timeout (bytes "30s")] [bytes "http://h/"] = .ok a ∧
      CoversLimit (timeoutMeant [.timeout (bytes "30s")]) a.cfg := by
  have hmeant : timeoutMeant [.timeout (bytes "30s")] = 30 := by decide +kernel
  have hok : (parseArgs [.timeout (bytes "30s")] [bytes "http://h/"]).toOption.isSome = true := by
    decide +kernel
  cases ha : parseArgs [.timeout (bytes "30s")] [bytes "http://h/"] with
  | error e =>
      rw [ha] at hok
      cases hok
  | ok a =>
      refine ⟨a, rfl, (statsAlloc_covers_iff _ _ a ha).mpr ?_⟩
      rw [hmeant]
      decide

/-- A timeout whose counters do not fit is accepted. Fewer than three million
    bytes are asked for, and the limit is far outside. -/
theorem statsAlloc_uncovered :
    ∃ a, parseArgs [.timeout (bytes "2305843009214")] [bytes "http://h/"] = .ok a ∧
      statsAllocBytes (latencyMax a.cfg) = 2448424 ∧
      (statsAlloc (latencyMax a.cfg)).limit = 2305843009214000001 ∧
      ¬ CoversLimit (timeoutMeant [.timeout (bytes "2305843009214")]) a.cfg := by
  have hparse : (parseArgs [.timeout (bytes "2305843009214")] [bytes "http://h/"]).toOption.map
      Args.cfg = some { Main.defaults with timeout := 2305843009214000 } := by
    decide +kernel
  cases ha : parseArgs [.timeout (bytes "2305843009214")] [bytes "http://h/"] with
  | error e =>
      rw [ha] at hparse
      cases hparse
  | ok a =>
      rw [ha] at hparse
      have hcfg : a.cfg = { Main.defaults with timeout := 2305843009214000 } :=
        Option.some.inj hparse
      -- The product with eight wraps.
      have hbytes : statsAllocBytes (latencyMax a.cfg) = 2448424 := by
        rw [hcfg]
        decide +kernel
      have hmeant : timeoutMeant [.timeout (bytes "2305843009214")] = 2305843009214 := by
        decide +kernel
      refine ⟨a, rfl, hbytes, by rw [hcfg]; decide +kernel, fun hc => ?_⟩
      have hreq := hc.requested
      rw [hbytes, hmeant] at hreq
      exact absurd hreq (by decide)

end Wrk
