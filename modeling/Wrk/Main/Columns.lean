import Wrk.Main.Report
import Wrk.Units.Choose

/-!
# The Columns of the Report

`print_units` prints the text of an amount in a field of a fixed width. The
width is both the least and the greatest number of characters, less the
blanks that stand for the letters of a unit of two. A text that is too long
for its field loses its last characters, which are the unit.

The text of an amount has two decimals, so its length is that of the whole
part. With the tables of `units.c` what is printed stays below 850, or below
51, except in the last unit that is used, and below 1000 for the
microseconds that `format_time_us` does not give to the table of seconds.
Rounding makes "1000.00ms" of what is not below 999.995 ms, one digit more
than the column of the means has room for.

## Main definitions

* `printUnits`: The field of an amount.
* `PrintsWhole`: The field has its width, and the text of the amount in it.
* `LatencyWhole`, `RequestsWhole`: The fields of the report are printed whole.
* `Unwrapped`: The counters of a histogram add up to no more than its count.

## Theorems

* `printMsg_whole_iff`: The texts that fit into a field.
* `formatTimeUs_whole_iff`, `formatMetric_whole_iff`: The amounts that do.
* `columns_whole_iff`: The histograms whose lines are printed whole.
* `columns_truncated`: A mean that is printed without its last letter.
-/

namespace Wrk

open HttpParser (Byte Bytes bytes)

open Http (isAlpha)

open Scanf Decimal

/-! ### Fields -/

def blanks (n : Nat) : Bytes := List.replicate n 32

/-- `isalpha(msg[len - i])`. -/
def alphaFromEnd (msg : Bytes) (i : Nat) : Bool := (msg[msg.length - i]?).any isAlpha

/-- The blanks in place of a unit of two letters. -/
def unitPad (msg : Bytes) : Nat :=
  2 - (if alphaFromEnd msg 1 then 1 else 0) - (if alphaFromEnd msg 2 then 1 else 0)

/-- What `print_units` prints of the text of an amount. -/
def printMsg (msg : Bytes) (width : Nat) : Bytes :=
  let pad := unitPad msg
  let shown := msg.take (width - pad)
  blanks (width - pad - shown.length) ++ shown ++ (blanks 2).take pad

/-- `print_units`. -/
def printUnits {K : Type*} (n : K) (fmt : K → Bytes) (width : Nat) : Bytes := printMsg (fmt n) width

/-- A text is whole in the field that is printed for it: nothing but blanks is
    added, and the field has its width. -/
structure PrintsWhole (msg : Bytes) (width : Nat) : Prop where
  exact : (printMsg msg width).length = width
  whole : ∃ before after, printMsg msg width = blanks before ++ msg ++ blanks after

theorem unitPad_le (msg : Bytes) : unitPad msg ≤ 2 := by
  unfold unitPad
  omega

/-- A text without blanks is whole if and only if it fits with the blanks that
    follow it. -/
theorem printMsg_whole_iff (msg : Bytes) (width : Nat) (hwidth : 2 ≤ width)
    (hplain : ∀ b ∈ msg, b ≠ 32) :
    PrintsWhole msg width ↔ msg.length + unitPad msg ≤ width := by
  have hpad := unitPad_le msg
  have htail : (blanks 2).take (unitPad msg) = blanks (unitPad msg) := by
    unfold blanks
    rw [List.take_replicate, Nat.min_eq_left hpad]
  -- What is not blank of a field is what is shown of the text.
  have hcount : ∀ before after (w : Bytes), (∀ b ∈ w, b ≠ 32) →
      (blanks before ++ w ++ blanks after).countP (· ≠ 32) = w.length := by
    intro before after w hw
    have hblank : ∀ n, (blanks n).countP (· ≠ 32) = 0 := by
      intro n
      refine List.countP_eq_zero.mpr fun b hb => ?_
      rw [(List.mem_replicate.mp hb).2]
      decide
    rw [List.countP_append, List.countP_append, hblank, hblank, Nat.zero_add, Nat.add_zero]
    exact List.countP_eq_length.mpr fun b hb => decide_eq_true (hw b hb)
  constructor
  · rintro ⟨_, before, after, hfield⟩
    unfold printMsg at hfield
    dsimp only at hfield
    have hshown := congrArg (List.countP (· ≠ 32)) hfield
    rw [htail, hcount _ _ _ (fun b hb => hplain b (List.mem_of_mem_take hb)),
      hcount _ _ _ hplain, List.length_take] at hshown
    omega
  · intro hfits
    have htake : msg.take (width - unitPad msg) = msg := List.take_of_length_le (by omega)
    constructor
    · unfold printMsg blanks
      dsimp only
      rw [htake, List.length_append, List.length_append, List.length_take, List.length_replicate,
        List.length_replicate]
      omega
    · refine ⟨width - unitPad msg - msg.length, unitPad msg, ?_⟩
      unfold printMsg
      dsimp only
      rw [htake, htail]

/-! ### Amounts -/

theorem timeUnitsUs_lettered : Lettered timeUnitsUs :=
  ⟨by decide +kernel, by decide +kernel, by decide +kernel, by decide⟩

theorem alphaFromEnd_append (w tail : Bytes) (i : Nat) (hi : i ≤ tail.length) :
    alphaFromEnd (w ++ tail) i = alphaFromEnd tail i := by
  unfold alphaFromEnd
  rw [List.length_append, List.getElem?_append_right (by omega)]
  congr 2
  omega

theorem unitPad_append (w tail : Bytes) (h : 2 ≤ tail.length) :
    unitPad (w ++ tail) = unitPad tail := by
  unfold unitPad
  rw [alphaFromEnd_append w tail 1 (by omega), alphaFromEnd_append w tail 2 h]

/-- The letters of a unit that follows digits are counted. -/
theorem unitPad_unit (w unit : Bytes) (d d' : Byte) (hd : isAlpha d = false)
    (hd' : isAlpha d' = false) (hlen : unit.length ≤ 2) (hunit : ∀ b ∈ unit, isAlpha b = true) :
    unitPad (w ++ ([d, d'] ++ unit)) = 2 - unit.length := by
  rw [unitPad_append w ([d, d'] ++ unit) (Nat.le_add_left 2 unit.length)]
  unfold unitPad
  cases unit with
  | nil =>
      have hone : alphaFromEnd [d, d'] 1 = false := hd'
      have htwo : alphaFromEnd [d, d'] 2 = false := hd
      rw [List.append_nil, hone, htwo]
      rfl
  | cons b unit =>
      have hb := hunit b List.mem_cons_self
      cases unit with
      | nil =>
          have hone : alphaFromEnd ([d, d'] ++ [b]) 1 = true := hb
          have htwo : alphaFromEnd ([d, d'] ++ [b]) 2 = false := hd'
          rw [hone, htwo]
          rfl
      | cons c unit =>
          -- There are no more than two letters.
          have hnil : unit = [] := by
            rw [List.length_cons, List.length_cons] at hlen
            exact List.length_eq_zero_iff.mp (by omega)
          rw [hnil] at hunit ⊢
          have hone : alphaFromEnd ([d, d'] ++ [b, c]) 1 = true :=
            hunit c (List.mem_cons_of_mem b List.mem_cons_self)
          have htwo : alphaFromEnd ([d, d'] ++ [b, c]) 2 = true := hb
          rw [hone, htwo]
          rfl

/-- The text of an amount with two decimals and a unit has no blanks, and with
    those that follow it the length of its whole part and five more. -/
theorem amount_shape (n : Nat) (unit : Bytes) (hlen : unit.length ≤ 2)
    (hunit : ∀ b ∈ unit, isAlpha b = true) :
    (∀ b ∈ fixedText 2 n ++ unit, b ≠ 32) ∧
      (fixedText 2 n ++ unit).length + unitPad (fixedText 2 n ++ unit) =
        (natText (n / 10 ^ 2)).length + 5 := by
  have hdigit : ∀ d < 10, isAlpha (digitByte d) = false := by decide
  have hshape : fixedText 2 n ++ unit = (natText (n / 10 ^ 2) ++ [point]) ++
      ([digitByte (n / 10 % 10), digitByte (n % 10)] ++ unit) := by
    rw [fixedText_shape 2 n (by decide), List.append_assoc, List.append_assoc]
    rfl
  constructor
  · intro b hb
    rcases List.mem_append.mp hb with hb | hb
    · have hplain : ∀ b ∈ point :: digitBytes, b ≠ 32 := by decide +kernel
      exact hplain b (fixedText_symbols 2 n b hb)
    · -- A letter is no blank.
      intro h32
      have hletter := hunit b hb
      rw [h32] at hletter
      exact absurd hletter (by decide)
  · -- The pad is what a unit of two letters is short of, and of two digits
    -- there are no letters.
    rw [hshape, unitPad_unit _ unit _ _ (hdigit _ (Nat.mod_lt _ (by decide)))
      (hdigit _ (Nat.mod_lt _ (by decide))) hlen hunit]
    simp only [List.length_append, List.length_cons, List.length_nil]
    omega

section Whole

variable {K : Type*} [Field K] [LinearOrder K] [FloorSemiring K] [IsStrictOrderedRing K]

/-- The whole part of an amount has so many digits if and only if the amount
    is not rounded to one more. -/
theorem whole_length_iff (amt : K) (hamt : 0 ≤ amt) (k : Nat) (hk : 0 < k) :
    (natText (inDecimals 2 amt / 10 ^ 2)).length ≤ k ↔ amt < 10 ^ k - 1 / 200 := by
  have heven : (10 ^ k * 10 ^ 2) % 2 = 0 := by omega
  rw [natText_length_le_iff _ k hk, Nat.div_lt_iff_lt_mul (by decide)]
  unfold inDecimals
  rw [roundHalfEven_lt_iff _ (by positivity) _ heven]
  push_cast
  constructor
  · intro h
    linarith
  · intro h
    linarith

/-- The room of a column: the amounts that fit into it with two decimals. -/
def room (width : Nat) : K := ((10 ^ (width - 5) : Nat) : K) - 1 / ((200 : Nat) : K)

omit [LinearOrder K] [FloorSemiring K] [IsStrictOrderedRing K] in
theorem room_eq (width : Nat) : (room width : K) = 10 ^ (width - 5) - 1 / 200 := by
  unfold room
  push_cast
  rfl

/-- An amount is printed whole if and only if, in the last unit but one, it
    has room. -/
theorem formatUnits_whole_iff (m : Units) (hm : Lettered m) (n : K) (hn : 0 ≤ n) (width : Nat)
    (hwidth : 5 < width) (hroom : (m.scale : K) * (85 / 100) ≤ room width) :
    PrintsWhole (formatUnits n m 2) width ↔
      n < room width * (m.scale : K) ^ (m.units.length - 1) := by
  rcases formatUnits_chosen n m 2 with ⟨unit, hget, htext⟩
  rcases chosen_lt_iff m n (room width) hm.positive hn hroom with ⟨hamt, hlt⟩
  have hmem := List.mem_of_getElem? hget
  rcases amount_shape (inDecimals 2 (chosen m n).1) unit (hm.short unit hmem)
    (hm.letters unit hmem) with ⟨hplain, hlen⟩
  -- The field is full when the whole part of the amount is long enough.
  rw [← hlt, htext]
  unfold fixed
  rw [printMsg_whole_iff _ width (by omega) hplain, hlen, ← Nat.le_sub_iff_add_le (by omega),
    whole_length_iff _ hamt _ (by omega)]
  rw [room_eq]

/-- There is room for what the loops leave. -/
theorem room_ge (width : Nat) (hwidth : 8 ≤ width) : (850 : K) ≤ room width := by
  have hpow : (10 : K) ^ 3 ≤ 10 ^ (width - 5) := pow_le_pow_right₀ (by norm_num) (by omega)
  rw [room_eq]
  linarith

/-- A number of requests is printed whole if and only if it has room in
    tera. -/
theorem formatMetric_whole_iff (n : K) (hn : 0 ≤ n) (width : Nat) (hwidth : 8 ≤ width) :
    PrintsWhole (formatMetric n) width ↔ n < room width * 10 ^ 12 := by
  have hroom := room_ge (K := K) width hwidth
  have hscale : ((metricUnits.scale : Nat) : K) = 1000 := by norm_num [metricUnits]
  have hwhole := formatUnits_whole_iff metricUnits metricUnits_lettered n hn width (by omega)
    (by rw [hscale]; linarith)
  rw [hscale] at hwhole
  unfold formatMetric
  rw [hwhole]
  have hpow : (1000 : K) ^ (metricUnits.units.length - 1) = 10 ^ 12 := by
    change (1000 : K) ^ 4 = 10 ^ 12
    norm_num
  rw [hpow]

/-- A time is printed whole if and only if it has room in milliseconds, below
    a second, or else in minutes. -/
theorem formatTimeUs_whole_iff (n : K) (hn : 0 ≤ n) (width : Nat) (hwidth : 8 ≤ width) :
    PrintsWhole (formatTimeUs n) width ↔
      if 1000000 ≤ n then n < room width * 60000000 else n < room width * 1000 := by
  have hroom := room_ge (K := K) width hwidth
  unfold formatTimeUs
  split_ifs with hsecond
  · have hscale : ((timeUnitsS.scale : Nat) : K) = 60 := by norm_num [timeUnitsS]
    have hwhole := formatUnits_whole_iff timeUnitsS timeUnitsS_lettered (n / 1000000)
      (by positivity) width (by omega) (by rw [hscale]; linarith)
    rw [hwhole, hscale, div_lt_iff₀ (by norm_num)]
    -- From a second on the table goes up to minutes.
    change n < room width * 60 ^ 1 * 1000000 ↔ _
    rw [pow_one, mul_assoc]
    norm_num
  · have hscale : ((timeUnitsUs.scale : Nat) : K) = 1000 := by norm_num [timeUnitsUs]
    have hwhole := formatUnits_whole_iff timeUnitsUs timeUnitsUs_lettered n hn width (by omega)
      (by rw [hscale]; linarith)
    rw [hwhole, hscale]
    -- Below it the table goes up to milliseconds.
    change n < room width * 1000 ^ 1 ↔ _
    rw [pow_one]

end Whole

/-! ### Histograms -/

/-- The counters of a histogram add up to no more than its count, which they
    do unless a 64-bit counter has wrapped. -/
def Unwrapped (s : Stats) : Prop := (s.cells.map s.data).sum ≤ s.count

/-- The correction leaves the maximum alone. -/
theorem corrects_max (s : Stats) (e : Int) (h : Stats) (he : 0 < e) (he' : e < 2 ^ 63)
    (hs : s.Fits) (hmax : s.max < 2 ^ 64) (hc : Corrects s e h) : h.max = s.max := by
  have hnat : ((e.toNat : Nat) : Int) = e := by omega
  have heffect := statsCorrect_effect s e.toNat (by omega) (by omega) hs hmax
  rw [hnat] at heffect
  rw [corrects_unique s e h _ hc heffect]
  exact (addCorrected_bounds e.toNat s.data s (correctRange s e.toNat)).2.2

/-- No value above the one that was allocated for is the maximum. -/
theorem seen_max (M : Nat) (xs : List Nat) (h : Stats) (hs : Seen M xs h) : h.max ≤ M := by
  have hrecorded : (recordAll (statsAlloc M) xs).max ≤ M := by
    have hlimit : (recordAll (statsAlloc M) xs).limit ≤ M + 1 := by
      rw [recordAll_limit]
      exact wrap64_le _
    have hmax := recordAll_max M xs
    omega
  cases hs with
  | recorded => exact hrecorded
  | corrected e _ he he' hc =>
      have hlt := recordAll_max_lt M xs
      rw [corrects_max _ e h he he' (seen_fits M xs _ Seen.recorded) (by omega) hc]
      exact hrecorded

/-- A percentile is a value that is scanned, or zero. -/
theorem statsPercentile_le_max (s : Stats) (p : Rat) : statsPercentile s p ≤ s.max := by
  have hscan : ∀ (l : List Nat) (rank total : Nat), (∀ i ∈ l, i ≤ s.max) →
      percentileScan s rank total l ≤ s.max := by
    intro l
    induction l with
    | nil => exact fun _ _ _ => Nat.zero_le _
    | cons i l ih =>
        intro rank total hl
        rw [percentileScan]
        split_ifs
        · exact hl i List.mem_cons_self
        · exact ih rank _ fun j hj => hl j (List.mem_cons_of_mem i hj)
  exact hscan s.cells _ 0 fun i hi => ((mem_cells s i).mp hi).2

/-- The sum of the mean is at most the one that does not wrap, which is at most
    as many times the maximum as there are samples. -/
theorem meanSum_le (s : Stats) : s.meanSum ≤ s.max * (s.cells.map s.data).sum := by
  have hfold : ∀ (l : List Nat) (a : Nat), (∀ i ∈ l, i ≤ s.max) →
      l.foldl (fun sum i => wrap64 (sum + wrap64 (s.data i * i))) a ≤
        a + s.max * (l.map s.data).sum := by
    intro l
    induction l with
    | nil => exact fun a _ => Nat.le_add_right a _
    | cons i l ih =>
        intro a hl
        -- A product or a sum that wraps is only smaller.
        have hstep : wrap64 (a + wrap64 (s.data i * i)) ≤ a + s.max * s.data i := by
          refine Nat.le_trans (wrap64_le _) (Nat.add_le_add_left ?_ a)
          refine Nat.le_trans (wrap64_le _) ?_
          rw [Nat.mul_comm]
          exact Nat.mul_le_mul_right _ (hl i List.mem_cons_self)
        have hrest := ih (wrap64 (a + wrap64 (s.data i * i))) fun j hj =>
          hl j (List.mem_cons_of_mem i hj)
        rw [List.foldl_cons, List.map_cons, List.sum_cons, Nat.mul_add]
        omega
  have hsum := hfold s.cells 0 fun i hi => ((mem_cells s i).mp hi).2
  rw [Nat.zero_add] at hsum
  exact hsum

section Bounds

variable {K : Type} [Field K] [LinearOrder K] [IsStrictOrderedRing K]

theorem mean_nonneg (s : Stats) : 0 ≤ (statsMeanLogged s : Divisions K K).value := by
  unfold statsMeanLogged
  split_ifs
  · exact le_refl 0
  · exact div_nonneg (Nat.cast_nonneg _) (Nat.cast_nonneg _)

theorem mean_le_max (s : Stats) (hs : Unwrapped s) :
    (statsMeanLogged s : Divisions K K).value ≤ s.max := by
  unfold statsMeanLogged
  split_ifs with hcount
  · exact Nat.cast_nonneg _
  · have hpos : (0 : K) < s.count := Nat.cast_pos.mpr (Nat.pos_of_ne_zero hcount)
    have hsum : s.meanSum ≤ s.max * s.count :=
      Nat.le_trans (meanSum_le s) (Nat.mul_le_mul_left _ hs)
    rw [Divisions.value_divide, div_le_iff₀ hpos]
    exact_mod_cast hsum

/-- No sample is farther from a mean below the maximum than the maximum. -/
theorem squareSum_le (s : Stats) (mean : K) (h0 : 0 ≤ mean) (hmax : mean ≤ s.max) :
    s.squareSum mean ≤ (s.max : K) ^ 2 * ((s.cells.map s.data).sum : Nat) := by
  have hfold : ∀ (l : List Nat) (a : K), (∀ i ∈ l, i ≤ s.max) →
      l.foldl (fun sum i =>
        if s.data i ≠ 0 then sum + ((i : K) - mean) ^ 2 * (s.data i : K) else sum) a ≤
          a + (s.max : K) ^ 2 * ((l.map s.data).sum : Nat) := by
    intro l
    induction l with
    | nil =>
        intro a _
        rw [List.foldl_nil, List.map_nil, List.sum_nil, Nat.cast_zero, mul_zero, add_zero]
    | cons i l ih =>
        intro a hl
        have hi : (i : K) ≤ s.max := Nat.cast_le.mpr (hl i List.mem_cons_self)
        have hi0 : (0 : K) ≤ i := Nat.cast_nonneg i
        -- Both the value and the mean are between zero and the maximum.
        have hsquare : ((i : K) - mean) ^ 2 ≤ (s.max : K) ^ 2 :=
          sq_le_sq' (by linarith) (by linarith)
        have hterm : ((i : K) - mean) ^ 2 * (s.data i : K) ≤ (s.max : K) ^ 2 * s.data i :=
          mul_le_mul_of_nonneg_right hsquare (Nat.cast_nonneg _)
        have hstep : (if s.data i ≠ 0 then a + ((i : K) - mean) ^ 2 * (s.data i : K) else a) ≤
            a + (s.max : K) ^ 2 * s.data i := by
          split_ifs
          · exact add_le_add_right hterm a
          · exact le_add_of_nonneg_right (mul_nonneg (sq_nonneg _) (Nat.cast_nonneg _))
        have hrest := ih (if s.data i ≠ 0 then a + ((i : K) - mean) ^ 2 * (s.data i : K) else a)
          fun j hj => hl j (List.mem_cons_of_mem i hj)
        rw [List.foldl_cons, List.map_cons, List.sum_cons, Nat.cast_add, mul_add]
        linarith
  have hsum := hfold s.cells 0 fun i hi => ((mem_cells s i).mp hi).2
  rw [zero_add] at hsum
  exact hsum

end Bounds

theorem stdev_nonneg (s : Stats) (mean : ℝ) : 0 ≤ (statsStdev Real.sqrt s mean).value := by
  unfold statsStdev
  split_ifs
  · exact le_refl 0
  · exact Real.sqrt_nonneg _

/-- The deviation is at most twice the maximum. -/
theorem stdev_le (s : Stats) (mean : ℝ) (h0 : 0 ≤ mean) (hmax : mean ≤ s.max) (hs : Unwrapped s) :
    (statsStdev Real.sqrt s mean).value ≤ 2 * s.max := by
  have hmax0 : (0 : ℝ) ≤ s.max := Nat.cast_nonneg _
  unfold statsStdev
  split_ifs with hcount
  · exact mul_nonneg (by norm_num) hmax0
  · have hpos : (0 : ℝ) < ((s.count - 1 : Nat) : ℝ) := Nat.cast_pos.mpr (by omega)
    -- There are at most twice as many samples as the sum is divided by.
    have htotal : ((s.cells.map s.data).sum : ℝ) ≤ 2 * ((s.count - 1 : Nat) : ℝ) := by
      unfold Unwrapped at hs
      exact_mod_cast (by omega : (s.cells.map s.data).sum ≤ 2 * (s.count - 1))
    have hsquares : s.squareSum mean ≤ (2 * (s.max : ℝ)) ^ 2 * ((s.count - 1 : Nat) : ℝ) :=
      calc s.squareSum mean ≤ (s.max : ℝ) ^ 2 * ((s.cells.map s.data).sum : Nat) :=
            squareSum_le s mean h0 hmax
        _ ≤ (s.max : ℝ) ^ 2 * (2 * ((s.count - 1 : Nat) : ℝ)) :=
            mul_le_mul_of_nonneg_left htotal (sq_nonneg _)
        _ ≤ (2 * (s.max : ℝ)) ^ 2 * ((s.count - 1 : Nat) : ℝ) := by
            nlinarith [mul_nonneg (sq_nonneg (s.max : ℝ)) hpos.le]
    change Real.sqrt (s.squareSum mean / ((s.count - 1 : Nat) : ℝ)) ≤ 2 * s.max
    rw [Real.sqrt_le_left (mul_nonneg (by norm_num) hmax0), div_le_iff₀ hpos]
    exact hsquares

/-! ### The report -/

/-- The numbers of a line, over the reals. -/
noncomputable def lineOf (s : Stats) : StatsLine ℝ := (printStats Real.sqrt s).value

/-- The texts that `print_stats` prints with `print_units`, and the widths of
    their columns. -/
def columns (fmt : ℝ → Bytes) (line : StatsLine ℝ) : List (Bytes × Nat) :=
  [(fmt line.mean, 8), (fmt line.stdev, 10), (fmt line.max, 9)]

/-- Those of `print_stats_latency`. -/
noncomputable def distributionColumns (s : Stats) : List (Bytes × Nat) :=
  percentiles.map fun p => (formatTimeUs (statsPercentile s p : ℝ), 10)

/-- What is printed of the latency histogram is whole. -/
def LatencyWhole (s : Stats) : Prop :=
  ∀ c ∈ columns formatTimeUs (lineOf s) ++ distributionColumns s, PrintsWhole c.1 c.2

/-- What is printed of the request-rate histogram is whole. -/
def RequestsWhole (s : Stats) : Prop := ∀ c ∈ columns formatMetric (lineOf s), PrintsWhole c.1 c.2

/-- The mean and the deviation have room when they are divided by so much. -/
structure Fits (unit : ℝ) (line : StatsLine ℝ) : Prop where
  mean : line.mean < room 8 * unit
  stdev : line.stdev < room 10 * unit

theorem lineOf_nonneg (s : Stats) : 0 ≤ (lineOf s).mean ∧ 0 ≤ (lineOf s).stdev :=
  ⟨mean_nonneg s, stdev_nonneg s _⟩

/-- Fewer than `2 ^ 64` samples do not wrap. -/
theorem unwrapped_recorded (M : Nat) (xs : List Nat) (hlen : xs.length < 2 ^ 64) :
    Unwrapped (recordAll (statsAlloc M) xs) := by
  rw [recordAll_accepted]
  have hsum := sum_cells M (accepted M xs) (fun _ => 1)
  rw [List.map_const', List.sum_replicate, smul_eq_mul, Nat.mul_one] at hsum
  -- A counter that wraps counts less than there is.
  have hle : ((ofSamples M (accepted M xs)).cells.map (ofSamples M (accepted M xs)).data).sum ≤
      (accepted M xs).length := by
    rw [← hsum]
    refine List.sum_le_sum fun i _ => ?_
    rw [Nat.mul_one]
    exact wrap64_le _
  have haccepted : (accepted M xs).length ≤ xs.length := List.length_filter_le _ xs
  unfold Unwrapped
  rw [ofSamples_total, wrap64_of_lt _ (by omega)]

/-- A line whose histogram has not wrapped has room. -/
theorem fits_of_unwrapped (s : Stats) (unit : ℝ) (hunit : 0 < unit) (hs : Unwrapped s)
    (hmax : (s.max : ℝ) < 999 * unit) : Fits unit (lineOf s) := by
  have hmean : (lineOf s).mean ≤ s.max := mean_le_max s hs
  have hstdev : (lineOf s).stdev ≤ 2 * s.max := stdev_le s _ (mean_nonneg s) hmean hs
  -- Twice the maximum has room in the column of the deviation.
  have h8 : (999 : ℝ) ≤ room 8 := by
    rw [room_eq]
    norm_num
  have h10 : (1998 : ℝ) ≤ room 10 := by
    rw [room_eq]
    norm_num
  constructor
  · calc (lineOf s).mean ≤ s.max := hmean
      _ < 999 * unit := hmax
      _ ≤ room 8 * unit := mul_le_mul_of_nonneg_right h8 hunit.le
  · calc (lineOf s).stdev ≤ 2 * s.max := hstdev
      _ < 1998 * unit := by linarith
      _ ≤ room 10 * unit := mul_le_mul_of_nonneg_right h10 hunit.le

/-- A time of at most two seconds is whole in a column of nine. -/
theorem time_whole (n width : Nat) (hn : n ≤ 2000000) (hwidth : 9 ≤ width) :
    PrintsWhole (formatTimeUs (n : ℝ)) width := by
  have hcast : (n : ℝ) ≤ 2000000 := by exact_mod_cast hn
  have hroom : (9999 : ℝ) ≤ room width := by
    have hpow : (10 : ℝ) ^ 4 ≤ 10 ^ (width - 5) := pow_le_pow_right₀ (by norm_num) (by omega)
    rw [room_eq]
    linarith
  rw [formatTimeUs_whole_iff _ (Nat.cast_nonneg n) width (by omega)]
  split_ifs with hsecond
  · linarith
  · linarith

/-- The lines of the latency histogram are whole if and only if its mean is not
    one that is rounded up to a second in milliseconds, and nothing has
    wrapped so far that it does not have room in minutes. -/
theorem latencyWhole_iff (M : Nat) (hM : M ≤ 2000000) (xs : List Nat) (h : Stats)
    (hs : Seen M xs h) :
    LatencyWhole h ↔
      ((lineOf h).mean < 999995 ∨ 1000000 ≤ (lineOf h).mean) ∧ Fits 60000000 (lineOf h) := by
  have hmax : h.max ≤ 2000000 := Nat.le_trans (seen_max M xs h hs) hM
  have hlinemax : PrintsWhole (formatTimeUs ((lineOf h).max : ℝ)) 9 :=
    time_whole h.max 9 hmax (le_refl 9)
  have hdistribution : ∀ c ∈ distributionColumns h, PrintsWhole c.1 c.2 := by
    intro c hc
    rcases List.mem_map.mp hc with ⟨p, _, rfl⟩
    exact time_whole _ 10 (Nat.le_trans (statsPercentile_le_max h p) hmax) (by omega)
  rcases lineOf_nonneg h with ⟨hmean0, hstdev0⟩
  have hmean : PrintsWhole (formatTimeUs (lineOf h).mean) 8 ↔
      ((lineOf h).mean < 999995 ∨ 1000000 ≤ (lineOf h).mean) ∧
        (lineOf h).mean < room 8 * 60000000 := by
    rw [formatTimeUs_whole_iff _ hmean0 8 (le_refl 8)]
    have h8 : (room 8 : ℝ) = 999995 / 1000 := by
      rw [room_eq]
      norm_num
    rw [h8]
    split_ifs with hsecond
    · exact ⟨fun hlt => ⟨Or.inr hsecond, hlt⟩, fun hlt => hlt.2⟩
    · rw [or_iff_left hsecond]
      constructor
      · intro hlt
        exact ⟨by linarith, by linarith⟩
      · rintro ⟨hlt, _⟩
        linarith
  have hstdev : PrintsWhole (formatTimeUs (lineOf h).stdev) 10 ↔
      (lineOf h).stdev < room 10 * 60000000 := by
    rw [formatTimeUs_whole_iff _ hstdev0 10 (by omega)]
    have h10 : (room 10 : ℝ) = 99999995 / 1000 := by
      rw [room_eq]
      norm_num
    rw [h10]
    split_ifs with hsecond
    · rfl
    · -- Below a second there is room either way.
      rw [not_le] at hsecond
      exact ⟨fun _ => by linarith, fun _ => by linarith⟩
  unfold LatencyWhole
  rw [List.forall_mem_append, and_iff_left hdistribution]
  unfold columns
  rw [List.forall_mem_cons, List.forall_mem_cons, List.forall_mem_singleton, hmean, hstdev,
    and_iff_left hlinemax]
  constructor
  · rintro ⟨⟨hround, hm⟩, hd⟩
    exact ⟨hround, hm, hd⟩
  · rintro ⟨hround, hfits⟩
    exact ⟨⟨hround, hfits.mean⟩, hfits.stdev⟩

/-- The line of the request-rate histogram is whole if and only if nothing has
    wrapped so far that it does not have room in tera. -/
theorem requestsWhole_iff (requestRates : List Nat) :
    RequestsWhole (requestsHistogram requestRates) ↔
      Fits (10 ^ 12) (lineOf (requestsHistogram requestRates)) := by
  have hmax : (requestsHistogram requestRates).max ≤ maxThreadRateS :=
    seen_max _ requestRates _ Seen.recorded
  generalize requestsHistogram requestRates = s at *
  rcases lineOf_nonneg s with ⟨hmean0, hstdev0⟩
  have hlinemax : PrintsWhole (formatMetric ((lineOf s).max : ℝ)) 9 := by
    have hcast : ((lineOf s).max : ℝ) ≤ 10000000 := by exact_mod_cast hmax
    have hroom := room_ge (K := ℝ) 9 (by omega)
    rw [formatMetric_whole_iff _ (Nat.cast_nonneg _) 9 (by omega)]
    linarith
  -- Of the three fields only the mean and the deviation are in question.
  unfold RequestsWhole columns
  rw [List.forall_mem_cons, List.forall_mem_cons, List.forall_mem_singleton,
    formatMetric_whole_iff _ hmean0 8 (le_refl 8), formatMetric_whole_iff _ hstdev0 10 (by omega),
    and_iff_left hlinemax]
  exact ⟨fun hlt => ⟨hlt.1, hlt.2⟩, fun hfits => ⟨hfits.mean, hfits.stdev⟩⟩

/-- For every histogram of latencies of up to two seconds and every histogram
    of request rates, the columns of the report are whole if and only if the
    mean latency is not from 999.995 ms up to a second, and the numbers have
    room, which they have as long as no counter has wrapped. -/
theorem columns_whole_iff (M : Nat) (hM : M ≤ 2000000) (latencies : List Nat) (h : Stats)
    (hs : Seen M latencies h) (requestRates : List Nat) :
    (LatencyWhole h ↔
      ((lineOf h).mean < 999995 ∨ 1000000 ≤ (lineOf h).mean) ∧ Fits 60000000 (lineOf h)) ∧
    (RequestsWhole (requestsHistogram requestRates) ↔
      Fits (10 ^ 12) (lineOf (requestsHistogram requestRates))) ∧
    (Unwrapped h → Fits 60000000 (lineOf h)) ∧
    (Unwrapped (requestsHistogram requestRates) →
      Fits (10 ^ 12) (lineOf (requestsHistogram requestRates))) := by
  refine ⟨latencyWhole_iff M hM latencies h hs, requestsWhole_iff requestRates, fun hu => ?_,
    fun hu => ?_⟩
  · -- Two seconds, and ten million requests, are far below the last unit.
    have hmax : (h.max : ℝ) ≤ 2000000 := by
      exact_mod_cast Nat.le_trans (seen_max M latencies h hs) hM
    exact fits_of_unwrapped h _ (by norm_num) hu (by linarith)
  · have hmax : ((requestsHistogram requestRates).max : ℝ) ≤ 10000000 := by
      exact_mod_cast seen_max maxThreadRateS requestRates _ Seen.recorded
    exact fits_of_unwrapped _ _ (by norm_num) hu (by linarith)

/-- One latency of five microseconds, and one rate. -/
theorem columns_whole_five :
    LatencyWhole (recordAll (statsAlloc 2000000) [5]) ∧ RequestsWhole (requestsHistogram [1]) := by
  rcases columns_whole_iff 2000000 (le_refl _) [5] _ Seen.recorded [1] with
    ⟨hlatency, hrequests, hfits, hfits'⟩
  have hu : Unwrapped (recordAll (statsAlloc 2000000) [5]) := unwrapped_recorded _ _ (by decide)
  have hmean : (lineOf (recordAll (statsAlloc 2000000) [5])).mean ≤ 5 := mean_le_max _ hu
  exact ⟨hlatency.mpr ⟨Or.inl (by linarith), hfits hu⟩,
    hrequests.mpr (hfits' (unwrapped_recorded _ _ (by decide)))⟩

/-- A mean that is rounded up to a second loses the last letter of its unit,
    and seems to be a thousand minutes. -/
theorem columns_truncated :
    printUnits (999996 : ℚ) formatTimeUs 8 = bytes "1000.00m" ∧
      ¬ LatencyWhole (recordAll (statsAlloc 2000000) [999996]) := by
  refine ⟨by decide +kernel, fun h => ?_⟩
  -- The mean of one sample is the sample.
  have hmean : (lineOf (recordAll (statsAlloc 2000000) [999996])).mean = 999996 := by
    have hexact : statsMean (recordAll (statsAlloc 2000000) [999996]) = 999996 := by
      decide +kernel
    have hvalue := statsMeanLogged_value (K := ℝ) (recordAll (statsAlloc 2000000) [999996])
    rw [hexact] at hvalue
    exact_mod_cast hvalue
  rcases ((latencyWhole_iff 2000000 (le_refl _) [999996] _ Seen.recorded).mp h).1 with hlt | hlt
  · rw [hmean] at hlt
    norm_num at hlt
  · rw [hmean] at hlt
    norm_num at hlt

end Wrk
