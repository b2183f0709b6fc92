import Wrk.Units.Scan

/-!
# Durations, Printed and Scanned

`format_time_s` prints a duration in seconds below 51, and else in minutes,
since the hours of the table are never reached. What it prints without
rounding, `scan_time` reads back.

## Theorems

* `formatTimeS_eq`: The text of a duration that is not rounded.
* `scanTime_natText`: A number and a unit are read back.
* `scanTime_formatTimeS`: Durations survive printing and scanning.
-/

namespace Wrk

open HttpParser (Bytes bytes)

open Scanf Decimal

section Durations

variable {K : Type*} [Field K] [LinearOrder K] [FloorSemiring K] [IsStrictOrderedRing K]

theorem fixed_zero (n : Nat) : fixed 0 (n : K) = natText n := by
  unfold fixed fixedText inDecimals
  rw [pow_zero, mul_one, roundHalfEven_natCast, pow_zero, Nat.div_one, if_pos rfl, List.append_nil]

/-- A duration below 51 seconds is printed in seconds, and one of minutes in
    minutes. -/
theorem formatTimeS_eq (d : Nat) :
    (d < 51 → formatTimeS (d : K) = natText d ++ bytes "s") ∧
      (51 ≤ d → 60 ∣ d → formatTimeS (d : K) = natText (d / 60) ++ bytes "m") := by
  have hscale : ((60 : Nat) : K) * (85 / 100) = (51 : Nat) := by norm_num
  unfold formatTimeS formatUnits timeUnitsS
  dsimp only
  rw [chooseUnit, hscale]
  constructor
  · intro hd
    have hlow : ¬ ((51 : Nat) : K) ≤ d := by
      rw [Nat.cast_le]
      omega
    rw [if_neg hlow, fixed_zero]
  · rintro hd ⟨q, rfl⟩
    have hhigh : ((51 : Nat) : K) ≤ (60 * q : Nat) := Nat.cast_le.mpr hd
    have hsixty : ((60 : Nat) : K) ≠ 0 := by norm_num
    -- With one unit left the loop stops.
    have hlast : ∀ x : K, chooseUnit 60 [bytes "h"] x (bytes "m") = (x, bytes "m") := fun _ => rfl
    rw [if_pos hhigh, hlast, Nat.cast_mul, mul_div_cancel_left₀ _ hsixty, fixed_zero,
      Nat.mul_div_cancel_left q (by decide)]

/-- A number with a unit is read back as its multiple. -/
theorem scanTime_natText (q n k : Nat) (unit : Bytes) (hunit : unit = bytes "s" ∨ unit = bytes "m")
    (hk : factor timeUnitsS unit = some k) (hfits : q * k < 2 ^ 64) :
    scanTime (natText q ++ unit) n = (0, q * k) := by
  have hdigit : ∀ b ∈ unit.head?, isDigit b = false := by
    rcases hunit with rfl | rfl <;> decide +kernel
  have hpos := factor_pos timeUnitsS timeUnitsS_lettered unit k hk
  have hmag : (⟨false, natText q⟩ : Numeral).magnitude = q := readFrom_natText q
  -- A product that fits is stored without saturation or wrapping.
  have hstored := (stored_of_fits ⟨false, natText q⟩ k hpos
    (by unfold Numeral.value; rw [if_neg Bool.false_ne_true]; exact Nat.cast_nonneg _)
    (by unfold Numeral.value; rw [if_neg Bool.false_ne_true, hmag]; exact_mod_cast hfits)).1
  unfold scanTime
  rw [scanUnits_eq, readNumeral_natText q unit hdigit, Option.bind_some, hk]
  dsimp only [Option.map_some]
  rw [hstored, hmag]

/-- A duration that is printed without rounding is scanned as the same
    duration. -/
theorem scanTime_formatTimeS (d n : Nat) (hd : d < 2 ^ 64) (hexact : d < 51 ∨ 60 ∣ d) :
    scanTime (formatTimeS (d : K)) n = (0, d) := by
  by_cases hlow : d < 51
  · rw [(formatTimeS_eq d).1 hlow]
    have hs := scanTime_natText d n 1 (bytes "s") (Or.inl rfl) (by decide +kernel) (by omega)
    rw [Nat.mul_one] at hs
    exact hs
  · have hdvd : 60 ∣ d := hexact.resolve_left hlow
    rw [(formatTimeS_eq d).2 (by omega) hdvd]
    -- The minutes are whole, so nothing is lost by the division.
    have hback : d / 60 * 60 = d := Nat.div_mul_cancel hdvd
    have hm := scanTime_natText (d / 60) n 60 (bytes "m") (Or.inr rfl) (by decide +kernel)
      (by omega)
    rw [hback] at hm
    exact hm

end Durations

/-- Ten minutes. -/
theorem scanTime_formatTimeS_minutes :
    formatTimeS (600 : ℚ) = bytes "10m" ∧ scanTime (formatTimeS ((600 : Nat) : ℚ)) 0 = (0, 600) :=
  ⟨by decide +kernel, scanTime_formatTimeS 600 0 (by decide) (Or.inr (by decide))⟩

end Wrk
