import Wrk.Units.Format
import Mathlib.Tactic.Positivity
import Mathlib.Tactic.Ring

/-!
# The Choice of a Unit

Which unit of a table an amount is printed with, and whether that is the unit
that covers it: the amount is not below 85 percent, unless the unit is the
base, and below 85 percent of the scale, unless there is no larger unit in the
table.

The loop stops one unit before the last, which is therefore never used, and
what it covers is printed with the unit before it.

## Main definitions

* `chosen`: The amount and the unit that are printed.
* `Covers`: A unit covers an amount.

## Theorems

* `formatUnits_chosen`: What is printed is the unit that is counted to.
* `chooseIndex_step`: What the loop keeps.
* `covers_iff`: The amounts that are printed with the unit that covers them.
-/

namespace Wrk

open HttpParser (Bytes bytes)

section Choose

variable {K : Type*} [Field K] [LinearOrder K]

/-- The amount that `format_units` prints and the index of its unit. -/
def chosen (m : Units) (n : K) : K × Nat := chooseIndex m.scale m.units n 0

/-- The unit with an index covers an amount, which is given in that unit. The
    base unit has the index zero. -/
structure Covers (m : Units) (n : K) (r : K × Nat) : Prop where
  listed : r.2 ≤ m.units.length
  exact : r.1 * (m.scale : K) ^ r.2 = n
  least : r.2 ≠ 0 → 85 / 100 ≤ r.1
  most : r.2 ≠ m.units.length → r.1 < m.scale * (85 / 100)

/-- The unit that is printed is the one that is counted to. -/
theorem chooseUnit_eq (scale : Nat) (units : List Bytes) (amt : K) (unit : Bytes) (i : Nat) :
    (chooseUnit scale units amt unit).1 = (chooseIndex scale units amt i).1 ∧
      i ≤ (chooseIndex scale units amt i).2 ∧
        (unit :: units)[(chooseIndex scale units amt i).2 - i]? =
          some (chooseUnit scale units amt unit).2 := by
  induction units generalizing amt unit i with
  | nil =>
      refine ⟨rfl, le_refl i, ?_⟩
      change [unit][i - i]? = some unit
      rw [Nat.sub_self, List.getElem?_cons_zero]
  | cons v units ih =>
      cases units with
      | nil =>
          refine ⟨rfl, le_refl i, ?_⟩
          change [unit, v][i - i]? = some unit
          rw [Nat.sub_self, List.getElem?_cons_zero]
      | cons u us =>
          -- Two units are left, so the test of the loop is made.
          rw [chooseUnit, chooseIndex]
          by_cases h : (scale : K) * (85 / 100) ≤ amt
          · rw [if_pos h, if_pos h]
            rcases ih (amt / scale) v (i + 1) with ⟨hamt, hle, hunit⟩
            refine ⟨hamt, by omega, ?_⟩
            -- The index counts from the unit before the loop.
            have hindex : (chooseIndex scale (u :: us) (amt / scale) (i + 1)).2 - i =
                (chooseIndex scale (u :: us) (amt / scale) (i + 1)).2 - (i + 1) + 1 := by omega
            rw [hindex, List.getElem?_cons_succ]
            exact hunit
          · rw [if_neg h, if_neg h]
            exact ⟨rfl, le_refl i, by rw [Nat.sub_self, List.getElem?_cons_zero]⟩

/-- What is printed is the amount that is chosen, and its unit. -/
theorem formatUnits_chosen [FloorSemiring K] (n : K) (m : Units) (p : Nat) :
    ∃ unit, (m.base :: m.units)[(chosen m n).2]? = some unit ∧
      formatUnits n m p = Decimal.fixed p (chosen m n).1 ++ unit := by
  rcases chooseUnit_eq m.scale m.units n m.base 0 with ⟨hamt, _, hunit⟩
  rw [Nat.sub_zero] at hunit
  refine ⟨_, hunit, ?_⟩
  unfold formatUnits chosen
  rw [← hamt]

variable [IsStrictOrderedRing K]

/-- What the loop keeps: the amount in the base unit, and that it is not too
    small. It stops at an amount that is small enough, or one unit before the
    last. -/
theorem chooseIndex_step (scale : Nat) (hs : 0 < scale) (units : List Bytes) (amt : K) (i : Nat)
    (hi : i ≠ 0 → 85 / 100 ≤ amt) :
    (chooseIndex scale units amt i).1 * (scale : K) ^ (chooseIndex scale units amt i).2 =
        amt * (scale : K) ^ i ∧
      ((chooseIndex scale units amt i).2 ≠ 0 → 85 / 100 ≤ (chooseIndex scale units amt i).1) ∧
        (chooseIndex scale units amt i).2 ≤ i + (units.length - 1) ∧
          ((chooseIndex scale units amt i).1 < scale * (85 / 100) ∨
            (chooseIndex scale units amt i).2 = i + (units.length - 1)) := by
  have hpos : (0 : K) < scale := Nat.cast_pos.mpr hs
  induction units generalizing amt i with
  | nil => exact ⟨rfl, hi, le_refl _, Or.inr rfl⟩
  | cons v units ih =>
      cases units with
      | nil => exact ⟨rfl, hi, le_refl _, Or.inr rfl⟩
      | cons u us =>
          rw [chooseIndex]
          by_cases h : (scale : K) * (85 / 100) ≤ amt
          · rw [if_pos h]
            have hleast : 85 / 100 ≤ amt / scale := by
              rw [le_div_iff₀ hpos, mul_comm]
              exact h
            rcases ih (amt / scale) (i + 1) (fun _ => hleast) with ⟨h1, h2, h3, h4⟩
            have hlen : (v :: u :: us).length - 1 = (u :: us).length - 1 + 1 := rfl
            refine ⟨?_, h2, by omega, ?_⟩
            · -- Dividing the amount and counting one unit more cancel.
              rw [h1, pow_succ', ← mul_assoc, div_mul_cancel₀ amt hpos.ne']
            · rcases h4 with h4 | h4
              · exact Or.inl h4
              · exact Or.inr (by omega)
          · rw [if_neg h]
            exact ⟨rfl, hi, Nat.le_add_right _ _, Or.inl (not_le.mp h)⟩

/-- An amount is printed with the unit that covers it if and only if that is
    not the last of the table, which is never used. -/
theorem covers_iff (m : Units) (n : K) (hs : 0 < m.scale) :
    (Covers m n (chosen m n) ↔
      m.units = [] ∨ n < 85 / 100 * (m.scale : K) ^ m.units.length) ∧
      (m.units ≠ [] → (chosen m n).2 < m.units.length) := by
  have hone : (1 : K) ≤ m.scale := Nat.one_le_cast.mpr hs
  rcases chooseIndex_step m.scale hs m.units n 0 (fun h => absurd rfl h) with ⟨h1, h2, h3, h4⟩
  unfold chosen
  generalize chooseIndex m.scale m.units n 0 = r at h1 h2 h3 h4
  rcases r with ⟨amt, j⟩
  rw [pow_zero, mul_one] at h1
  rw [Nat.zero_add] at h3 h4
  dsimp only at h1 h2 h3 h4 ⊢
  -- The loop stops at the last unit but one at the latest.
  have hlast : m.units ≠ [] → j < m.units.length := by
    intro hne
    have hpos := List.length_pos_iff.mpr hne
    omega
  refine ⟨⟨fun h => ?_, fun h => ?_⟩, hlast⟩
  · by_cases hne : m.units = []
    · exact Or.inl hne
    · -- The amount is too small to be divided as often as there are units.
      refine Or.inr ?_
      have hj := hlast hne
      calc n = amt * (m.scale : K) ^ j := h1.symm
        _ < m.scale * (85 / 100) * (m.scale : K) ^ j := by
          exact mul_lt_mul_of_pos_right (h.most hj.ne) (by positivity)
        _ = 85 / 100 * (m.scale : K) ^ (j + 1) := by rw [pow_succ]; ring
        _ ≤ 85 / 100 * (m.scale : K) ^ m.units.length := by
          exact mul_le_mul_of_nonneg_left (pow_le_pow_right₀ hone hj) (by norm_num)
  · refine ⟨by omega, h1, h2, fun hj => ?_⟩
    rcases h4 with h4 | h4
    · exact h4
    · rcases h with hnil | hn
      · rw [hnil] at hj h4
        exact absurd h4 hj
      · -- The unit is the last but one.
        have hcount : m.units.length = j + 1 := by
          rcases Nat.eq_zero_or_pos m.units.length with hzero | hpos
          · rw [hzero] at hj h4
            exact absurd h4 hj
          · omega
        have hpos : (0 : K) < (m.scale : K) ^ j := by positivity
        rw [hcount, pow_succ, ← h1] at hn
        refine lt_of_mul_lt_mul_right ?_ hpos.le
        calc amt * (m.scale : K) ^ j < 85 / 100 * ((m.scale : K) ^ j * m.scale) := hn
          _ = m.scale * (85 / 100) * (m.scale : K) ^ j := by ring

/-- What is printed of an amount that is not negative is below a bound that
    the loop's own is below, if and only if the amount is, in the last unit
    but one. -/
theorem chosen_lt_iff (m : Units) (n cap : K) (hs : 0 < m.scale) (hn : 0 ≤ n)
    (hcap : (m.scale : K) * (85 / 100) ≤ cap) :
    0 ≤ (chosen m n).1 ∧
      ((chosen m n).1 < cap ↔ n < cap * (m.scale : K) ^ (m.units.length - 1)) := by
  have hone : (1 : K) ≤ m.scale := Nat.one_le_cast.mpr hs
  rcases chooseIndex_step m.scale hs m.units n 0 (fun h => absurd rfl h) with ⟨h1, _, h3, h4⟩
  unfold chosen
  generalize chooseIndex m.scale m.units n 0 = r at h1 h3 h4
  rcases r with ⟨amt, j⟩
  rw [pow_zero, mul_one] at h1
  rw [Nat.zero_add] at h3 h4
  dsimp only at h1 h3 h4 ⊢
  have hpow : (0 : K) < (m.scale : K) ^ j := by positivity
  have hcap0 : 0 ≤ cap := le_trans (by positivity) hcap
  refine ⟨nonneg_of_mul_nonneg_left (by rw [h1]; exact hn) hpow, fun h => ?_, fun h => ?_⟩
  · calc n = amt * (m.scale : K) ^ j := h1.symm
      _ < cap * (m.scale : K) ^ j := mul_lt_mul_of_pos_right h hpow
      _ ≤ cap * (m.scale : K) ^ (m.units.length - 1) :=
          mul_le_mul_of_nonneg_left (pow_le_pow_right₀ hone h3) hcap0
  · rcases h4 with h4 | h4
    · exact lt_of_lt_of_le h4 hcap
    · -- The loop has stopped one unit before the last.
      rw [← h4, ← h1] at h
      exact lt_of_mul_lt_mul_right h hpow.le

end Choose

/-- A minute and a half, in the units of `format_time_s`. -/
theorem covers_iff_minute :
    chosen timeUnitsS (90 : ℚ) = (3 / 2, 1) ∧
      (Covers timeUnitsS (90 : ℚ) (chosen timeUnitsS 90) ↔
        timeUnitsS.units = [] ∨
          (90 : ℚ) < 85 / 100 * (timeUnitsS.scale : ℚ) ^ timeUnitsS.units.length) ∧
        (timeUnitsS.units ≠ [] → (chosen timeUnitsS (90 : ℚ)).2 < timeUnitsS.units.length) :=
  ⟨by decide +kernel, covers_iff timeUnitsS (90 : ℚ) (by decide)⟩

/-- Hours are printed in minutes, and peta in tera. -/
theorem last_unit_unused :
    formatTimeS (3600 : ℚ) = bytes "60m" ∧
      formatTimeUs (3600 * 1000000 : ℚ) = bytes "60.00m" ∧
      formatBinary (2 ^ 50 : ℚ) = bytes "1024.00T" ∧
      ¬Covers timeUnitsS (3600 : ℚ) (chosen timeUnitsS 3600) := by
  refine ⟨by decide +kernel, by decide +kernel, by decide +kernel, fun h => ?_⟩
  have hmost := h.most (by decide +kernel)
  exact absurd hmost (by decide +kernel)

end Wrk
