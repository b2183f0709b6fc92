import Wrk.Core.Decimal
import Wrk.HttpParser.Types

/-!
# Amounts with Units

`units.c`: an amount is divided by the scale of a table of units as long as it
is not below 85 percent of the scale, and printed with the unit reached. The
last unit of a table is never reached, since the test looks one unit ahead.

Amounts are exact numbers. The program computes with `long double`.

## Main definitions

* `Units`: A table of units.
* `chooseUnit`, `chooseIndex`: The loop of `format_units`.
* `formatUnits`, `formatBinary`: An amount as it is printed.

## Theorems

* `chooseUnit_mem`: The unit reached is the base or one of the table.
-/

namespace Wrk

open HttpParser (Bytes bytes)

/-- A table of units. -/
structure Units where
  scale : Nat
  base : Bytes
  units : List Bytes

def timeUnitsUs : Units := { scale := 1000, base := bytes "us", units := [bytes "ms", bytes "s"] }

def timeUnitsS : Units := { scale := 60, base := bytes "s", units := [bytes "m", bytes "h"] }

def binaryUnits : Units :=
  { scale := 1024
    base := []
    units := [bytes "K", bytes "M", bytes "G", bytes "T", bytes "P"] }

def metricUnits : Units :=
  { scale := 1000
    base := []
    units := [bytes "k", bytes "M", bytes "G", bytes "T", bytes "P"] }

section Format

variable {K : Type*} [Field K] [LinearOrder K] [FloorSemiring K]

/-- The loop of `format_units`, from a unit on. It goes on while there are two
    more. -/
def chooseUnit (scale : Nat) : List Bytes → K → Bytes → K × Bytes
  | u :: u' :: us, amt, unit =>
      if (scale : K) * (85 / 100) ≤ amt then chooseUnit scale (u' :: us) (amt / scale) u
      else (amt, unit)
  | _, amt, unit => (amt, unit)

/-- The same loop with the index of the unit, which is zero for the base. -/
def chooseIndex (scale : Nat) : List Bytes → K → Nat → K × Nat
  | _ :: u :: us, amt, i =>
      if (scale : K) * (85 / 100) ≤ amt then chooseIndex scale (u :: us) (amt / scale) (i + 1)
      else (amt, i)
  | _, amt, i => (amt, i)

/-- `format_units`. -/
def formatUnits (n : K) (m : Units) (p : Nat) : Bytes :=
  let r := chooseUnit m.scale m.units n m.base
  Decimal.fixed p r.1 ++ r.2

def formatBinary (n : K) : Bytes := formatUnits n binaryUnits 2

def formatMetric (n : K) : Bytes := formatUnits n metricUnits 2

def formatTimeUs (n : K) : Bytes :=
  if 1000000 ≤ n then formatUnits (n / 1000000) timeUnitsS 2 else formatUnits n timeUnitsUs 2

def formatTimeS (n : K) : Bytes := formatUnits n timeUnitsS 0

omit [FloorSemiring K] in
/-- The unit reached is the one at the start or one of the table, but not the
    last of it. -/
theorem chooseUnit_mem (scale : Nat) (units : List Bytes) (amt : K) (unit : Bytes) :
    (chooseUnit scale units amt unit).2 ∈ unit :: units.dropLast := by
  induction units generalizing amt unit with
  | nil => exact List.mem_cons_self
  | cons u us ih =>
      cases us with
      | nil => exact List.mem_cons_self
      | cons u' us =>
          rw [chooseUnit]
          by_cases hamt : (scale : K) * (85 / 100) ≤ amt
          · rw [if_pos hamt, List.dropLast_cons_cons]
            exact List.mem_cons_of_mem _ (ih _ _)
          · rw [if_neg hamt]
            exact List.mem_cons_self

end Format

end Wrk
