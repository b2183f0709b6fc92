import Mathlib.Data.Nat.ModEq
import Mathlib.Algebra.BigOperators.Group.List.Basic
import Mathlib.Tactic.NormNum

/-!
# Unsigned Words

Machine words as natural numbers. An unsigned counter holds its value modulo
a power of two, so an addition is the exact sum followed by `wrap64`. Sums of
wrapped terms agree with the exact sum up to one final `wrap64`, which is how
totals kept by many small additions are computed.

## Main definitions

* `uint64Max`: The largest 64-bit value.
* `wrap64`: A natural number as a 64-bit value.
* `sub64`: Subtraction that wraps below zero.
* `toInt64`, `toInt32`: The signed readings of a word.

## Theorems

* `wrap64_lt`: A wrapped value is below the modulus.
* `wrap64_of_lt`: Wrapping changes nothing that already fits.
* `wrap64_add_wrap64`: Adding a wrapped term and wrapping forgets the inner
  wrap.
* `wrap64_sum_wrap64`: A wrapped sum of wrapped terms is the wrapped sum.
-/

namespace Wrk

/-- The largest value of a 64-bit unsigned integer. -/
def uint64Max : Nat := 2 ^ 64 - 1

/-- The value a 64-bit unsigned integer holds after being assigned `n`. -/
def wrap64 (n : Nat) : Nat := n % 2 ^ 64

/-- The value a 32-bit unsigned integer holds after being assigned `n`. -/
def wrap32 (n : Nat) : Nat := n % 2 ^ 32

/-- The value a 16-bit unsigned integer holds after being assigned `n`. -/
def wrap16 (n : Nat) : Nat := n % 2 ^ 16

/-- Subtraction of 64-bit unsigned integers. -/
def sub64 (a b : Nat) : Nat := if b ≤ a then a - b else a + 2 ^ 64 - b

/-- The conversion of a 64-bit unsigned integer to a signed one. -/
def toInt64 (n : Nat) : Int := if n < 2 ^ 63 then n else (n : Int) - 2 ^ 64

/-- The conversion of a 32-bit unsigned integer to a signed one. -/
def toInt32 (n : Nat) : Int := if n < 2 ^ 31 then n else (n : Int) - 2 ^ 32

theorem wrap64_lt (n : Nat) : wrap64 n < 2 ^ 64 :=
  Nat.mod_lt n (by norm_num)

theorem wrap64_of_lt (n : Nat) (h : n < 2 ^ 64) : wrap64 n = n :=
  Nat.mod_eq_of_lt h

theorem wrap64_le (n : Nat) : wrap64 n ≤ n :=
  Nat.mod_le n _

@[simp] theorem wrap64_zero : wrap64 0 = 0 := rfl

@[simp] theorem wrap64_wrap64 (n : Nat) : wrap64 (wrap64 n) = wrap64 n :=
  Nat.mod_mod n _

@[simp] theorem wrap64_wrap64_add (a b : Nat) : wrap64 (wrap64 a + b) = wrap64 (a + b) :=
  Nat.mod_add_mod a _ b

@[simp] theorem wrap64_add_wrap64 (a b : Nat) : wrap64 (a + wrap64 b) = wrap64 (a + b) :=
  Nat.add_mod_mod a b _

@[simp] theorem wrap64_wrap64_mul (a b : Nat) : wrap64 (wrap64 a * b) = wrap64 (a * b) :=
  Nat.mod_mul_mod a b _

/-- Two wrapped sums over the same first term agree exactly when the second
    terms agree. -/
theorem wrap64_add_left_cancel (a b c : Nat) :
    wrap64 (a + b) = wrap64 (a + c) ↔ wrap64 b = wrap64 c := by
  unfold wrap64
  exact ⟨fun h => Nat.ModEq.add_left_cancel' a h, fun h => Nat.ModEq.add_left a h⟩

/-- A wrapped sum of wrapped terms is the wrapped sum of the terms. -/
theorem wrap64_sum_wrap64 {ι : Type*} (l : List ι) (f : ι → Nat) :
    wrap64 (l.map (fun i => wrap64 (f i))).sum = wrap64 (l.map f).sum := by
  induction l with
  | nil => rfl
  | cons i l ih =>
      rw [List.map_cons, List.map_cons, List.sum_cons, List.sum_cons, wrap64_wrap64_add,
        ← wrap64_add_wrap64, ih, wrap64_add_wrap64]

/-- A subtraction that does not go below zero is exact. -/
theorem sub64_of_le (a b : Nat) (h : b ≤ a) : sub64 a b = a - b := if_pos h

theorem toInt64_of_lt (n : Nat) (h : n < 2 ^ 63) : toInt64 n = n := by
  rw [toInt64, if_pos h]

theorem toInt32_of_lt (n : Nat) (h : n < 2 ^ 31) : toInt32 n = n := by
  rw [toInt32, if_pos h]

theorem toInt64_neg (n : Nat) (h : 2 ^ 63 ≤ n) (h' : n < 2 ^ 64) : toInt64 n < 0 := by
  rw [toInt64, if_neg (by omega)]
  omega

end Wrk
