import Mathlib.Algebra.Order.Field.Basic

/-!
# Logged Divisions

Computations that keep a log of the numbers they divide by, of machine
integers and of fractions alike. The value of such a computation is that of
the computation without the log, since a division by zero is zero here; what
the log adds is whether there has been one.

## Main definitions

* `Divisions`: A value, and the divisors of the divisions it took.
* `divide`, `divideNat`: A division.
* `Divisions.NoZero`: Nothing was divided by zero.

## Theorems

* `noZero_bind`: Of two computations in a row, neither divides by zero.
* `noZero_divide`, `noZero_divideNat`: A division, by what is not zero.
-/

namespace Wrk

/-- A value, and the divisors of the divisions it took, in order. -/
structure Divisions (K α : Type) where
  value : α
  divisors : List K

namespace Divisions

variable {K α β : Type}

instance : Monad (Divisions K) where
  pure a := ⟨a, []⟩
  bind x f := ⟨(f x.value).value, x.divisors ++ (f x.value).divisors⟩

/-- A division of fractions. -/
def divide [Div K] (a b : K) : Divisions K K := ⟨a / b, [b]⟩

/-- A division of integers. -/
def divideNat [NatCast K] (a b : Nat) : Divisions K Nat := ⟨a / b, [(b : K)]⟩

/-- No division was by zero. -/
def NoZero [Zero K] (x : Divisions K α) : Prop := ∀ d ∈ x.divisors, d ≠ 0

@[simp] theorem value_pure (a : α) : (pure a : Divisions K α).value = a := rfl

@[simp] theorem value_bind (x : Divisions K α) (f : α → Divisions K β) :
    (x >>= f).value = (f x.value).value := rfl

@[simp] theorem value_divide [Div K] (a b : K) : (divide a b).value = a / b := rfl

@[simp] theorem value_divideNat [NatCast K] (a b : Nat) :
    (divideNat a b : Divisions K Nat).value = a / b := rfl

@[simp] theorem noZero_pure [Zero K] (a : α) : (pure a : Divisions K α).NoZero :=
  fun _ hd => absurd hd List.not_mem_nil

/-- Neither of two computations in a row divides by zero, where the second is
    the one for the value of the first. -/
@[simp] theorem noZero_bind [Zero K] (x : Divisions K α) (f : α → Divisions K β) :
    (x >>= f).NoZero ↔ x.NoZero ∧ (f x.value).NoZero := by
  unfold NoZero
  rw [← List.forall_mem_append]
  rfl

@[simp] theorem noZero_divide [Zero K] [Div K] (a b : K) : (divide a b).NoZero ↔ b ≠ 0 :=
  List.forall_mem_singleton

@[simp] theorem noZero_divideNat [AddMonoidWithOne K] [CharZero K] (a b : Nat) :
    (divideNat a b : Divisions K Nat).NoZero ↔ b ≠ 0 := by
  rw [← Nat.cast_ne_zero (R := K)]
  exact List.forall_mem_singleton

end Divisions

end Wrk
