import Mathlib.Order.Lattice

/-!
# Retrying a Compare-and-Swap

A loop that lowers a shared cell to a value of its own, unless the cell is
there already. It keeps a copy of the cell, swaps its value in if the cell is
still the copy, and takes what it has found as its copy, whether or not it has
swapped. Everyone else who writes the cell lowers it.

The loop goes round once more after it has swapped, since it finds its own
copy then. An iteration that does not swap finds less than the copy, and has
been made by someone else's swap. So there are no more iterations than swaps
by others, one that swaps, and one after it.

## Main definitions

* `Loop`: The cell, and the copy of it.
* `iterate`: One iteration.
* `Retries`: The moves of a loop and of others, with the numbers of both.

## Theorems

* `retries_le`: The number of iterations.
* `iterate_lt`, `iterate_swap`: What an iteration does to the copy.
* `retries_after`: After a swap there is one iteration at most.
-/

namespace Wrk

namespace Retry

variable {α : Type*} [LinearOrder α]

/-- A shared cell and the copy of it that a loop keeps. -/
structure Loop (α : Type*) where
  cell : α
  seen : α

/-- One iteration of the loop for the value `n`. -/
def iterate (n : α) (x : Loop α) : Loop α :=
  if x.cell = x.seen then { x with cell := n } else { x with seen := x.cell }

/-- So many iterations of the loop, and so many swaps of others, lead from one
    state to another. -/
inductive Retries (n : α) (start : Loop α) : Nat → Nat → Loop α → Prop
  | refl : Retries n start 0 0 start
  | other (k s : Nat) (x : Loop α) (v : α) (hx : Retries n start k s x) (hv : v < x.cell) :
      Retries n start k (s + 1) { x with cell := v }
  | again (k s : Nat) (x : Loop α) (hx : Retries n start k s x) (hn : n < x.seen) :
      Retries n start (k + 1) s (iterate n x)

/-- An iteration that does not swap lowers the copy. -/
theorem iterate_lt (n : α) (x : Loop α) (hle : x.cell ≤ x.seen) (hne : x.cell ≠ x.seen) :
    iterate n x = { x with seen := x.cell } ∧ x.cell < x.seen :=
  ⟨if_neg hne, lt_of_le_of_ne hle hne⟩

/-- One that swaps leaves it. -/
theorem iterate_swap (n : α) (x : Loop α) (heq : x.cell = x.seen) :
    iterate n x = { x with cell := n } :=
  if_pos heq

/-- The copy of a loop is never below the cell. Before the loop's own swap
    every iteration is paid for by a swap of someone else, and while the copy
    is not the cell there is one to spare. After it, the cell is at the loop's
    value or below. -/
theorem retries_invariant (n : α) (start x : Loop α) (hstart : start.cell = start.seen) (k s : Nat)
    (h : Retries n start k s x) :
    x.cell ≤ x.seen ∧ ((k ≤ s ∧ (x.cell ≠ x.seen → k + 1 ≤ s)) ∨
      (x.cell ≤ n ∧ k ≤ s + 2 ∧ (n < x.seen → k ≤ s + 1))) := by
  induction h with
  | refl => exact ⟨le_of_eq hstart, Or.inl ⟨Nat.le_refl 0, fun hne => absurd hstart hne⟩⟩
  | other k s x v hx hv ih =>
      rcases ih with ⟨hle, ⟨hk, _⟩ | ⟨hcell, hk, hmore⟩⟩
      · exact ⟨le_trans hv.le hle, Or.inl ⟨by omega, fun _ => by omega⟩⟩
      · refine ⟨le_trans hv.le hle, Or.inr ⟨le_trans hv.le hcell, by omega, fun hn => ?_⟩⟩
        have hlt := hmore hn
        omega
  | again k s x hx hn ih =>
      rcases ih with ⟨hle, hpaid⟩
      by_cases heq : x.cell = x.seen
      · rw [iterate_swap n x heq]
        rcases hpaid with ⟨hk, _⟩ | ⟨hcell, _, _⟩
        · exact ⟨hn.le, Or.inr ⟨le_refl n, by omega, fun _ => by omega⟩⟩
        · -- Below the loop's value there is nothing left to swap.
          rw [heq] at hcell
          exact absurd hn (not_lt.mpr hcell)
      · rw [(iterate_lt n x hle heq).1]
        refine ⟨le_refl x.cell, ?_⟩
        rcases hpaid with ⟨_, hspare⟩ | ⟨hcell, _, hmore⟩
        · exact Or.inl ⟨hspare heq, fun hne => absurd rfl hne⟩
        · have hk := hmore hn
          exact Or.inr ⟨hcell, by omega, fun hlt => absurd hcell (not_le.mpr hlt)⟩

/-- A loop iterates at most twice more than others swap. -/
theorem retries_le (n : α) (start x : Loop α) (hstart : start.cell = start.seen) (k s : Nat)
    (h : Retries n start k s x) : k ≤ s + 2 := by
  rcases (retries_invariant n start x hstart k s h).2 with ⟨hk, _⟩ | ⟨_, hk, _⟩
  · omega
  · exact hk

/-- Once the cell is at its value or below, a loop iterates once at most. -/
theorem retries_after (n : α) (start x : Loop α) (hstart : start.cell ≤ n) (k s : Nat)
    (h : Retries n start k s x) : x.cell ≤ n ∧ k ≤ 1 ∧ (n < x.seen → k = 0) := by
  induction h with
  | refl => exact ⟨hstart, Nat.zero_le 1, fun _ => rfl⟩
  | other k s x v hx hv ih =>
      rcases ih with ⟨hcell, hk, hmore⟩
      exact ⟨le_trans hv.le hcell, hk, hmore⟩
  | again k s x hx hn ih =>
      rcases ih with ⟨hcell, _, hmore⟩
      have hne : x.cell ≠ x.seen := ne_of_lt (lt_of_le_of_lt hcell hn)
      have hnone := hmore hn
      -- The copy is above the cell, so nothing is swapped.
      unfold iterate
      rw [if_neg hne]
      exact ⟨hcell, by omega, fun hlt => absurd hcell (not_le.mpr hlt)⟩

end Retry

end Wrk
