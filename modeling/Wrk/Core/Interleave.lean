import Wrk.Core.Transition
import Mathlib.Algebra.BigOperators.Fin
import Mathlib.Algebra.BigOperators.Group.Finset.Piecewise

/-!
# Shared Memory Under Interleaving

Finitely many threads over one shared memory, one atomic step at a time. A
thread is a partial step function on the memory and its own local state; a
schedule is a list of thread numbers, and any schedule is allowed.

Two rules carry the proofs. `assertion_of_reaches` is rely and guarantee: an
assertion about the memory and one local state survives every interleaving
if the thread's own steps keep it and it is stable under a relation that
every step of every thread satisfies. `counter_eq_sum` is conservation: if
each step changes a shared quantity by exactly what it changes in the local
state of the thread that took it, the shared quantity is always the sum of
the local ones.

## Main definitions

* `Config`: A shared memory and one local state for each thread.
* `stepThread`: One atomic step of the scheduled thread.

## Theorems

* `stepThread_cases`: What a scheduled step does to the configuration.
* `rely_of_step`: One step moves the memory along the relation.
* `assertion_of_reaches`: A stable assertion holds of every thread.
* `memory_of_reaches`: A property of the memory the asserted steps keep.
* `counter_eq_sum`: A conserved quantity is the sum of its local parts.
* `counter_le_sum`: The same for a bound.
-/

namespace Wrk

namespace Interleave

open Transition

/-- A shared memory and one local state for each of `T` threads. -/
structure Config (M L : Type*) (T : Nat) where
  mem : M
  thread : Fin T → L

/-- One atomic step of thread `t`, if that thread has one to take. -/
def stepThread {M L : Type*} {T : Nat} (next : M → L → Option (M × L))
    (c : Config M L T) (t : Fin T) : Option (Config M L T) :=
  match next c.mem (c.thread t) with
  | none => none
  | some (m, l) => some { mem := m, thread := fun i => if i = t then l else c.thread i }

theorem stepThread_cases {M L : Type*} {T : Nat} (next : M → L → Option (M × L))
    (c c' : Config M L T) (t : Fin T) (h : stepThread next c t = some c') :
    next c.mem (c.thread t) = some (c'.mem, c'.thread t) ∧
      ∀ i, i ≠ t → c'.thread i = c.thread i := by
  simp only [stepThread] at h
  cases hn : next c.mem (c.thread t) with
  | none => simp only [hn, reduceCtorEq] at h
  | some ml =>
      simp only [hn, Option.some.injEq] at h
      rw [← h]
      exact ⟨by simp only [if_true], fun i hi => by simp only [if_neg hi]⟩

/-- A relation every local step satisfies is satisfied by every scheduled
    step. -/
theorem rely_of_step {M L : Type*} {T : Nat} (next : M → L → Option (M × L))
    (Rely : M → M → Prop)
    (hrely : ∀ m l m' l', next m l = some (m', l') → Rely m m')
    (c c' : Config M L T) (t : Fin T) (h : stepThread next c t = some c') :
    Rely c.mem c'.mem :=
  hrely _ _ _ _ (stepThread_cases next c c' t h).1

/-- Rely and guarantee. The assertion is kept by the thread it is about, and
    no step of another thread can break it because each of those moves the
    memory only along `Rely`. -/
theorem assertion_of_reaches {M L : Type*} {T : Nat} (next : M → L → Option (M × L))
    (Rely : M → M → Prop) (A : Fin T → M → L → Prop)
    (hrely : ∀ m l m' l', next m l = some (m', l') → Rely m m')
    (hstable : ∀ i m m' l, A i m l → Rely m m' → A i m' l)
    (hown : ∀ i m l m' l', A i m l → next m l = some (m', l') → A i m' l')
    (c c' : Config M L T) (h0 : ∀ i, A i c.mem (c.thread i))
    (hr : Reaches (stepThread next) c c') : ∀ i, A i c'.mem (c'.thread i) := by
  refine reaches_invariant (stepThread next) (fun d => ∀ i, A i d.mem (d.thread i))
    ?_ c c' h0 hr
  intro d t d' hd hs i
  rcases stepThread_cases next d d' t hs with ⟨hnext, hother⟩
  by_cases hi : i = t
  · rw [hi]
    exact hown _ _ _ _ _ (hd t) hnext
  · -- Another thread's step: only the memory moved.
    rw [hother i hi]
    exact hstable _ _ _ _ (hd i) (rely_of_step next Rely hrely d d' t hs)

/-- A property of the memory alone, kept by every step of a thread of which
    an assertion already known to hold is true. -/
theorem memory_of_reaches {M L : Type*} {T : Nat} (next : M → L → Option (M × L))
    (A : Fin T → M → L → Prop) (P : M → Prop)
    (hstep : ∀ i m l m' l', A i m l → P m → next m l = some (m', l') → P m')
    (c c' : Config M L T) (hall : ∀ d, Reaches (stepThread next) c d → ∀ i, A i d.mem (d.thread i))
    (h0 : P c.mem) (hr : Reaches (stepThread next) c c') : P c'.mem := by
  refine reaches_invariant_from (stepThread next) (fun d => P d.mem) c c' ?_ h0 hr
  intro d t d' hreach hd hs
  exact hstep _ _ _ _ _ (hall d hreach t) hd (stepThread_cases next d d' t hs).1

/-- Conservation. A shared quantity that each step changes by exactly what it
    changes in the stepping thread's own share equals the sum of the
    shares. -/
theorem counter_eq_sum {M L A : Type*} [AddCommGroup A] {T : Nat}
    (next : M → L → Option (M × L)) (shared : M → A) (share : L → A)
    (hown : ∀ m l m' l', next m l = some (m', l') →
      shared m' - shared m = share l' - share l)
    (c c' : Config M L T) (h0 : shared c.mem = ∑ i, share (c.thread i))
    (hr : Reaches (stepThread next) c c') : shared c'.mem = ∑ i, share (c'.thread i) := by
  refine reaches_invariant (stepThread next)
    (fun d => shared d.mem = ∑ i, share (d.thread i)) ?_ c c' h0 hr
  intro d t d' hd hs
  rcases stepThread_cases next d d' t hs with ⟨hnext, hother⟩
  have hdiff := hown _ _ _ _ hnext
  -- Only the summand of the stepping thread differs between the two sums.
  have hsum : ∑ i, share (d'.thread i) - ∑ i, share (d.thread i)
      = share (d'.thread t) - share (d.thread t) := by
    rw [← Finset.sum_sub_distrib]
    refine Finset.sum_eq_single t (fun i _ hi => ?_) (fun ht => absurd (Finset.mem_univ t) ht)
    rw [hother i hi, sub_self]
  rw [← hd, ← hdiff] at hsum
  exact (sub_left_inj.mp hsum).symm

/-- A shared quantity that no step increases by more than it increases in the
    stepping thread's own share is at most the sum of the shares. -/
theorem counter_le_sum {M L : Type*} {T : Nat} (next : M → L → Option (M × L))
    (A : Fin T → M → L → Prop) (shared : M → Nat) (share : L → Nat)
    (hown : ∀ i m l m' l', A i m l → next m l = some (m', l') →
      shared m' + share l ≤ shared m + share l')
    (c c' : Config M L T) (hall : ∀ d, Reaches (stepThread next) c d → ∀ i, A i d.mem (d.thread i))
    (h0 : shared c.mem ≤ ∑ i, share (c.thread i))
    (hr : Reaches (stepThread next) c c') : shared c'.mem ≤ ∑ i, share (c'.thread i) := by
  refine reaches_invariant_from (stepThread next)
    (fun d => shared d.mem ≤ ∑ i, share (d.thread i)) c c' ?_ h0 hr
  intro d t d' hreach hd hs
  rcases stepThread_cases next d d' t hs with ⟨hnext, hother⟩
  have hgrow := hown t _ _ _ _ (hall d hreach t) hnext
  -- The summands of the other threads are the same in both sums.
  have hrest : ∑ i ∈ Finset.univ.erase t, share (d'.thread i) =
      ∑ i ∈ Finset.univ.erase t, share (d.thread i) := by
    refine Finset.sum_congr rfl (fun i hi => ?_)
    rw [hother i (Finset.ne_of_mem_erase hi)]
  have hsum := Finset.add_sum_erase Finset.univ (fun i => share (d.thread i)) (Finset.mem_univ t)
  have hsum' := Finset.add_sum_erase Finset.univ (fun i => share (d'.thread i))
    (Finset.mem_univ t)
  omega

end Interleave

end Wrk
