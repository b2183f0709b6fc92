import Mathlib.Order.Basic
import Mathlib.Tactic.Common

/-!
# While Loops

A `while` loop as a function of fuel, so that a loop which never ends is a
function that returns `none` at every amount of fuel. `Halts` says that some
amount suffices; more fuel then gives the same result.

The rules are the usual ones. `halts_invariant` carries an invariant to the
exit, `halts_step` assembles a loop from its iterations, and `halts_of_variant`
counts them down.
`not_halts_of_forever` is the converse tool: an invariant under which the
guard never fails.

## Main definitions

* `whileLoop`: The loop, run with a bound on the number of iterations.
* `Halts`: The loop ends in a given state.

## Theorems

* `whileLoop_mono`: More fuel does not change a result.
* `halts_step`: One iteration, then the rest.
* `whileLoop_simulates`: A loop that keeps more runs as long.
* `halts_invariant`: The invariant rule.
* `halts_of_variant`: The variant rule.
* `not_halts_of_forever`: The divergence rule.
-/

namespace Wrk

namespace Loop

/-- Run `body` while `guard` holds, for at most `fuel` iterations. -/
def whileLoop {σ : Type*} (guard : σ → Bool) (body : σ → σ) : Nat → σ → Option σ
  | 0, s => if guard s then none else some s
  | fuel + 1, s => if guard s then whileLoop guard body fuel (body s) else some s

/-- The loop started in `s` ends in `t`. -/
def Halts {σ : Type*} (guard : σ → Bool) (body : σ → σ) (s t : σ) : Prop :=
  ∃ fuel, whileLoop guard body fuel s = some t

theorem whileLoop_mono {σ : Type*} (guard : σ → Bool) (body : σ → σ) (fuel : Nat) :
    ∀ (s t : σ), whileLoop guard body fuel s = some t →
      ∀ more, whileLoop guard body (fuel + more) s = some t := by
  induction fuel with
  | zero =>
      intro s t h more
      simp only [whileLoop] at h
      cases hg : guard s with
      | true => simp only [hg, if_true, reduceCtorEq] at h
      | false =>
          simp only [hg, Bool.false_eq_true, if_false] at h
          cases more with
          | zero => simp only [whileLoop, hg, Bool.false_eq_true, if_false, h]
          | succ k =>
              rw [Nat.zero_add]
              simp only [whileLoop, hg, Bool.false_eq_true, if_false, h]
  | succ n ih =>
      intro s t h more
      rw [show n + 1 + more = n + more + 1 by omega]
      simp only [whileLoop] at h ⊢
      cases hg : guard s with
      | true =>
          simp only [hg, if_true] at h ⊢
          exact ih (body s) t h more
      | false =>
          simp only [hg, Bool.false_eq_true, if_false] at h ⊢
          exact h

theorem halts_exit {σ : Type*} (guard : σ → Bool) (body : σ → σ) (s : σ)
    (hg : guard s = false) : Halts guard body s s :=
  ⟨0, by simp only [whileLoop, hg, Bool.false_eq_true, if_false]⟩

theorem halts_step {σ : Type*} (guard : σ → Bool) (body : σ → σ) (s t : σ)
    (hg : guard s = true) (h : Halts guard body (body s) t) : Halts guard body s t := by
  rcases h with ⟨n, hn⟩
  exact ⟨n + 1, by simp only [whileLoop, hg, if_true, hn]⟩

/-- A loop that keeps more than another runs as long, and what it keeps of the
    other's state is that state. -/
theorem whileLoop_simulates {σ τ : Type*} (guard : σ → Bool) (body : σ → σ) (guard' : τ → Bool)
    (body' : τ → τ) (f : τ → σ) (hguard : ∀ t, guard' t = guard (f t))
    (hbody : ∀ t, f (body' t) = body (f t)) (fuel : Nat) (t : τ) :
    (whileLoop guard' body' fuel t).map f = whileLoop guard body fuel (f t) := by
  induction fuel generalizing t with
  | zero =>
      simp only [whileLoop, hguard]
      split_ifs <;> rfl
  | succ n ih =>
      simp only [whileLoop, hguard]
      split_ifs
      · rw [ih, hbody]
      · rfl

/-- The invariant rule: what the first state has and each iteration keeps,
    the last state has, and there the guard fails. -/
theorem halts_invariant {σ : Type*} (guard : σ → Bool) (body : σ → σ) (I : σ → Prop)
    (hbody : ∀ s, I s → guard s = true → I (body s)) (s t : σ) (h0 : I s)
    (h : Halts guard body s t) : I t ∧ guard t = false := by
  rcases h with ⟨fuel, hf⟩
  induction fuel generalizing s with
  | zero =>
      simp only [whileLoop] at hf
      cases hg : guard s with
      | true => simp only [hg, if_true, reduceCtorEq] at hf
      | false =>
          simp only [hg, Bool.false_eq_true, if_false, Option.some.injEq] at hf
          rw [← hf]
          exact ⟨h0, hg⟩
  | succ n ih =>
      simp only [whileLoop] at hf
      cases hg : guard s with
      | true =>
          simp only [hg, if_true] at hf
          exact ih (body s) (hbody s h0 hg) hf
      | false =>
          simp only [hg, Bool.false_eq_true, if_false, Option.some.injEq] at hf
          rw [← hf]
          exact ⟨h0, hg⟩

/-- The variant rule: under an invariant, a loop ends whose every iteration that
    is not the last makes something less. -/
theorem halts_of_variant {σ α : Type*} (guard : σ → Bool) (body : σ → σ) (I : σ → Prop)
    (r : α → α → Prop) (hwf : WellFounded r) (μ : σ → α)
    (hbody : ∀ s, I s → guard s = true →
      I (body s) ∧ (guard (body s) = true → r (μ (body s)) (μ s)))
    (s : σ) (h0 : I s) : ∃ t, Halts guard body s t := by
  have hall : ∀ a s, μ s = a → I s → ∃ t, Halts guard body s t := by
    intro a
    induction a using hwf.induction with
    | h a ih =>
        intro s hs hI
        cases hg : guard s with
        | false => exact ⟨s, halts_exit guard body s hg⟩
        | true =>
            rcases hbody s hI hg with ⟨hI', hless⟩
            cases hg' : guard (body s) with
            | false => exact ⟨body s, halts_step guard body s _ hg (halts_exit guard body _ hg')⟩
            | true =>
                rcases ih (μ (body s)) (hs ▸ hless hg') (body s) rfl hI' with ⟨t, ht⟩
                exact ⟨t, halts_step guard body s t hg ht⟩
  exact hall (μ s) s rfl h0

/-- The divergence rule: under an invariant that keeps the guard true there
    is no last state. -/
theorem not_halts_of_forever {σ : Type*} (guard : σ → Bool) (body : σ → σ) (I : σ → Prop)
    (hguard : ∀ s, I s → guard s = true) (hbody : ∀ s, I s → I (body s)) (s t : σ) (h0 : I s) :
    ¬ Halts guard body s t := by
  intro h
  rcases halts_invariant guard body I (fun u hu _ => hbody u hu) s t h0 h with ⟨hI, hg⟩
  rw [hguard t hI] at hg
  exact absurd hg (by simp only [reduceCtorEq, not_false_eq_true])

end Loop

end Wrk
