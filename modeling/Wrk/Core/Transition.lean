import Mathlib.Data.List.Basic

/-!
# Labelled Transition Systems

A program driven from outside is a partial step function: a state, a label
saying what the environment did, and the next state, or nothing where that
label cannot occur. A run is a list of labels. Everything proved about runs
goes through `run_invariant`: a property of the first state that every step
keeps holds of the last one.

Invariants are often conditional, holding only while the environment behaves.
`onlyIf` keeps the steps that meet a condition, and a conditional invariant
is an ordinary one of the runs it leaves.

## Main definitions

* `run`: Iterating a partial step function along a list of labels.
* `onlyIf`: The steps that meet a condition.
* `Reaches`: Some list of labels leads from one state to another.
* `Along`: Labels that go with those of a run, step by step.

## Theorems

* `run_append`: A run over a concatenation is two runs.
* `run_invariant`: What every step keeps, every run keeps.
* `reaches_invariant`: What every step keeps, every reachable state has.
* `reaches_get`: An executed run reaches its result.
* `reaches_trans`: Reachability is transitive.
* `reaches_invariant_from`: The same for steps from reachable states only.
* `run_simulates`: A run of one system is a run of another that it shows.
-/

namespace Wrk

namespace Transition

/-- Follow a list of labels from a state, stopping with `none` at the first
    label the step function does not accept. -/
def run {σ α : Type*} (step : σ → α → Option σ) : σ → List α → Option σ
  | s, [] => some s
  | s, a :: as => match step s a with
    | none => none
    | some s' => run step s' as

/-- Only the steps that meet a condition. -/
def onlyIf {σ α : Type*} (ok : σ → α → Bool) (step : σ → α → Option σ) (s : σ) (a : α) :
    Option σ :=
  if ok s a then step s a else none

/-- Some list of labels leads from the first state to the second. -/
def Reaches {σ α : Type*} (step : σ → α → Option σ) (s t : σ) : Prop :=
  ∃ as, run step s as = some t

theorem run_cons {σ α : Type*} (step : σ → α → Option σ) (s s' : σ) (a : α) (as : List α)
    (h : step s a = some s') : run step s (a :: as) = run step s' as := by
  simp only [run, h]

theorem run_append {σ α : Type*} (step : σ → α → Option σ) (s m : σ) (as bs : List α)
    (h : run step s as = some m) : run step s (as ++ bs) = run step m bs := by
  induction as generalizing s with
  | nil =>
      simp only [run, Option.some.injEq] at h
      rw [h, List.nil_append]
  | cons a as ih =>
      cases hs : step s a with
      | none => simp only [run, hs, reduceCtorEq] at h
      | some s' =>
          rw [run_cons step s s' a as hs] at h
          rw [List.cons_append, run_cons step s s' a _ hs]
          exact ih s' h

/-- What the first state has and every step keeps, the last state has. -/
theorem run_invariant {σ α : Type*} (step : σ → α → Option σ) (I : σ → Prop)
    (hstep : ∀ s a s', I s → step s a = some s' → I s')
    (s t : σ) (as : List α) (h0 : I s) (h : run step s as = some t) : I t := by
  induction as generalizing s with
  | nil =>
      simp only [run, Option.some.injEq] at h
      rw [← h]
      exact h0
  | cons a as ih =>
      cases hs : step s a with
      | none => simp only [run, hs, reduceCtorEq] at h
      | some s' =>
          rw [run_cons step s s' a as hs] at h
          exact ih s' (hstep s a s' h0 hs) h

theorem onlyIf_some {σ α : Type*} (ok : σ → α → Bool) (step : σ → α → Option σ) (s t : σ) (a : α)
    (h : onlyIf ok step s a = some t) : ok s a = true ∧ step s a = some t := by
  unfold onlyIf at h
  by_cases hok : ok s a = true
  · rw [if_pos hok] at h
    exact ⟨hok, h⟩
  · rw [if_neg hok] at h
    exact absurd h.symm (Option.some_ne_none t)

theorem reaches_refl {σ α : Type*} (step : σ → α → Option σ) (s : σ) : Reaches step s s :=
  ⟨[], rfl⟩

/-- A run that gets through its labels reaches the state it computes. -/
theorem reaches_get {σ α : Type*} (step : σ → α → Option σ) (s : σ) (as : List α)
    (h : (run step s as).isSome = true) : Reaches step s ((run step s as).get h) :=
  ⟨as, by rw [Option.some_get]⟩

theorem reaches_trans {σ α : Type*} (step : σ → α → Option σ) (s m t : σ)
    (h1 : Reaches step s m) (h2 : Reaches step m t) : Reaches step s t := by
  rcases h1 with ⟨as, has⟩
  rcases h2 with ⟨bs, hbs⟩
  exact ⟨as ++ bs, by rw [run_append step s m as bs has, hbs]⟩

theorem reaches_invariant {σ α : Type*} (step : σ → α → Option σ) (I : σ → Prop)
    (hstep : ∀ s a s', I s → step s a = some s' → I s')
    (s t : σ) (h0 : I s) (h : Reaches step s t) : I t := by
  rcases h with ⟨as, has⟩
  exact run_invariant step I hstep s t as h0 has

/-- The same where a step may use that it starts from a reachable state. -/
theorem reaches_invariant_from {σ α : Type*} (step : σ → α → Option σ) (I : σ → Prop) (s t : σ)
    (hstep : ∀ u a u', Reaches step s u → I u → step u a = some u' → I u')
    (h0 : I s) (h : Reaches step s t) : I t := by
  have hboth : Reaches step s t ∧ I t := by
    refine reaches_invariant step (fun u => Reaches step s u ∧ I u) ?_ s t
      ⟨reaches_refl step s, h0⟩ h
    intro u a u' hu hs
    exact ⟨reaches_trans step s u u' hu.1 ⟨[a], by rw [run_cons step u u' a [] hs, run]⟩,
      hstep u a u' hu.1 hu.2 hs⟩
  exact hboth.2

/-- The second labels go with the first at the states a run goes through. -/
inductive Along {σ α β : Type*} (step : σ → α → Option σ) (goes : σ → α → β → Prop) :
    σ → List α → List β → Prop
  | nil (s : σ) : Along step goes s [] []
  | cons (s s' : σ) (a : α) (b : β) (as : List α) (bs : List β) (hstep : step s a = some s')
      (hgoes : goes s a b) (h : Along step goes s' as bs) : Along step goes s (a :: as) (b :: bs)

theorem along_eq {σ α : Type*} (step : σ → α → Option σ) (s : σ) (as bs : List α)
    (h : Along step (fun _ a b => a = b) s as bs) : as = bs := by
  induction h with
  | nil => rfl
  | cons s s' a b as bs _ hgoes _ ih => rw [hgoes, ih]

/-- A system that shows states of another, and whose steps are steps of the
    other with labels that go with theirs. -/
theorem run_simulates {σ τ α β : Type*} (step : σ → α → Option σ) (step' : τ → β → Option τ)
    (view : σ → τ) (I : σ → Prop) (goes : σ → α → β → Prop)
    (hstep : ∀ s a s', I s → step s a = some s' →
      I s' ∧ ∃ b, goes s a b ∧ step' (view s) b = some (view s'))
    (s t : σ) (as : List α) (h0 : I s) (h : run step s as = some t) :
    I t ∧ ∃ bs, Along step goes s as bs ∧ run step' (view s) bs = some (view t) := by
  induction as generalizing s with
  | nil =>
      simp only [run, Option.some.injEq] at h
      rw [← h]
      exact ⟨h0, [], .nil s, rfl⟩
  | cons a as ih =>
      cases hs : step s a with
      | none => simp only [run, hs, reduceCtorEq] at h
      | some s' =>
          rw [run_cons step s s' a as hs] at h
          rcases hstep s a s' h0 hs with ⟨hI, b, hb, hs'⟩
          rcases ih s' hI h with ⟨ht, bs, hbs, hrun⟩
          exact ⟨ht, b :: bs, .cons s s' a b as bs hs hb hbs,
            by rw [run_cons step' _ _ b bs hs', hrun]⟩

end Transition

end Wrk
