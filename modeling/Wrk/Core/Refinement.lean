import Wrk.Core.Transition

/-!
# Refinement by a Record

A program that keeps a record of what it does, over a specification whose
steps are the entries of the record. The program follows the specification if
whatever it records is a run of the specification, from what its state means
to what its next state means.

Following composes: a sequence of operations follows if each of them does, and
so does a loop. So the work is done once for each operation, and a whole run
refines the specification.

## Main definitions

* `Run`: A run of a specification along a list of labels.
* `Follows`: What has been recorded since is a run.
* `Refines`: An operation that keeps an invariant and follows.

## Theorems

* `run_append`, `run_split`: Runs in parts.
* `run_keeps`: What every step keeps, every run keeps.
* `follows_trans`, `follows_silent`, `follows_one`: How operations follow.
* `refines_comp`, `refines_foldl`: Sequences of operations.
* `refines_reaches`: A whole run of the program.
-/

namespace Wrk

namespace Refinement

open Transition

/-- Labels lead from one state of a specification to another. -/
def Run {σ α : Type*} (step : σ → α → σ → Prop) : σ → List α → σ → Prop
  | s, [], t => s = t
  | s, a :: as, t => ∃ m, step s a m ∧ Run step m as t

section Runs

variable {σ α : Type*} {step : σ → α → σ → Prop}

theorem run_append {s m t : σ} {as bs : List α} (h1 : Run step s as m) (h2 : Run step m bs t) :
    Run step s (as ++ bs) t := by
  induction as generalizing s with
  | nil =>
      have hs : s = m := h1
      rw [hs]
      exact h2
  | cons a as ih =>
      rcases h1 with ⟨u, hu, hrest⟩
      exact ⟨u, hu, ih hrest⟩

theorem run_split {s t : σ} {as bs : List α} (h : Run step s (as ++ bs) t) :
    ∃ m, Run step s as m ∧ Run step m bs t := by
  induction as generalizing s with
  | nil => exact ⟨s, rfl, h⟩
  | cons a as ih =>
      rcases h with ⟨u, hu, hrest⟩
      rcases ih hrest with ⟨m, hm, ht⟩
      exact ⟨m, ⟨u, hu, hm⟩, ht⟩

/-- What the first state has and every step keeps, the last state has. -/
theorem run_keeps (I : σ → Prop) (hstep : ∀ s a t, I s → step s a t → I t) {s t : σ}
    {as : List α} (hs : I s) (h : Run step s as t) : I t := by
  induction as generalizing s with
  | nil =>
      have hst : s = t := h
      rw [← hst]
      exact hs
  | cons a as ih =>
      rcases h with ⟨u, hu, hrest⟩
      exact ih (hstep s a u hs hu) hrest

end Runs

section Records

variable {τ σ α β : Type*} (step : σ → α → σ → Prop) (record : τ → List α)

/-- What has been recorded between two states, newest first, is a run between
    what they mean. -/
def Follows (c : τ) (a : σ) (c' : τ) (a' : σ) : Prop :=
  ∃ new, record c' = new ++ record c ∧ Run step a new.reverse a'

/-- An operation that keeps an invariant and follows the specification. -/
def Refines (view : τ → σ) (I : τ → Prop) (f : τ → τ) : Prop :=
  ∀ c, I c → I (f c) ∧ Follows step record c (view c) (f c) (view (f c))

variable {step record}

theorem follows_refl (c : τ) (a : σ) : Follows step record c a c a := ⟨[], rfl, rfl⟩

theorem follows_trans {c d e : τ} {x y z : σ} (h1 : Follows step record c x d y)
    (h2 : Follows step record d y e z) : Follows step record c x e z := by
  rcases h1 with ⟨new1, hrec1, hrun1⟩
  rcases h2 with ⟨new2, hrec2, hrun2⟩
  refine ⟨new2 ++ new1, ?_, ?_⟩
  · rw [hrec2, hrec1, List.append_assoc]
  · rw [List.reverse_append]
    exact run_append hrun1 hrun2

/-- Nothing is recorded, and nothing has changed for the specification. -/
theorem follows_silent {c d : τ} {x y : σ} (hrec : record d = record c) (hview : y = x) :
    Follows step record c x d y := ⟨[], hrec, hview.symm⟩

/-- One entry. -/
theorem follows_one {c d : τ} {x y : σ} (a : α) (hrec : record d = a :: record c)
    (hstep : step x a y) : Follows step record c x d y :=
  ⟨[a], hrec, y, hstep, rfl⟩

section Operations

variable {view : τ → σ} {I : τ → Prop}

theorem refines_comp {f g : τ → τ} (hf : Refines step record view I f)
    (hg : Refines step record view I g) : Refines step record view I (fun c => g (f c)) := by
  intro c hc
  rcases hf c hc with ⟨hI, hfollows⟩
  rcases hg (f c) hI with ⟨hI', hfollows'⟩
  exact ⟨hI', follows_trans hfollows hfollows'⟩

theorem refines_foldl (f : τ → β → τ) (l : List β)
    (hf : ∀ b ∈ l, Refines step record view I (fun c => f c b)) :
    Refines step record view I (fun c => l.foldl f c) := by
  induction l with
  | nil => exact fun c hc => ⟨hc, follows_refl c (view c)⟩
  | cons b l ih =>
      exact refines_comp (hf b List.mem_cons_self)
        (ih (fun d hd => hf d (List.mem_cons_of_mem b hd)))

/-- A run of the program refines the specification if its steps do. -/
theorem refines_reaches (next : τ → β → Option τ)
    (hnext : ∀ c b d, I c → next c b = some d →
      I d ∧ Follows step record c (view c) d (view d))
    (c d : τ) (hc : I c) (h : Reaches next c d) :
    I d ∧ Follows step record c (view c) d (view d) :=
  reaches_invariant next (fun d => I d ∧ Follows step record c (view c) d (view d))
    (fun u b v hu hv => ⟨(hnext u b v hu.1 hv).1,
      follows_trans hu.2 (hnext u b v hu.1 hv).2⟩) c d ⟨hc, follows_refl c (view c)⟩ h

end Operations

end Records

end Refinement

end Wrk
