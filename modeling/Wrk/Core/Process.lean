import Mathlib.Data.List.Basic

/-!
# Processes that May End

Computations on a state that return, or end the whole process on the way.
Either way the state is there: what has been done before the end is not undone.

A contract says in which states a computation may start, in which it returns,
and in which it leaves the state if it ends the process. The contracts of the
parts of a program make up that of the whole, with one condition for the end.

## Main definitions

* `Process`: A computation.
* `Process.exit`, `Process.update`, `Process.state`: The basic ones.
* `Process.each`: A loop over a list.
* `Ensures`: A contract.
* `Maintains`: A condition that holds on all the way.
* `Yields`: A computation returns a value and a state.

## Theorems

* `bind_of_yields`, `bind_of_exit`: One computation after another.
* `ensures_bind`, `ensures_each`: Contracts of the parts of a program.
* `ensures_yields`: What a computation ensures of the state it returns.
* `maintains_bind`, `maintains_each`: A condition is kept by what each part keeps.
-/

namespace Wrk

/-- A computation that returns a value or ends the process. -/
structure Process (σ α : Type) where
  run : σ → Option α × σ

namespace Process

variable {σ α β : Type}

instance : Monad (Process σ) where
  pure a := ⟨fun s => (some a, s)⟩
  bind x f := ⟨fun s =>
    match x.run s with
    | (some a, s') => (f a).run s'
    | (none, s') => (none, s')⟩

/-- End the process. -/
def exit : Process σ α := ⟨fun s => (none, s)⟩

/-- Change the state. -/
def update (f : σ → σ) : Process σ Unit := ⟨fun s => (some (), f s)⟩

/-- Read the state. -/
def state : Process σ σ := ⟨fun s => (some s, s)⟩

/-- Do the same for each element of a list. -/
def each (f : α → Process σ Unit) : List α → Process σ Unit
  | [] => pure ()
  | a :: l => do
      f a
      each f l

/-- The computation returns. -/
def Yields (x : Process σ α) (s : σ) (a : α) (s' : σ) : Prop := x.run s = (some a, s')

/-- From every state with `P` the computation returns `a` in a state with
    `Q a`, or ends the process in one with `E`. -/
def Ensures (P : σ → Prop) (x : Process σ α) (Q : α → σ → Prop) (E : σ → Prop) : Prop :=
  ∀ s, P s → (∀ a, (x.run s).1 = some a → Q a (x.run s).2) ∧
    ((x.run s).1 = none → E (x.run s).2)

/-- From every state with `P` only states with `P` are left, whether the
    computation returns or not. -/
def Maintains (P : σ → Prop) (x : Process σ α) : Prop := ∀ s, P s → P (x.run s).2

/-- What follows a computation that returns. -/
theorem bind_of_yields (x : Process σ α) (f : α → Process σ β) (s : σ) (a : α) (s' : σ)
    (hx : Yields x s a s') : (x >>= f).run s = (f a).run s' := by
  change (match x.run s with | (some a, s') => (f a).run s' | (none, s') => (none, s')) = _
  rw [hx]

/-- Nothing follows one that ends the process. -/
theorem bind_of_exit (x : Process σ α) (f : α → Process σ β) (s s' : σ)
    (hx : x.run s = (none, s')) : (x >>= f).run s = (none, s') := by
  change (match x.run s with | (some a, s') => (f a).run s' | (none, s') => (none, s')) = _
  rw [hx]

theorem yields_bind {x : Process σ α} {f : α → Process σ β} {s s' s'' : σ} {a : α} {b : β}
    (hx : Yields x s a s') (hf : Yields (f a) s' b s'') : Yields (x >>= f) s b s'' :=
  (bind_of_yields x f s a s' hx).trans hf

/-! ### Contracts -/

theorem ensures_pure (P : σ → Prop) (a : α) (E : σ → Prop) :
    Ensures P (pure a : Process σ α) (fun _ => P) E := by
  intro s hs
  exact ⟨fun _ _ => hs, fun h => nomatch h⟩

theorem ensures_exit (P : σ → Prop) (Q : α → σ → Prop) :
    Ensures P (exit : Process σ α) Q P := by
  intro s hs
  exact ⟨fun _ h => absurd h (Option.some_ne_none _).symm, fun _ => hs⟩

theorem ensures_update (P : σ → Prop) (f : σ → σ) (Q E : σ → Prop) (h : ∀ s, P s → Q (f s)) :
    Ensures P (update f) (fun _ => Q) E := by
  intro s hs
  exact ⟨fun _ _ => h s hs, fun h => nomatch h⟩

theorem ensures_bind {P : σ → Prop} {x : Process σ α} {f : α → Process σ β}
    {R : α → σ → Prop} {Q : β → σ → Prop} {E : σ → Prop} (hx : Ensures P x R E)
    (hf : ∀ a, Ensures (R a) (f a) Q E) : Ensures P (x >>= f) Q E := by
  intro s hs
  rcases hx s hs with ⟨hreturns, hends⟩
  cases h : x.run s with
  | mk r s' =>
      rw [h] at hreturns hends
      cases r with
      | none =>
          rw [bind_of_exit x f s s' h]
          exact ⟨fun _ h => absurd h (Option.some_ne_none _).symm, fun _ => hends rfl⟩
      | some a =>
          rw [bind_of_yields x f s a s' h]
          exact hf a s' (hreturns a rfl)

/-- What is read has the property of the state it is read from. -/
theorem ensures_read {P : σ → Prop} {f : σ → Process σ β} {Q : β → σ → Prop} {E : σ → Prop}
    (hf : ∀ a, P a → Ensures (fun s => P s ∧ s = a) (f a) Q E) : Ensures P (state >>= f) Q E := by
  intro s hs
  rw [bind_of_yields state f s s s rfl]
  exact hf s hs s ⟨hs, rfl⟩

theorem ensures_exists {ι : Type} {P : ι → σ → Prop} {x : Process σ α} {Q : α → σ → Prop}
    {E : σ → Prop} (h : ∀ i, Ensures (P i) x Q E) : Ensures (fun s => ∃ i, P i s) x Q E := by
  intro s hs
  rcases hs with ⟨i, hi⟩
  exact h i s hi

theorem ensures_of_yields {P : σ → Prop} {x : Process σ α} {Q : α → σ → Prop} {E : σ → Prop}
    (h : ∀ s, P s → ∃ a s', Yields x s a s' ∧ Q a s') : Ensures P x Q E := by
  intro s hs
  rcases h s hs with ⟨a, s', hx, hq⟩
  unfold Yields at hx
  rw [hx]
  refine ⟨fun b hb => ?_, fun hn => absurd hn (Option.some_ne_none a)⟩
  rw [← Option.some.inj hb]
  exact hq

theorem ensures_mono {P P' : σ → Prop} {x : Process σ α} {Q Q' : α → σ → Prop}
    {E E' : σ → Prop} (h : Ensures P x Q E) (hP : ∀ s, P' s → P s)
    (hQ : ∀ a s, Q a s → Q' a s) (hE : ∀ s, E s → E' s) : Ensures P' x Q' E' := by
  intro s hs
  rcases h s (hP s hs) with ⟨hreturns, hends⟩
  exact ⟨fun a ha => hQ a _ (hreturns a ha), fun hn => hE _ (hends hn)⟩

/-- A loop, whose body keeps what it starts with. -/
theorem ensures_each {P E : σ → Prop} {f : α → Process σ Unit}
    (h : ∀ a, Ensures P (f a) (fun _ => P) E) (l : List α) :
    Ensures P (each f l) (fun _ => P) E := by
  induction l with
  | nil => exact ensures_pure P () E
  | cons a l ih => exact ensures_bind (h a) fun _ => ih

/-! ### Runs -/

/-- What is returned is as the contract says. -/
theorem ensures_yields {P : σ → Prop} {x : Process σ α} {Q : α → σ → Prop} {E : σ → Prop}
    (h : Ensures P x Q E) (s : σ) (hs : P s) (a : α) (s' : σ) (hx : Yields x s a s') :
    Q a s' := by
  have hfst : (x.run s).1 = some a := congrArg Prod.fst hx
  have hsnd : (x.run s).2 = s' := congrArg Prod.snd hx
  rw [← hsnd]
  exact (h s hs).1 a hfst

/-- What is left has a property that both ends have. -/
theorem ensures_left {P : σ → Prop} {x : Process σ α} {Q : σ → Prop}
    (h : Ensures P x (fun _ => Q) Q) (s : σ) (hs : P s) : Q (x.run s).2 := by
  rcases h s hs with ⟨hreturns, hends⟩
  cases hx : (x.run s).1 with
  | none => exact hends hx
  | some a => exact hreturns a hx

/-! ### Kept conditions -/

theorem maintains_iff (P : σ → Prop) (x : Process σ α) :
    Maintains P x ↔ Ensures P x (fun _ => P) P :=
  ⟨fun h s hs => ⟨fun _ _ => h s hs, fun _ => h s hs⟩, fun h s hs => ensures_left h s hs⟩

theorem maintains_pure (P : σ → Prop) (a : α) : Maintains P (pure a : Process σ α) := fun _ hs => hs

theorem maintains_bind {P : σ → Prop} {x : Process σ α} {f : α → Process σ β} (hx : Maintains P x)
    (hf : ∀ a, Maintains P (f a)) : Maintains P (x >>= f) :=
  (maintains_iff P _).mpr
    (ensures_bind ((maintains_iff P x).mp hx) fun a => (maintains_iff P (f a)).mp (hf a))

theorem maintains_each {P : σ → Prop} {f : α → Process σ Unit} (h : ∀ a, Maintains P (f a))
    (l : List α) : Maintains P (each f l) :=
  (maintains_iff P _).mpr (ensures_each (fun a => (maintains_iff P (f a)).mp (h a)) l)

end Process

end Wrk
