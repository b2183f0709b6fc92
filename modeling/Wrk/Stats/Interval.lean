import Wrk.Stats.Closed

/-!
# The Interval of the Correction

At the end of a run `main` divides the time it took by the number of responses
each connection has had, and corrects the latencies with the quotient as the
interval. It checks that the divisor is not zero. The quotient is zero when
more responses have come than microseconds have passed, and the inner loop
then lowers its index by nothing. It is negative, as a signed number, when the
clock has been set back during the run, and the index then rises.

Either way the correction returns only if no inner loop is entered at all.

## Main definitions

* `interval`: The interval `main` computes.
* `correctLatency`: The correction as `main` calls it.
* `Skipped`: No inner loop is entered.

## Theorems

* `correctAt_forever`: An inner loop that does not end.
* `correctLatency_returns_iff`: When the correction returns.
* `correctLatency_hangs`: A run at whose end it does not.
-/

namespace Wrk

open Loop

/-- The interval: a quotient of unsigned numbers, stored as a signed one. -/
def interval (runtimeUs complete connections : Nat) : Int :=
  toInt64 (runtimeUs / (complete / connections))

/-- The correction at the end of `main`. -/
def correctLatency (s : Stats) (runtimeUs complete connections fuel : Nat) : Option Stats :=
  if complete / connections > 0 then
    statsCorrect s (interval runtimeUs complete connections) fuel
  else some s

/-- No counter the outer loop visits lets the inner loop start. -/
def Skipped (s : Stats) (expected : Int) : Prop :=
  ∀ n, correctStart expected ≤ n → n ≤ s.max → s.data n ≠ 0 → toInt64 n ≤ 2 * expected

/-- The inner loop is entered for a counter. -/
theorem correctGuard_start (s : Stats) (expected : Int) (n : Nat) :
    correctGuard expected (s.data n) (s, toInt64 n - expected) = true ↔
      s.data n ≠ 0 ∧ 2 * expected < toInt64 n := by
  unfold correctGuard
  rw [Bool.and_eq_true, bne_iff_ne, decide_eq_true_eq]
  dsimp only
  refine and_congr_right fun _ => ?_
  omega

/-- Without a positive interval an inner loop that is entered never ends. -/
theorem correctAt_forever (s : Stats) (expected : Int) (n fuel : Nat) (he : expected ≤ 0)
    (hdata : s.data n ≠ 0) (hstart : 2 * expected < toInt64 n) :
    correctAt expected fuel s n = none := by
  have hguard := (correctGuard_start s expected n).mpr ⟨hdata, hstart⟩
  have hforever := not_halts_of_forever (correctGuard expected (s.data n))
    (correctBody expected (s.data n))
    (fun x => correctGuard expected (s.data n) x = true) (fun _ h => h) (fun x h => ?_)
    (s, toInt64 n - expected)
  · cases hloop : whileLoop (correctGuard expected (s.data n))
      (correctBody expected (s.data n)) fuel (s, toInt64 n - expected) with
    | none => rw [correctAt, hloop, Option.map_none]
    | some x => exact absurd ⟨fuel, hloop⟩ (hforever x hguard)
  · -- The index does not fall.
    unfold correctGuard correctBody at *
    rw [Bool.and_eq_true, decide_eq_true_eq] at *
    refine ⟨h.1, ?_⟩
    have hlt := h.2
    dsimp only
    omega

/-- One that is not entered changes nothing. -/
theorem correctAt_skips (s : Stats) (expected : Int) (n fuel : Nat)
    (h : ¬ (s.data n ≠ 0 ∧ 2 * expected < toInt64 n)) :
    correctAt expected fuel s n = some s := by
  have hguard : correctGuard expected (s.data n) (s, toInt64 n - expected) = false := by
    rw [← Bool.not_eq_true, correctGuard_start]
    exact h
  have hloop : whileLoop (correctGuard expected (s.data n)) (correctBody expected (s.data n))
      fuel (s, toInt64 n - expected) = some (s, toInt64 n - expected) := by
    cases fuel with
    | zero => rw [whileLoop, hguard, if_neg Bool.false_ne_true]
    | succ fuel => rw [whileLoop, hguard, if_neg Bool.false_ne_true]
  rw [correctAt, hloop]
  rfl

/-- Without a positive interval the correction returns if it has nothing to
    do. -/
theorem statsCorrect_returns_iff (s : Stats) (expected : Int) (he : expected ≤ 0) :
    (∃ fuel h, statsCorrect s expected fuel = some h) ↔ Skipped s expected := by
  have hfold : ∀ (l : List Nat) (fuel : Nat),
      (∃ h, l.foldlM (correctAt expected fuel) s = some h) ↔
        ∀ n ∈ l, ¬ (s.data n ≠ 0 ∧ 2 * expected < toInt64 n) := by
    intro l fuel
    induction l with
    | nil => exact ⟨fun _ n hn => absurd hn List.not_mem_nil, fun _ => ⟨s, rfl⟩⟩
    | cons n l ih =>
        rw [List.foldlM_cons]
        -- The first counter that lets the inner loop start is the last one reached.
        by_cases hn : s.data n ≠ 0 ∧ 2 * expected < toInt64 n
        · rw [correctAt_forever s expected n fuel he hn.1 hn.2]
          exact ⟨fun ⟨_, h⟩ => absurd h.symm (Option.some_ne_none _),
            fun h => absurd hn (h n List.mem_cons_self)⟩
        · rw [correctAt_skips s expected n fuel hn, List.forall_mem_cons, and_iff_right hn, ← ih]
          rfl
  -- The loop visits the counters that the condition speaks of.
  have hrange : (∀ n ∈ List.range' (correctStart expected) (s.max + 1 - correctStart expected),
      ¬ (s.data n ≠ 0 ∧ 2 * expected < toInt64 n)) ↔ Skipped s expected := by
    unfold Skipped
    constructor
    · intro h n hlo hhi hdata
      by_contra hlt
      exact h n (List.mem_range'_1.mpr (by omega)) ⟨hdata, by omega⟩
    · rintro h n hn ⟨hdata, hlt⟩
      rw [List.mem_range'_1] at hn
      have hle := h n (by omega) (by omega) hdata
      omega
  constructor
  · rintro ⟨fuel, h⟩
    exact hrange.mp ((hfold _ fuel).mp h)
  · intro h
    exact ⟨0, (hfold _ 0).mpr (hrange.mpr h)⟩

/-- The correction that `main` calls returns if and only if the interval it
    computes is positive, or there is nothing to correct. -/
theorem correctLatency_returns_iff (M : Nat) (xs : List Nat)
    (runtimeUs complete connections : Nat) (hruntime : runtimeUs < 2 ^ 64)
    (hguard : complete / connections > 0) :
    (∃ fuel h, correctLatency (recordAll (statsAlloc M) xs) runtimeUs complete connections fuel =
      some h) ↔
      0 < interval runtimeUs complete connections ∨
        Skipped (recordAll (statsAlloc M) xs) (interval runtimeUs complete connections) := by
  unfold correctLatency
  simp only [if_pos hguard]
  by_cases he : interval runtimeUs complete connections ≤ 0
  · rw [statsCorrect_returns_iff _ _ he]
    exact ⟨Or.inr, fun h => h.resolve_left (by omega)⟩
  · refine ⟨fun _ => Or.inl (by omega), fun _ => ?_⟩
    -- A positive interval is the number of microseconds.
    have hquot : runtimeUs / (complete / connections) < 2 ^ 64 :=
      Nat.lt_of_le_of_lt (Nat.div_le_self _ _) hruntime
    have hsmall : runtimeUs / (complete / connections) < 2 ^ 63 := by
      by_contra hc
      have hneg := toInt64_neg _ (Nat.le_of_not_lt hc) hquot
      unfold interval at he
      omega
    have heq : interval runtimeUs complete connections =
        ((runtimeUs / (complete / connections) : Nat) : Int) := toInt64_of_lt _ hsmall
    have hmax := recordAll_max_lt M xs
    rw [heq] at he ⊢
    rcases statsCorrect_effect (recordAll (statsAlloc M) xs)
      (runtimeUs / (complete / connections)) (by omega) (by omega)
      (seen_fits M xs _ Seen.recorded) (by omega) with ⟨fuel, hf⟩
    exact ⟨fuel, _, hf⟩

/-- An interval of three, and a sample of ten that hides two more. -/
theorem correctLatency_returns_three :
    (∃ fuel h, correctLatency (recordAll (statsAlloc 20) [2, 10]) 30 10 1 fuel = some h) ∧
      (correctLatency (recordAll (statsAlloc 20) [2, 10]) 30 10 1 5).map Stats.count = some 4 :=
  ⟨(correctLatency_returns_iff 20 [2, 10] 30 10 1 (by decide) (by decide)).mpr
    (Or.inl (by decide)), rfl⟩

/-- Ten responses in five microseconds, as the clock tells it: the interval is
    zero and the correction of a sample of ten does not return. -/
theorem correctLatency_hangs : ¬ ∀ (M : Nat) (xs : List Nat) (runtimeUs complete connections : Nat),
    runtimeUs < 2 ^ 64 → complete / connections > 0 →
      ∃ fuel h, correctLatency (recordAll (statsAlloc M) xs) runtimeUs complete connections fuel =
        some h := by
  intro hall
  rcases hall 20 [10] 5 10 1 (by decide) (by decide) with ⟨fuel, h, hf⟩
  have hzero : interval 5 10 1 = 0 := rfl
  have hreturns : ∃ fuel h, statsCorrect (recordAll (statsAlloc 20) [10]) 0 fuel = some h := by
    refine ⟨fuel, h, ?_⟩
    rw [← hzero]
    exact hf
  have hskipped := (statsCorrect_returns_iff _ 0 (Int.le_refl 0)).mp hreturns
  -- The sample of ten lies above twice the interval.
  have hten := hskipped 10 (by decide) (by decide) (by decide)
  exact absurd hten (by decide)

end Wrk
