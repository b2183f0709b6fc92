import Wrk.Core.Retry
import Wrk.Stats.Atomic

/-!
# The Loops of `stats_record` Under Contention

How often the compare-and-swap loops of `stats_record` go round while other
threads record. The loop for the minimum lowers its field and the loop for
the maximum raises its own, which is the same with the sign changed.

A loop lasts from the load of its copy to the iteration whose guard fails.
Its iterations are counted, and so are the successful swaps of its field by
other threads in the meantime.

## Main definitions

* `Bound`: Which of the two fields, with what a loop does to it.
* `Caller.copy`, `Caller.turn`: A thread in its loop, and before an iteration.
* `LoopSteps`: The steps of all threads while one is in a loop.

## Theorems

* `callerStep_again`, `callerStep_stays`, `callerStep_keeps`: One step.
* `retries_of_loopSteps`: A loop is one that retries a compare-and-swap.
* `loop_bounded`: How often a loop goes round, and what it does to its local
  variable.
* `loop_keeps_copy`: The local variable need not change.
-/

namespace Wrk

namespace Atomic

open Interleave Transition Retry

/-- The two fields that are kept by a compare-and-swap loop. -/
inductive Bound where
  | min
  | max
  deriving DecidableEq, Repr

namespace Bound

def field : Bound → Stats → Nat
  | .min, s => s.min
  | .max, s => s.max

/-- The guard of the loop: a value improves on another. -/
def Better : Bound → Nat → Nat → Prop
  | .min, n, v => n < v
  | .max, n, v => n > v

instance (b : Bound) (n v : Nat) : Decidable (b.Better n v) := by
  cases b
  · exact Nat.decLt n v
  · exact Nat.decLt v n

/-- The call is about to load the field. -/
def Loads : Bound → RecordPc → Prop
  | .min, .loadMin _ => True
  | .max, .loadMax _ _ => True
  | _, _ => False

/-- The argument and the copy of the field, of a call that has loaded it and
    not left its loop. -/
def copy : Bound → RecordPc → Option (Nat × Nat)
  | .min, .loadMax n v => some (n, v)
  | .min, .lowerMin n v _ => some (n, v)
  | .max, .lowerMin n _ v => some (n, v)
  | .max, .raiseMax n v => some (n, v)
  | _, _ => none

/-- The same, of a call whose next step is an iteration of the loop. -/
def turn : Bound → RecordPc → Option (Nat × Nat)
  | .min, .lowerMin n v _ => if n < v then some (n, v) else none
  | .max, .raiseMax n v => if n > v then some (n, v) else none
  | _, _ => none

/-- The order in which the field only ever falls. -/
def key : Bound → Nat → Int
  | .min, v => v
  | .max, v => -(v : Int)

theorem key_lt (b : Bound) (n v : Nat) : b.key n < b.key v ↔ b.Better n v := by
  cases b
  · exact Int.ofNat_lt
  · change -(n : Int) < -(v : Int) ↔ n > v
    omega

theorem key_inj (b : Bound) (n v : Nat) : b.key n = b.key v ↔ n = v := by
  cases b
  · exact Int.ofNat_inj
  · change -(n : Int) = -(v : Int) ↔ n = v
    omega

end Bound

/-- A thread's copy of a field, and its next iteration. -/
def Caller.copy (b : Bound) (c : Caller) : Option (Nat × Nat) := c.pc.bind b.copy

def Caller.turn (b : Bound) (c : Caller) : Option (Nat × Nat) := c.pc.bind b.turn

/-- The thread's next step is an iteration whose swap succeeds. -/
def Swaps (b : Bound) (s : Stats) (c : Caller) : Prop :=
  ∃ n v, c.turn b = some (n, v) ∧ b.field s = v

/-- The steps of all threads while thread `t` is in its loop, with how often
    it iterates and how often others swap the field. -/
inductive LoopSteps {T : Nat} (b : Bound) (t : Fin T) (c : Interleave.Config Stats Caller T) :
    Nat → Nat → Interleave.Config Stats Caller T → Prop
  | refl : LoopSteps b t c 0 0 c
  | again (k s n v : Nat) (d d' : Interleave.Config Stats Caller T)
      (h : LoopSteps b t c k s d)
      (hturn : (d.thread t).turn b = some (n, v)) (hs : stepThread callerStep d t = some d') :
      LoopSteps b t c (k + 1) s d'
  | stays (k s n v : Nat) (d d' : Interleave.Config Stats Caller T)
      (h : LoopSteps b t c k s d)
      (hcopy : (d.thread t).copy b = some (n, v)) (hturn : (d.thread t).turn b = none)
      (hs : stepThread callerStep d t = some d') : LoopSteps b t c k s d'
  | swap (k s n v : Nat) (u : Fin T) (d d' : Interleave.Config Stats Caller T)
      (h : LoopSteps b t c k s d)
      (hcopy : (d.thread t).copy b = some (n, v)) (hu : u ≠ t)
      (hswap : Swaps b d.mem (d.thread u)) (hs : stepThread callerStep d u = some d') :
      LoopSteps b t c k (s + 1) d'
  | other (k s n v : Nat) (u : Fin T) (d d' : Interleave.Config Stats Caller T)
      (h : LoopSteps b t c k s d)
      (hcopy : (d.thread t).copy b = some (n, v)) (hu : u ≠ t)
      (hswap : ¬ Swaps b d.mem (d.thread u)) (hs : stepThread callerStep d u = some d') :
      LoopSteps b t c k s d'

/-! ### One step -/

/-- A step of a call that is in progress. -/
theorem callerStep_pc (s s' : Stats) (c c' : Caller) (pc : RecordPc) (hpc : c.pc = some pc)
    (h : callerStep s c = some (s', c')) :
    s' = (recordStep s pc).1 ∧ c'.pc = (recordStep s pc).2.getLeft? := by
  rcases callerStep_cases s s' c c' h with ⟨_, _, hnone, _⟩ | ⟨q, pc', hq, hr, rfl⟩ |
    ⟨q, r, hq, hr, rfl⟩
  · -- A call in progress does not begin.
    rw [hpc] at hnone
    cases hnone
  · rw [hpc, Option.some.injEq] at hq
    rw [hq, hr]
    exact ⟨rfl, rfl⟩
  · rw [hpc, Option.some.injEq] at hq
    rw [hq, hr]
    exact ⟨rfl, rfl⟩

/-- A call whose next step is an iteration has a copy, which its value improves
    on. -/
theorem turn_copy (b : Bound) (c : Caller) (n v : Nat) (h : c.turn b = some (n, v)) :
    c.copy b = some (n, v) ∧ b.Better n v := by
  unfold Caller.turn at h
  unfold Caller.copy
  rw [Option.bind_eq_some_iff] at h
  rcases h with ⟨pc, hpc, hturn⟩
  rw [hpc, Option.bind_some]
  cases b with
  | min =>
      cases pc with
      | lowerMin m min max =>
          simp only [Bound.turn] at hturn
          split_ifs at hturn with hlt
          cases hturn
          exact ⟨rfl, hlt⟩
      | _ => cases hturn
  | max =>
      cases pc with
      | raiseMax m max =>
          simp only [Bound.turn] at hturn
          split_ifs at hturn with hlt
          cases hturn
          exact ⟨rfl, hlt⟩
      | _ => cases hturn

/-- An iteration swaps if the field is the copy, and takes the field as its
    copy. -/
theorem callerStep_again (b : Bound) (s s' : Stats) (c c' : Caller) (n v : Nat)
    (hturn : c.turn b = some (n, v)) (h : callerStep s c = some (s', c')) :
    (b.field s = v → b.field s' = n) ∧ (b.field s ≠ v → b.field s' = b.field s) ∧
      c'.copy b = some (n, b.field s) := by
  unfold Caller.turn at hturn
  unfold Caller.copy
  rw [Option.bind_eq_some_iff] at hturn
  rcases hturn with ⟨pc, hpc, hturn⟩
  rcases callerStep_pc s s' c c' pc hpc h with ⟨rfl, hpc'⟩
  rw [hpc']
  cases b with
  | min =>
      cases pc with
      | lowerMin m min max =>
          simp only [Bound.turn] at hturn
          split_ifs at hturn with hlt
          cases hturn
          simp only [recordStep, if_pos hlt]
          -- The swap compares the field with the copy and returns what it found.
          refine ⟨fun hcell => ?_, fun hcell => ?_, rfl⟩
          · rw [if_pos (show s.min = v from hcell)]
            rfl
          · rw [if_neg (show ¬ s.min = v from hcell)]
      | _ => cases hturn
  | max =>
      cases pc with
      | raiseMax m max =>
          simp only [Bound.turn] at hturn
          split_ifs at hturn with hlt
          cases hturn
          simp only [recordStep, if_pos hlt]
          refine ⟨fun hcell => ?_, fun hcell => ?_, rfl⟩
          · rw [if_pos (show s.max = v from hcell)]
            rfl
          · rw [if_neg (show ¬ s.max = v from hcell)]
      | _ => cases hturn

/-- A step that is no successful swap leaves the field. -/
theorem callerStep_keeps (b : Bound) (s s' : Stats) (c c' : Caller) (hswap : ¬ Swaps b s c)
    (h : callerStep s c = some (s', c')) : b.field s' = b.field s := by
  rcases callerStep_mem s s' c c' h with rfl | ⟨pc, hpc, rfl⟩
  · rfl
  · unfold Swaps Caller.turn at hswap
    rw [hpc, Option.bind_some] at hswap
    cases b with
    | min =>
        cases pc with
        | lowerMin n min max =>
            simp only [recordStep]
            by_cases hlt : n < min
            · -- An exchange that took place would be a swap.
              rw [if_pos hlt]
              have hcell : ¬ s.min = min := fun hcell => hswap ⟨n, min, if_pos hlt, hcell⟩
              rw [if_neg hcell]
            · rw [if_neg hlt]
        | raiseMax n max =>
            simp only [recordStep]
            split_ifs <;> rfl
        | entry n =>
            simp only [recordStep]
            split_ifs <;> rfl
        | _ => rfl
    | max =>
        cases pc with
        | raiseMax n max =>
            simp only [recordStep]
            by_cases hlt : n > max
            · rw [if_pos hlt]
              have hcell : ¬ s.max = max := fun hcell => hswap ⟨n, max, if_pos hlt, hcell⟩
              rw [if_neg hcell]
            · rw [if_neg hlt]
        | lowerMin n min max =>
            simp only [recordStep]
            split_ifs <;> rfl
        | entry n =>
            simp only [recordStep]
            split_ifs <;> rfl
        | _ => rfl

/-- A step of a call in the loop that is no iteration keeps the copy, or leaves
    the loop. -/
theorem callerStep_stays (b : Bound) (s s' : Stats) (c c' : Caller) (n v : Nat)
    (hcopy : c.copy b = some (n, v)) (hturn : c.turn b = none)
    (h : callerStep s c = some (s', c')) (m w : Nat) (hcopy' : c'.copy b = some (m, w)) :
    m = n ∧ w = v := by
  unfold Caller.copy at hcopy hcopy'
  unfold Caller.turn at hturn
  rw [Option.bind_eq_some_iff] at hcopy
  rcases hcopy with ⟨pc, hpc, hcopy⟩
  rw [hpc, Option.bind_some] at hturn
  rw [(callerStep_pc s s' c c' pc hpc h).2] at hcopy'
  cases b with
  | min =>
      cases pc with
      | loadMax i lo =>
          cases hcopy
          cases hcopy'
          exact ⟨rfl, rfl⟩
      | lowerMin i lo hi =>
          -- The guard has failed, and the loop is left.
          have hlt : ¬ i < lo := by
            intro hlt
            simp only [Bound.turn, if_pos hlt, reduceCtorEq] at hturn
          simp only [recordStep, if_neg hlt] at hcopy'
          cases hcopy'
      | _ => cases hcopy
  | max =>
      cases pc with
      | lowerMin i lo hi =>
          cases hcopy
          simp only [recordStep] at hcopy'
          split_ifs at hcopy' <;> cases hcopy' <;> exact ⟨rfl, rfl⟩
      | raiseMax i hi =>
          have hlt : ¬ i > hi := by
            intro hlt
            simp only [Bound.turn, if_pos hlt, reduceCtorEq] at hturn
          simp only [recordStep, if_neg hlt] at hcopy'
          cases hcopy'
      | _ => cases hcopy

/-- The first step of a loop takes the field as the copy. -/
theorem callerStep_loads (b : Bound) (s s' : Stats) (c c' : Caller) (pc : RecordPc)
    (hpc : c.pc = some pc) (hloads : b.Loads pc) (h : callerStep s c = some (s', c')) :
    s' = s ∧ c'.copy b = some (pc.arg, b.field s) := by
  unfold Caller.copy
  rcases callerStep_pc s s' c c' pc hpc h with ⟨rfl, hpc'⟩
  rw [hpc']
  cases b with
  | min =>
      cases pc with
      | loadMin n => exact ⟨rfl, rfl⟩
      | _ => exact hloads.elim
  | max =>
      cases pc with
      | loadMax n v => exact ⟨rfl, rfl⟩
      | _ => exact hloads.elim

/-! ### The whole loop -/

/-- A loop of a thread, with the swaps of the others, is a loop that retries a
    compare-and-swap. -/
theorem retries_of_loopSteps {T : Nat} (b : Bound) (t : Fin T)
    (c d : Interleave.Config Stats Caller T) (k s n v : Nat)
    (hcopy : (c.thread t).copy b = some (n, v)) (h : LoopSteps b t c k s d) :
    ∃ x, Retries (b.key n) ⟨b.key (b.field c.mem), b.key v⟩ k s x ∧
      x.cell = b.key (b.field d.mem) ∧
        ∀ m w, (d.thread t).copy b = some (m, w) → m = n ∧ x.seen = b.key w := by
  induction h with
  | refl =>
      refine ⟨_, Retries.refl, rfl, fun m w hmw => ?_⟩
      rw [hcopy, Option.some.injEq, Prod.mk.injEq] at hmw
      rcases hmw with ⟨rfl, rfl⟩
      exact ⟨rfl, rfl⟩
  | again k s m w d d' _ hturn hs ih =>
      rcases ih with ⟨x, hx, hcell, hseen⟩
      rcases turn_copy b _ m w hturn with ⟨hold, hbetter⟩
      rcases hseen m w hold with ⟨rfl, hw⟩
      rcases stepThread_cases callerStep d d' t hs with ⟨hnext, _⟩
      rcases callerStep_again b _ _ _ _ m w hturn hnext with ⟨htaken, hleft, hnew⟩
      refine ⟨_, Retries.again k s x hx (by rw [hw]; exact (b.key_lt m w).mpr hbetter), ?_, ?_⟩
      · unfold iterate
        by_cases heq : b.field d.mem = w
        · rw [if_pos (by rw [hcell, hw, heq]), htaken heq]
        · rw [if_neg (by rw [hcell, hw, b.key_inj]; exact heq), hleft heq]
          exact hcell
      · intro i j hij
        rw [hnew, Option.some.injEq, Prod.mk.injEq] at hij
        rcases hij with ⟨rfl, rfl⟩
        refine ⟨rfl, ?_⟩
        -- The copy is what was found, whether or not it was replaced.
        unfold iterate
        split_ifs with heq
        · rw [← hcell, heq]
        · exact hcell
  | stays k s m w d d' _ hold hturn hs ih =>
      rcases ih with ⟨x, hx, hcell, hseen⟩
      rcases stepThread_cases callerStep d d' t hs with ⟨hnext, _⟩
      have hnoswap : ¬ Swaps b d.mem (d.thread t) := by
        rintro ⟨_, _, hsome, _⟩
        rw [hturn] at hsome
        cases hsome
      refine ⟨x, hx, ?_, fun i j hij => ?_⟩
      · rw [hcell, callerStep_keeps b _ _ _ _ hnoswap hnext]
      · rcases callerStep_stays b _ _ _ _ m w hold hturn hnext i j hij with ⟨rfl, rfl⟩
        exact hseen _ _ hold
  | swap k s m w u d d' _ hold hu hswap hs ih =>
      rcases ih with ⟨x, hx, hcell, hseen⟩
      rcases stepThread_cases callerStep d d' u hs with ⟨hnext, hothers⟩
      rcases hswap with ⟨i, j, hturn, hfound⟩
      have hfield := (callerStep_again b _ _ _ _ i j hturn hnext).1 hfound
      have hlt : b.key i < x.cell := by
        rw [hcell, hfound]
        exact (b.key_lt i j).mpr (turn_copy b _ i j hturn).2
      refine ⟨_, Retries.other k s x (b.key i) hx hlt, by rw [hfield], fun p q hpq => ?_⟩
      rw [hothers t (Ne.symm hu)] at hpq
      exact hseen p q hpq
  | other k s m w u d d' _ hold hu hswap hs ih =>
      rcases ih with ⟨x, hx, hcell, hseen⟩
      rcases stepThread_cases callerStep d d' u hs with ⟨hnext, hothers⟩
      refine ⟨x, hx, by rw [hcell, callerStep_keeps b _ _ _ _ hswap hnext], fun p q hpq => ?_⟩
      rw [hothers t (Ne.symm hu)] at hpq
      exact hseen p q hpq

/-- A loop of `stats_record` iterates at most twice more often than other
    threads swap its field in the meantime. An iteration whose swap fails
    improves the local variable strictly. One whose swap succeeds leaves it,
    and at most one more iteration follows. -/
theorem loop_bounded {T : Nat} (b : Bound) (t : Fin T) (c0 c d : Interleave.Config Stats Caller T)
    (pc : RecordPc) (hpc : (c0.thread t).pc = some pc) (hloads : b.Loads pc)
    (hload : stepThread callerStep c0 t = some c) (k s : Nat) (h : LoopSteps b t c k s d) :
    k ≤ s + 2 ∧ ∀ n v d', (d.thread t).turn b = some (n, v) →
      stepThread callerStep d t = some d' → ∃ v', (d'.thread t).copy b = some (n, v') ∧
        ((b.field d.mem ≠ v ∧ b.Better v' v) ∨
          (b.field d.mem = v ∧ b.field d'.mem = n ∧ v' = v ∧
            ∀ k' s' e, LoopSteps b t d' k' s' e → k' ≤ 1)) := by
  rcases stepThread_cases callerStep c0 c t hload with ⟨hnext, _⟩
  rcases callerStep_loads b _ _ _ _ pc hpc hloads hnext with ⟨hmem, hcopy⟩
  rw [← hmem] at hcopy
  rcases retries_of_loopSteps b t c d k s _ _ hcopy h with ⟨x, hx, hcell, hseen⟩
  refine ⟨retries_le _ _ x rfl k s hx, fun n v d' hturn hs => ?_⟩
  rcases hseen n v (turn_copy b _ n v hturn).1 with ⟨_, hv⟩
  rcases stepThread_cases callerStep d d' t hs with ⟨hown, _⟩
  rcases callerStep_again b _ _ _ _ n v hturn hown with ⟨htaken, _, hnew⟩
  refine ⟨_, hnew, ?_⟩
  by_cases hfound : b.field d.mem = v
  · refine Or.inr ⟨hfound, htaken hfound, hfound, fun k' s' e he => ?_⟩
    rcases retries_of_loopSteps b t d' e k' s' _ _ hnew he with ⟨y, hy, _⟩
    exact (retries_after _ _ y (le_of_eq (congrArg b.key (htaken hfound))) k' s' hy).2.1
  · -- The copy is never below the field, so what is found is less.
    have hle := (retries_invariant _ _ x rfl k s hx).1
    rw [hcell, hv] at hle
    have hne : b.key (b.field d.mem) ≠ b.key v := fun heq => hfound ((b.key_inj _ _).mp heq)
    exact Or.inl ⟨hfound, (b.key_lt _ _).mp (lt_of_le_of_ne hle hne)⟩

/-- Another thread is about to swap, and one has not read the minimum. Then it
    reads it, the other swaps, and the one iterates. -/
def contending (t u : Fin 2) (i : Nat) : Option (Interleave.Config Stats Caller 2) :=
  run (stepThread callerStep) (startOf 10 racingCalls)
    (List.replicate 6 u ++ List.replicate 4 t ++ [t, t, u, t, t, t].take i)

/-- One swap by another thread makes the loop fail once, swap, and go round
    once more. -/
theorem loop_bounded_contending :
    LoopSteps .min 1 ((contending 1 0 1).get rfl) 3 1 ((contending 1 0 6).get rfl) ∧
      3 ≤ 1 + 2 := by
  have hloaded : LoopSteps .min 1 ((contending 1 0 1).get rfl) 0 0 ((contending 1 0 2).get rfl) :=
    .stays 0 0 1 uint64Max _ _ .refl rfl rfl rfl
  -- The other thread's swap is the one that counts.
  have hforeign : LoopSteps .min 1 ((contending 1 0 1).get rfl) 0 1 ((contending 1 0 3).get rfl) :=
    .swap 0 0 1 uint64Max 0 _ _ hloaded rfl (by decide) ⟨3, uint64Max, rfl, rfl⟩ rfl
  have hfailed : LoopSteps .min 1 ((contending 1 0 1).get rfl) 1 1 ((contending 1 0 4).get rfl) :=
    .again 0 1 1 uint64Max _ _ hforeign rfl rfl
  have hswapped : LoopSteps .min 1 ((contending 1 0 1).get rfl) 2 1 ((contending 1 0 5).get rfl) :=
    .again 1 1 1 3 _ _ hfailed rfl rfl
  have hdone : LoopSteps .min 1 ((contending 1 0 1).get rfl) 3 1 ((contending 1 0 6).get rfl) :=
    .again 2 1 1 3 _ _ hswapped rfl rfl
  exact ⟨hdone, (loop_bounded .min 1 ((contending 1 0 0).get rfl) _ _ (.loadMin 1) rfl trivial rfl
    3 1 hdone).1⟩

/-- One thread alone recording the value five, after so many steps. -/
def alone (i : Nat) : Option (Interleave.Config Stats Caller 1) :=
  run (stepThread callerStep) (startOf 10 fun _ => [5]) (List.replicate i 0)

/-- The first iteration of a loop, which follows no swap, need not change the
    local variable. -/
theorem loop_keeps_copy : ¬ ∀ (M T : Nat) (calls : Fin T → List Nat) (b : Bound) (t : Fin T)
    (c0 c d d' : Interleave.Config Stats Caller T) (pc : RecordPc) (s n v v' : Nat),
    Reaches (stepThread callerStep) (startOf M calls) c0 → (c0.thread t).pc = some pc →
      b.Loads pc → stepThread callerStep c0 t = some c → LoopSteps b t c 0 s d →
        (d.thread t).turn b = some (n, v) → stepThread callerStep d t = some d' →
          (d'.thread t).copy b = some (n, v') → b.Better v' v := by
  intro hall
  -- One thread alone: its first iteration swaps, and keeps the copy.
  have hbetter := hall 10 1 (fun _ => [5]) .min 0 ((alone 4).get rfl) ((alone 5).get rfl)
    ((alone 6).get rfl) ((alone 7).get rfl) (.loadMin 5) 0 5 uint64Max uint64Max
    (reaches_get _ _ (List.replicate 4 0) rfl) rfl trivial rfl
    (.stays 0 0 5 uint64Max _ _ .refl rfl rfl rfl) rfl rfl rfl
  exact absurd hbetter (Nat.lt_irrefl uint64Max)

end Atomic

end Wrk
