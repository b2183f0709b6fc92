import Wrk.Core.Interleave
import Wrk.Core.Samples
import Wrk.Stats.Basic
import Mathlib.Data.ZMod.Basic
import Mathlib.Tactic.LinearCombination

/-!
# Recording Without Locks

`stats_record` as the threads run it: a small program whose atomic steps are
the two fetch-and-adds, the two plain loads of the bounds, and each
compare-and-swap of the two retry loops. Any number of threads run any
sequences of calls over one histogram, and a schedule interleaves their steps
arbitrarily.

The retry loops go round once more after their own success, because the swap
returns the value it replaced and that value still satisfies the guard. The
second swap then expects a value the field no longer holds, fails, and brings
back something the sample does not improve on.

The bounds are handled by rely and guarantee. Every step leaves the limit
alone, never raises `min` and never lowers `max`; against that, a call that
has left its first loop knows `min ≤ n` for good. The counters are handled by
conservation: a counter is the number of calls that are past the step which
raises it.

## Main definitions

* `RecordPc`: Where a call of `stats_record` is, with its local variables.
* `recordStep`: One atomic step of a call.
* `Caller`: A thread making a sequence of calls.
* `callerStep`: One atomic step of a thread.
* `startOf`: A fresh histogram and threads about to run their calls.
* `Sound`: What a call knows about the histogram at each point.

## Theorems

* `runsAlone_record`: Undisturbed, the steps compute `statsRecord`.
* `sound_of_reaches`: Every call's knowledge survives every interleaving.
* `data_of_reaches`: A counter is the number of calls past raising it.
* `count_of_reaches`: The total is the number of calls past raising it.
* `finished_mem`: When all calls are done, the histogram is that of all
  accepted arguments.
* `statsRecord_concurrent`: No interleaving loses a count, a minimum or a
  maximum.
-/

namespace Wrk

namespace Atomic

open Interleave Transition

/-- A call of `stats_record` between two of its atomic steps, carrying the
    argument and the local variables still in use. -/
inductive RecordPc where
  | entry (n : Nat)
  | addData (n : Nat)
  | addCount (n : Nat)
  | loadMin (n : Nat)
  | loadMax (n min : Nat)
  | lowerMin (n min max : Nat)
  | raiseMax (n max : Nat)
  deriving DecidableEq, Repr

/-- The argument of the call. -/
def RecordPc.arg : RecordPc → Nat
  | .entry n | .addData n | .addCount n | .loadMin n => n
  | .loadMax n _ | .lowerMin n _ _ | .raiseMax n _ => n

/-- The call has raised its own counter. -/
def RecordPc.pastData : RecordPc → Bool
  | .entry _ | .addData _ => false
  | _ => true

/-- The call has raised the total. -/
def RecordPc.pastCount : RecordPc → Bool
  | .entry _ | .addData _ | .addCount _ => false
  | _ => true

/-- One atomic step of a call: the new histogram, and either where the call
    is now or the value it returns. -/
def recordStep (s : Stats) : RecordPc → Stats × (RecordPc ⊕ Nat)
  | .entry n => if n ≥ s.limit then (s, .inr 0) else (s, .inl (.addData n))
  | .addData n => (s.addData n 1, .inl (.addCount n))
  | .addCount n => (s.addCount 1, .inl (.loadMin n))
  | .loadMin n => (s, .inl (.loadMax n s.min))
  | .loadMax n min => (s, .inl (.lowerMin n min s.max))
  | .lowerMin n min max =>
      -- The swap returns the value it found, whether or not it replaced it.
      if n < min then
        (if s.min = min then { s with min := n } else s, .inl (.lowerMin n s.min max))
      else (s, .inl (.raiseMax n max))
  | .raiseMax n max =>
      if n > max then
        (if s.max = max then { s with max := n } else s, .inl (.raiseMax n s.max))
      else (s, .inr 1)

/-- A thread: the calls still to make, the one in progress, and each finished
    call's argument with the value it returned. -/
structure Caller where
  todo : List Nat
  pc : Option RecordPc
  returned : List (Nat × Nat)

/-- One atomic step of a thread: entering the next call, or a step of the
    current one. -/
def callerStep (s : Stats) (c : Caller) : Option (Stats × Caller) :=
  match c.pc with
  | none => match c.todo with
    | [] => none
    | n :: rest => some (s, { c with todo := rest, pc := some (.entry n) })
  | some pc => match recordStep s pc with
    | (s', .inl pc') => some (s', { c with pc := some pc' })
    | (s', .inr r) => some (s', { c with pc := none, returned := c.returned ++ [(pc.arg, r)] })

/-- A thread with nothing left to do. -/
def Caller.Finished (c : Caller) : Prop := c.todo = [] ∧ c.pc = none

instance (c : Caller) : Decidable c.Finished :=
  inferInstanceAs (Decidable (c.todo = [] ∧ c.pc = none))

/-- A fresh histogram, and threads about to run their calls. -/
def startOf {T : Nat} (M : Nat) (calls : Fin T → List Nat) : Interleave.Config Stats Caller T :=
  { mem := statsAlloc M, thread := fun t => { todo := calls t, pc := none, returned := [] } }

/-- The steps of one call with no other thread in between, for at most `fuel`
    steps. -/
def runAlone : Nat → Stats → RecordPc → Option (Stats × Nat)
  | 0, _, _ => none
  | fuel + 1, s, pc => match recordStep s pc with
    | (s', .inl pc') => runAlone fuel s' pc'
    | (s', .inr r) => some (s', r)

/-- Undisturbed from here, the call ends with this histogram and value. -/
def RunsAlone (s : Stats) (pc : RecordPc) (t : Stats) (r : Nat) : Prop :=
  ∃ fuel, runAlone fuel s pc = some (t, r)

theorem runsAlone_step (s s' t : Stats) (pc pc' : RecordPc) (r : Nat)
    (h : recordStep s pc = (s', .inl pc')) (hr : RunsAlone s' pc' t r) : RunsAlone s pc t r := by
  rcases hr with ⟨fuel, hf⟩
  exact ⟨fuel + 1, by rw [runAlone, h]; exact hf⟩

theorem runsAlone_return (s t : Stats) (pc : RecordPc) (r : Nat)
    (h : recordStep s pc = (t, .inr r)) : RunsAlone s pc t r :=
  ⟨1, by rw [runAlone, h]⟩

/-- The second loop alone: at most one swap takes effect, and the retry that
    follows it finds the value it just stored. -/
theorem runsAlone_raiseMax (s : Stats) (n : Nat) :
    RunsAlone s (.raiseMax n s.max) { s with max := if n > s.max then n else s.max } 1 := by
  by_cases h : n > s.max
  · rw [if_pos h]
    refine runsAlone_step s { s with max := n } _ _ (.raiseMax n s.max) 1 ?_ ?_
    · simp only [recordStep, if_pos h, if_true]
    refine runsAlone_step _ { s with max := n } _ _ (.raiseMax n n) 1 ?_ ?_
    · simp only [recordStep, if_pos h, if_neg (show ¬ n = s.max by omega)]
    · exact runsAlone_return _ _ _ _ (by simp only [recordStep, gt_iff_lt, lt_self_iff_false,
        if_false])
  · rw [if_neg h]
    exact runsAlone_return _ _ _ _ (by simp only [recordStep, if_neg h])

theorem runsAlone_lowerMin (s t : Stats) (n max r : Nat)
    (hrest : RunsAlone { s with min := if n < s.min then n else s.min } (.raiseMax n max) t r) :
    RunsAlone s (.lowerMin n s.min max) t r := by
  by_cases h : n < s.min
  · rw [if_pos h] at hrest
    refine runsAlone_step s { s with min := n } _ _ (.lowerMin n s.min max) r ?_ ?_
    · simp only [recordStep, if_pos h, if_true]
    refine runsAlone_step _ { s with min := n } _ _ (.lowerMin n n max) r ?_ ?_
    · simp only [recordStep, if_pos h, if_neg (show ¬ n = s.min by omega)]
    · exact runsAlone_step _ _ _ _ _ _ (by simp only [recordStep, lt_self_iff_false,
        if_false]) hrest
  · rw [if_neg h] at hrest
    exact runsAlone_step _ _ _ _ _ _ (by simp only [recordStep, if_neg h]) hrest

/-- Undisturbed, the atomic steps compute `statsRecord`. -/
theorem runsAlone_record (s : Stats) (n : Nat) :
    RunsAlone s (.entry n) (statsRecord s n).1 (statsRecord s n).2 := by
  by_cases hn : n ≥ s.limit
  · rw [statsRecord, if_pos hn]
    exact runsAlone_return _ _ _ _ (by simp only [recordStep, if_pos hn])
  · rw [statsRecord, if_neg hn]
    refine runsAlone_step s s _ _ (.addData n) _ (by simp only [recordStep, if_neg hn]) ?_
    refine runsAlone_step _ _ _ _ (.addCount n) _ rfl ?_
    refine runsAlone_step _ _ _ _ (.loadMin n) _ rfl ?_
    refine runsAlone_step _ _ _ _ (.loadMax n s.min) _ rfl ?_
    refine runsAlone_step _ _ _ _ (.lowerMin n s.min s.max) _ rfl ?_
    exact runsAlone_lowerMin _ _ _ _ _ (runsAlone_raiseMax _ n)

/-- What a step of a thread is: entering a call, moving on inside one, or
    returning from one. -/
theorem callerStep_cases (s s' : Stats) (c c' : Caller) (h : callerStep s c = some (s', c')) :
    (∃ n rest, c.pc = none ∧ c.todo = n :: rest ∧ s' = s ∧
      c' = { c with todo := rest, pc := some (.entry n) }) ∨
    (∃ pc pc', c.pc = some pc ∧ recordStep s pc = (s', .inl pc') ∧
      c' = { c with pc := some pc' }) ∨
    (∃ pc r, c.pc = some pc ∧ recordStep s pc = (s', .inr r) ∧
      c' = { c with pc := none, returned := c.returned ++ [(pc.arg, r)] }) := by
  rw [callerStep] at h
  -- A caller between two calls takes the next; one inside a call takes a step of it.
  cases hpc : c.pc with
  | none =>
      cases htodo : c.todo with
      | nil => simp only [hpc, htodo, reduceCtorEq] at h
      | cons n rest =>
          simp only [hpc, htodo, Option.some.injEq, Prod.mk.injEq] at h
          exact Or.inl ⟨n, rest, rfl, rfl, h.1.symm, h.2.symm⟩
  | some pc =>
      rcases hstep : recordStep s pc with ⟨t, pc' | r⟩
      · simp only [hpc, hstep, Option.some.injEq, Prod.mk.injEq] at h
        exact Or.inr (Or.inl ⟨pc, pc', rfl, by rw [hstep, h.1], h.2.symm⟩)
      · simp only [hpc, hstep, Option.some.injEq, Prod.mk.injEq] at h
        exact Or.inr (Or.inr ⟨pc, r, rfl, by rw [hstep, h.1], h.2.symm⟩)

/-- What every step of every thread guarantees the others: the limit stays,
    `min` does not rise and `max` does not fall. -/
def Rely (s s' : Stats) : Prop :=
  s'.limit = s.limit ∧ s'.min ≤ s.min ∧ s.max ≤ s'.max

theorem rely_refl (s : Stats) : Rely s s := ⟨rfl, le_refl _, le_refl _⟩

theorem recordStep_rely (s : Stats) (pc : RecordPc) : Rely s (recordStep s pc).1 := by
  cases pc with
  | entry n =>
      by_cases h : n ≥ s.limit
      · simpa only [recordStep, if_pos h] using rely_refl s
      · simpa only [recordStep, if_neg h] using rely_refl s
  | addData n => exact rely_refl s
  | addCount n => exact rely_refl s
  | loadMin n => exact rely_refl s
  | loadMax n min => exact rely_refl s
  | lowerMin n min max =>
      by_cases h : n < min
      · by_cases hs : s.min = min
        · -- The swap took effect: the new minimum is below the one it replaced.
          simp only [recordStep, if_pos h, if_pos hs]
          exact ⟨rfl, by rw [hs]; exact le_of_lt h, le_refl _⟩
        · simpa only [recordStep, if_pos h, if_neg hs] using rely_refl s
      · simpa only [recordStep, if_neg h] using rely_refl s
  | raiseMax n max =>
      by_cases h : n > max
      · by_cases hs : s.max = max
        · simp only [recordStep, if_pos h, if_pos hs]
          exact ⟨rfl, le_refl _, by rw [hs]; exact le_of_lt h⟩
        · simpa only [recordStep, if_pos h, if_neg hs] using rely_refl s
      · simpa only [recordStep, if_neg h] using rely_refl s

theorem callerStep_rely (s : Stats) (c : Caller) (s' : Stats) (c' : Caller)
    (h : callerStep s c = some (s', c')) : Rely s s' := by
  rcases callerStep_cases s s' c c' h with ⟨_, _, _, _, rfl, _⟩ | ⟨pc, _, _, hr, _⟩ |
    ⟨pc, _, _, hr, _⟩
  · exact rely_refl s'
  · have := recordStep_rely s pc
    rwa [hr] at this
  · have := recordStep_rely s pc
    rwa [hr] at this

/-- What a call in progress knows: past the limit test that its argument is
    accepted, past each load that the field has only improved since, and past
    the first loop that the minimum is no greater than its argument. -/
def Knows (s : Stats) : RecordPc → Prop
  | .entry _ => True
  | .addData n | .addCount n | .loadMin n => n < s.limit
  | .loadMax n min => n < s.limit ∧ s.min ≤ min
  | .lowerMin n min max => n < s.limit ∧ s.min ≤ min ∧ max ≤ s.max
  | .raiseMax n max => n < s.limit ∧ s.min ≤ n ∧ max ≤ s.max

/-- What a finished call leaves true: refused and past the limit, or accepted
    and inside the bounds. -/
def Answered (s : Stats) (a : Nat × Nat) : Prop :=
  (a.2 = 0 ∧ s.limit ≤ a.1) ∨ (a.2 = 1 ∧ a.1 < s.limit ∧ s.min ≤ a.1 ∧ a.1 ≤ s.max)

theorem knows_rely (s s' : Stats) (pc : RecordPc) (hk : Knows s pc) (hr : Rely s s') :
    Knows s' pc := by
  rcases hr with ⟨hlim, hmin, hmax⟩
  cases pc with
  | entry n => exact hk
  | addData n => simp only [Knows] at hk ⊢; omega
  | addCount n => simp only [Knows] at hk ⊢; omega
  | loadMin n => simp only [Knows] at hk ⊢; omega
  | loadMax n min => simp only [Knows] at hk ⊢; omega
  | lowerMin n min max => simp only [Knows] at hk ⊢; omega
  | raiseMax n max => simp only [Knows] at hk ⊢; omega

theorem answered_rely (s s' : Stats) (a : Nat × Nat) (ha : Answered s a) (hr : Rely s s') :
    Answered s' a := by
  rcases hr with ⟨hlim, hmin, hmax⟩
  rcases ha with ⟨h0, hl⟩ | ⟨h1, hl, hlo, hhi⟩
  · exact Or.inl ⟨h0, by omega⟩
  · exact Or.inr ⟨h1, by omega, by omega, by omega⟩

/-- A step inside a call keeps its argument and re-establishes what the call
    knows at the new point. -/
theorem recordStep_knows (s s' : Stats) (pc pc' : RecordPc) (hk : Knows s pc)
    (h : recordStep s pc = (s', .inl pc')) : pc'.arg = pc.arg ∧ Knows s' pc' := by
  have hrely : Rely s s' := by
    have := recordStep_rely s pc
    rwa [h] at this
  cases pc with
  | entry n =>
      by_cases hn : n ≥ s.limit
      · simp only [recordStep, if_pos hn, Prod.mk.injEq, reduceCtorEq, and_false] at h
      · simp only [recordStep, if_neg hn, Prod.mk.injEq, Sum.inl.injEq] at h
        rw [← h.1, ← h.2]
        exact ⟨rfl, by simp only [Knows]; omega⟩
  | addData n =>
      simp only [recordStep, Prod.mk.injEq, Sum.inl.injEq] at h
      rw [← h.2]
      exact ⟨rfl, knows_rely s s' (.addCount n) hk hrely⟩
  | addCount n =>
      simp only [recordStep, Prod.mk.injEq, Sum.inl.injEq] at h
      rw [← h.2]
      exact ⟨rfl, knows_rely s s' (.loadMin n) hk hrely⟩
  | loadMin n =>
      simp only [recordStep, Prod.mk.injEq, Sum.inl.injEq] at h
      rw [← h.1, ← h.2]
      exact ⟨rfl, hk, le_refl _⟩
  | loadMax n min =>
      simp only [recordStep, Prod.mk.injEq, Sum.inl.injEq] at h
      rw [← h.1, ← h.2]
      exact ⟨rfl, hk.1, hk.2, le_refl _⟩
  | lowerMin n min max =>
      rcases hk with ⟨hn, hmin, hmax⟩
      rcases hrely with ⟨hlim, hlow, hhigh⟩
      by_cases hlt : n < min
      · -- Whatever the swap did, the value it returned is the old minimum.
        simp only [recordStep, if_pos hlt, Prod.mk.injEq, Sum.inl.injEq] at h
        rw [← h.2]
        exact ⟨rfl, by simp only [Knows]; omega⟩
      · simp only [recordStep, if_neg hlt, Prod.mk.injEq, Sum.inl.injEq] at h
        rw [← h.2]
        exact ⟨rfl, by simp only [Knows]; omega⟩
  | raiseMax n max =>
      rcases hk with ⟨hn, hmin, hmax⟩
      rcases hrely with ⟨hlim, hlow, hhigh⟩
      by_cases hlt : n > max
      · simp only [recordStep, if_pos hlt, Prod.mk.injEq, Sum.inl.injEq] at h
        rw [← h.2]
        exact ⟨rfl, by simp only [Knows]; omega⟩
      · simp only [recordStep, if_neg hlt, Prod.mk.injEq, reduceCtorEq, and_false] at h

/-- A call returns zero from the limit test or one from the end of its second
    loop, and changes nothing on the way out. -/
theorem recordStep_returns (s s' : Stats) (pc : RecordPc) (r : Nat) (hk : Knows s pc)
    (h : recordStep s pc = (s', .inr r)) : s' = s ∧ Answered s' (pc.arg, r) := by
  cases pc with
  | entry n =>
      by_cases hn : n ≥ s.limit
      · simp only [recordStep, if_pos hn, Prod.mk.injEq, Sum.inr.injEq] at h
        rw [← h.1, ← h.2]
        exact ⟨rfl, Or.inl ⟨rfl, hn⟩⟩
      · simp only [recordStep, if_neg hn, Prod.mk.injEq, reduceCtorEq, and_false] at h
  -- Only the first test and the last return.
  | addData n => simp only [recordStep, Prod.mk.injEq, reduceCtorEq, and_false] at h
  | addCount n => simp only [recordStep, Prod.mk.injEq, reduceCtorEq, and_false] at h
  | loadMin n => simp only [recordStep, Prod.mk.injEq, reduceCtorEq, and_false] at h
  | loadMax n min => simp only [recordStep, Prod.mk.injEq, reduceCtorEq, and_false] at h
  | lowerMin n min max =>
      by_cases hlt : n < min
      · simp only [recordStep, if_pos hlt, Prod.mk.injEq, reduceCtorEq, and_false] at h
      · simp only [recordStep, if_neg hlt, Prod.mk.injEq, reduceCtorEq, and_false] at h
  | raiseMax n max =>
      by_cases hlt : n > max
      · simp only [recordStep, if_pos hlt, Prod.mk.injEq, reduceCtorEq, and_false] at h
      · simp only [recordStep, if_neg hlt, Prod.mk.injEq, Sum.inr.injEq] at h
        rw [← h.1, ← h.2]
        exact ⟨rfl, Or.inr ⟨rfl, hk.1, hk.2.1, by simp only [RecordPc.arg]; have := hk.2.2; omega⟩⟩

/-- The state of a thread: its finished, current and remaining calls are the
    program it was given, the current call knows what it should, and the
    finished ones were answered correctly. -/
structure Sound (calls : List Nat) (s : Stats) (c : Caller) : Prop where
  order : c.returned.map Prod.fst ++ (c.pc.map RecordPc.arg).toList ++ c.todo = calls
  current : ∀ pc, c.pc = some pc → Knows s pc
  answers : ∀ a ∈ c.returned, Answered s a

theorem sound_rely (calls : List Nat) (s s' : Stats) (c : Caller) (h : Sound calls s c)
    (hr : Rely s s') : Sound calls s' c :=
  ⟨h.order, fun pc hpc => knows_rely s s' pc (h.current pc hpc) hr,
    fun a ha => answered_rely s s' a (h.answers a ha) hr⟩

theorem sound_step (calls : List Nat) (s s' : Stats) (c c' : Caller) (h : Sound calls s c)
    (hs : callerStep s c = some (s', c')) : Sound calls s' c' := by
  have hrely := callerStep_rely s c s' c' hs
  -- The call begins, goes on, or returns.
  rcases callerStep_cases s s' c c' hs with ⟨n, rest, hpc, htodo, rfl, rfl⟩ |
    ⟨pc, pc', hpc, hr, rfl⟩ | ⟨pc, r, hpc, hr, rfl⟩
  · refine ⟨?_, ?_, h.answers⟩
    · rw [← h.order, hpc, htodo]
      simp only [Option.map_some, Option.toList_some, RecordPc.arg, Option.map_none,
        Option.toList_none, List.append_nil, List.append_assoc, List.cons_append, List.nil_append]
    · intro pc hpc'
      simp only [Option.some.injEq] at hpc'
      rw [← hpc']
      exact trivial
  · rcases recordStep_knows s s' pc pc' (h.current pc hpc) hr with ⟨harg, hk⟩
    refine ⟨?_, ?_, fun a ha => answered_rely s s' a (h.answers a ha) hrely⟩
    · rw [← h.order, hpc]
      simp only [Option.map_some, harg]
    · intro q hq
      simp only [Option.some.injEq] at hq
      rw [← hq]
      exact hk
  · rcases recordStep_returns s s' pc r (h.current pc hpc) hr with ⟨rfl, hans⟩
    refine ⟨?_, ?_, ?_⟩
    · rw [← h.order, hpc]
      simp only [List.map_append, List.map_cons, List.map_nil, Option.map_none,
        Option.toList_none, List.append_nil, Option.map_some, Option.toList_some]
    · intro q hq
      simp only [reduceCtorEq] at hq
    · intro a ha
      rcases List.mem_append.mp ha with ha | ha
      · exact h.answers a ha
      · rw [List.mem_singleton.mp ha]
        exact hans

/-- Every thread's knowledge survives every interleaving. -/
theorem sound_of_reaches {T : Nat} (M : Nat) (calls : Fin T → List Nat)
    (c : Interleave.Config Stats Caller T) (hr : Reaches (stepThread callerStep) (startOf M calls) c) :
    ∀ t, Sound (calls t) c.mem (c.thread t) := by
  refine assertion_of_reaches callerStep Rely (fun t => Sound (calls t)) callerStep_rely
    (fun t => sound_rely (calls t)) (fun t s l s' l' => sound_step (calls t) s s' l l')
    (startOf M calls) c (fun t => ⟨?_, ?_, ?_⟩) hr
  · simp only [startOf, List.map_nil, Option.map_none, Option.toList_none, List.append_nil,
      List.nil_append]
  · intro pc hpc
    simp only [startOf, reduceCtorEq] at hpc
  · intro a ha
    exact absurd ha List.not_mem_nil

/-- Counters are compared modulo their size, where they form a group. -/
abbrev Word64 := ZMod (2 ^ 64)

theorem cast_wrap64 (n : Nat) : ((wrap64 n : Nat) : Word64) = n :=
  ZMod.natCast_mod n (2 ^ 64)

/-- A counter is known exactly once it is known modulo its size. -/
theorem eq_wrap64_of_cast (a n : Nat) (ha : a < 2 ^ 64) (h : (a : Word64) = n) : a = wrap64 n := by
  rw [ZMod.natCast_eq_natCast_iff' a n (2 ^ 64), Nat.mod_eq_of_lt ha] at h
  exact h

/-- One if the call has raised the counter of `v`. -/
def RecordPc.shareData (v : Nat) (pc : RecordPc) : Nat :=
  if pc.pastData = true ∧ pc.arg = v then 1 else 0

/-- One if the call has raised the total. -/
def RecordPc.shareCount (pc : RecordPc) : Nat := if pc.pastCount = true then 1 else 0

/-- How many of a thread's calls have raised the counter of `v`. -/
def Caller.shareData (v : Nat) (c : Caller) : Nat :=
  c.returned.count (v, 1) + (c.pc.map (RecordPc.shareData v)).getD 0

/-- How many of a thread's calls have raised the total. -/
def Caller.shareCount (c : Caller) : Nat :=
  c.returned.countP (fun a => a.2 = 1) + (c.pc.map RecordPc.shareCount).getD 0

/-- The share of the step's outcome: that of the new point inside the call,
    or of the finished call. -/
def outcomeData (v n : Nat) : RecordPc ⊕ Nat → Nat
  | .inl pc => pc.shareData v
  | .inr r => if n = v ∧ r = 1 then 1 else 0

def outcomeCount : RecordPc ⊕ Nat → Nat
  | .inl pc => pc.shareCount
  | .inr r => if r = 1 then 1 else 0

/-- A step inside a call changes a counter by what it changes in the call's
    share of it. -/
theorem recordStep_data (s : Stats) (pc : RecordPc) (v : Nat) :
    ((recordStep s pc).1.data v : Word64) + pc.shareData v
      = s.data v + outcomeData v pc.arg (recordStep s pc).2 := by
  cases pc with
  | entry n =>
      by_cases h : n ≥ s.limit
      · simp only [recordStep, if_pos h, outcomeData, RecordPc.shareData, RecordPc.pastData,
          Bool.false_eq_true, false_and, if_false, zero_ne_one, and_false]
      · simp only [recordStep, if_neg h, outcomeData, RecordPc.shareData, RecordPc.pastData,
          Bool.false_eq_true, false_and, if_false]
  | addData n =>
      simp only [recordStep, outcomeData, RecordPc.shareData, RecordPc.pastData, RecordPc.arg,
        Bool.false_eq_true, false_and, if_false, true_and, Stats.addData]
      -- The share of the caller becomes the counter of the value.
      by_cases h : v = n
      · rw [if_pos h, if_pos h.symm, cast_wrap64, Nat.cast_add, Nat.cast_zero, add_zero]
      · rw [if_neg h, if_neg (Ne.symm h)]
  | addCount n => rfl
  | loadMin n => rfl
  | loadMax n min => rfl
  | lowerMin n min max =>
      by_cases h : n < min
      · by_cases hs : s.min = min
        · simp only [recordStep, if_pos h, if_pos hs]
          rfl
        · simp only [recordStep, if_pos h, if_neg hs]
          rfl
      · simp only [recordStep, if_neg h]
        rfl
  | raiseMax n max =>
      by_cases h : n > max
      · by_cases hs : s.max = max
        · simp only [recordStep, if_pos h, if_pos hs]
          rfl
        · simp only [recordStep, if_pos h, if_neg hs]
          rfl
      · simp only [recordStep, if_neg h, outcomeData, RecordPc.shareData, RecordPc.pastData,
          RecordPc.arg, true_and, and_true]

theorem recordStep_count (s : Stats) (pc : RecordPc) :
    ((recordStep s pc).1.count : Word64) + pc.shareCount
      = s.count + outcomeCount (recordStep s pc).2 := by
  cases pc with
  | entry n =>
      by_cases h : n ≥ s.limit
      · simp only [recordStep, if_pos h, outcomeCount, RecordPc.shareCount, RecordPc.pastCount,
          Bool.false_eq_true, if_false, zero_ne_one]
      · simp only [recordStep, if_neg h, outcomeCount, RecordPc.shareCount, RecordPc.pastCount,
          Bool.false_eq_true, if_false]
  | addData n => rfl
  | addCount n =>
      -- The share of the caller becomes the count.
      simp only [recordStep, outcomeCount, RecordPc.shareCount, RecordPc.pastCount,
        Bool.false_eq_true, if_false, if_true, Stats.addCount, cast_wrap64, Nat.cast_add,
        Nat.cast_zero, add_zero]
  | loadMin n => rfl
  | loadMax n min => rfl
  | lowerMin n min max =>
      by_cases h : n < min
      · by_cases hs : s.min = min
        · simp only [recordStep, if_pos h, if_pos hs]
          rfl
        · simp only [recordStep, if_pos h, if_neg hs]
          rfl
      · simp only [recordStep, if_neg h]
        rfl
  | raiseMax n max =>
      by_cases h : n > max
      · by_cases hs : s.max = max
        · simp only [recordStep, if_pos h, if_pos hs]
          rfl
        · simp only [recordStep, if_pos h, if_neg hs]
          rfl
      · simp only [recordStep, if_neg h, outcomeCount, RecordPc.shareCount, RecordPc.pastCount,
          if_true]

theorem callerStep_data (v : Nat) (s : Stats) (c : Caller) (s' : Stats) (c' : Caller)
    (h : callerStep s c = some (s', c')) :
    (s'.data v : Word64) - s.data v = (c'.shareData v : Word64) - c.shareData v := by
  rw [sub_eq_sub_iff_add_eq_add]
  rcases callerStep_cases s s' c c' h with ⟨n, rest, hpc, _, rfl, rfl⟩ |
    ⟨pc, pc', hpc, hr, rfl⟩ | ⟨pc, r, hpc, hr, rfl⟩
  · simp only [Caller.shareData, hpc, Option.map_none, Option.map_some, Option.getD_none,
      Option.getD_some, RecordPc.shareData, RecordPc.pastData, Bool.false_eq_true, false_and,
      if_false]
    ring
  · have hd := recordStep_data s pc v
    rw [hr] at hd
    simp only [Caller.shareData, hpc, Option.map_some, Option.getD_some, Nat.cast_add]
    simp only [outcomeData] at hd
    linear_combination hd
  · have hd := recordStep_data s pc v
    rw [hr] at hd
    -- Once the call has returned, its share is among what was returned.
    have hcount : (c.returned ++ [(pc.arg, r)]).count (v, 1)
        = c.returned.count (v, 1) + outcomeData v pc.arg (.inr r) := by
      rw [List.count_append, List.count_singleton, outcomeData]
      simp only [beq_iff_eq, Prod.mk.injEq]
    simp only [Caller.shareData, hpc, Option.map_some, Option.getD_some, Option.map_none,
      Option.getD_none, Nat.add_zero, hcount, Nat.cast_add]
    linear_combination hd

theorem callerStep_count (s : Stats) (c : Caller) (s' : Stats) (c' : Caller)
    (h : callerStep s c = some (s', c')) :
    (s'.count : Word64) - s.count = (c'.shareCount : Word64) - c.shareCount := by
  rw [sub_eq_sub_iff_add_eq_add]
  rcases callerStep_cases s s' c c' h with ⟨n, rest, hpc, _, rfl, rfl⟩ |
    ⟨pc, pc', hpc, hr, rfl⟩ | ⟨pc, r, hpc, hr, rfl⟩
  · simp only [Caller.shareCount, hpc, Option.map_none, Option.map_some, Option.getD_none,
      Option.getD_some, RecordPc.shareCount, RecordPc.pastCount, Bool.false_eq_true, if_false]
    ring
  · have hd := recordStep_count s pc
    rw [hr] at hd
    simp only [Caller.shareCount, hpc, Option.map_some, Option.getD_some, Nat.cast_add]
    simp only [outcomeCount] at hd
    linear_combination hd
  · have hd := recordStep_count s pc
    rw [hr] at hd
    -- As for the counter of a value.
    have hcount : (c.returned ++ [(pc.arg, r)]).countP (fun a => a.2 = 1)
        = c.returned.countP (fun a => a.2 = 1) + outcomeCount (.inr r) := by
      rw [List.countP_append, List.countP_singleton, outcomeCount]
      simp only [decide_eq_true_eq]
    simp only [Caller.shareCount, hpc, Option.map_some, Option.getD_some, Option.map_none,
      Option.getD_none, Nat.add_zero, hcount, Nat.cast_add]
    linear_combination hd

/-- All arguments accepted, thread by thread. -/
def accepted {T : Nat} (M : Nat) (calls : Fin T → List Nat) : List Nat :=
  (List.finRange T).flatMap (fun t => (calls t).filter (fun n => n ≤ M))

theorem mem_accepted {T : Nat} (M n : Nat) (calls : Fin T → List Nat) :
    n ∈ accepted M calls ↔ n ≤ M ∧ ∃ t, n ∈ calls t := by
  simp only [accepted, List.mem_flatMap, List.mem_finRange, true_and, List.mem_filter,
    decide_eq_true_eq]
  exact ⟨fun ⟨t, ht, hn⟩ => ⟨hn, t, ht⟩, fun ⟨hn, t, ht⟩ => ⟨t, ht, hn⟩⟩

/-- Each bound is still the initial one or has become an accepted argument. -/
def Origin {T : Nat} (M : Nat) (calls : Fin T → List Nat) (s : Stats) : Prop :=
  (s.min = uint64Max ∨ s.min ∈ accepted M calls) ∧ (s.max = 0 ∨ s.max ∈ accepted M calls)

/-- The fields no step takes outside their range. -/
def InRange (M : Nat) (s : Stats) : Prop :=
  s.limit = wrap64 (M + 1) ∧ (∀ v, s.data v < 2 ^ 64) ∧ s.count < 2 ^ 64

theorem recordStep_inRange (M : Nat) (s : Stats) (pc : RecordPc) (h : InRange M s) :
    InRange M (recordStep s pc).1 := by
  rcases h with ⟨hlim, hdata, hcount⟩
  cases pc with
  | entry n =>
      by_cases hn : n ≥ s.limit
      · simpa only [recordStep, if_pos hn] using ⟨hlim, hdata, hcount⟩
      · simpa only [recordStep, if_neg hn] using ⟨hlim, hdata, hcount⟩
  | addData n =>
      refine ⟨hlim, fun v => ?_, hcount⟩
      simp only [recordStep, Stats.addData]
      by_cases hv : v = n
      · rw [if_pos hv]
        exact wrap64_lt _
      · rw [if_neg hv]
        exact hdata v
  | addCount n => exact ⟨hlim, hdata, wrap64_lt _⟩
  | loadMin n => exact ⟨hlim, hdata, hcount⟩
  | loadMax n min => exact ⟨hlim, hdata, hcount⟩
  | lowerMin n min max =>
      simp only [recordStep]
      split_ifs
      · exact ⟨hlim, hdata, hcount⟩
      · exact ⟨hlim, hdata, hcount⟩
      · exact ⟨hlim, hdata, hcount⟩
  | raiseMax n max =>
      simp only [recordStep]
      split_ifs
      · exact ⟨hlim, hdata, hcount⟩
      · exact ⟨hlim, hdata, hcount⟩
      · exact ⟨hlim, hdata, hcount⟩

/-- A step moves a bound only to the argument of the call, and only once that
    has been accepted. -/
theorem recordStep_bounds (s : Stats) (pc : RecordPc) (hk : Knows s pc) :
    ((recordStep s pc).1.min = s.min ∨ (recordStep s pc).1.min = pc.arg ∧ pc.arg < s.limit) ∧
    ((recordStep s pc).1.max = s.max ∨ (recordStep s pc).1.max = pc.arg ∧ pc.arg < s.limit) := by
  cases pc with
  | entry n =>
      simp only [recordStep]
      split_ifs
      · exact ⟨Or.inl rfl, Or.inl rfl⟩
      · exact ⟨Or.inl rfl, Or.inl rfl⟩
  | addData n => exact ⟨Or.inl rfl, Or.inl rfl⟩
  | addCount n => exact ⟨Or.inl rfl, Or.inl rfl⟩
  | loadMin n => exact ⟨Or.inl rfl, Or.inl rfl⟩
  | loadMax n min => exact ⟨Or.inl rfl, Or.inl rfl⟩
  | lowerMin n min max =>
      simp only [recordStep]
      split_ifs
      · -- The exchange took place, for a value that passed the first test.
        exact ⟨Or.inr ⟨rfl, hk.1⟩, Or.inl rfl⟩
      · exact ⟨Or.inl rfl, Or.inl rfl⟩
      · exact ⟨Or.inl rfl, Or.inl rfl⟩
  | raiseMax n max =>
      simp only [recordStep]
      split_ifs
      · exact ⟨Or.inl rfl, Or.inr ⟨rfl, hk.1⟩⟩
      · exact ⟨Or.inl rfl, Or.inl rfl⟩
      · exact ⟨Or.inl rfl, Or.inl rfl⟩

/-- The memory of a step of a thread is the memory of its call's step, or is
    untouched when the step enters a call. -/
theorem callerStep_mem (s s' : Stats) (c c' : Caller) (h : callerStep s c = some (s', c')) :
    s' = s ∨ ∃ pc, c.pc = some pc ∧ s' = (recordStep s pc).1 := by
  rcases callerStep_cases s s' c c' h with ⟨_, _, _, _, rfl, _⟩ | ⟨pc, _, hpc, hr, _⟩ |
    ⟨pc, _, hpc, hr, _⟩
  · exact Or.inl rfl
  · exact Or.inr ⟨pc, hpc, by rw [hr]⟩
  · exact Or.inr ⟨pc, hpc, by rw [hr]⟩

theorem inRange_of_reaches {T : Nat} (M : Nat) (calls : Fin T → List Nat)
    (c : Interleave.Config Stats Caller T) (hr : Reaches (stepThread callerStep) (startOf M calls) c) :
    InRange M c.mem := by
  refine memory_of_reaches callerStep (fun t => Sound (calls t)) (InRange M) ?_
    (startOf M calls) c (fun d hd => sound_of_reaches M calls d hd) ?_ hr
  · intro t s l s' l' _ hP hs
    rcases callerStep_mem s s' l l' hs with rfl | ⟨pc, _, rfl⟩
    · exact hP
    · exact recordStep_inRange M s pc hP
  · exact ⟨rfl, fun v => by simp only [startOf, statsAlloc]; norm_num,
      by simp only [startOf, statsAlloc]; norm_num⟩

theorem origin_of_reaches {T : Nat} (M : Nat) (calls : Fin T → List Nat) (hM : M < 2 ^ 64 - 1)
    (c : Interleave.Config Stats Caller T) (hr : Reaches (stepThread callerStep) (startOf M calls) c) :
    Origin M calls c.mem := by
  have hboth : InRange M c.mem ∧ Origin M calls c.mem := by
    refine memory_of_reaches callerStep (fun t => Sound (calls t))
      (fun s => InRange M s ∧ Origin M calls s) ?_
      (startOf M calls) c (fun d hd => sound_of_reaches M calls d hd)
      ⟨inRange_of_reaches M calls _ (reaches_refl _ _), Or.inl rfl, Or.inl rfl⟩ hr
    intro t s l s' l' hA hP hs
    rcases callerStep_mem s s' l l' hs with rfl | ⟨pc, hpc, rfl⟩
    · exact hP
    -- A bound that moved moved to the argument of a call in this thread's program.
    have harg : pc.arg < s.limit → pc.arg ∈ accepted M calls := by
      intro hlt
      rw [hP.1.1, wrap64_of_lt (M + 1) (by omega)] at hlt
      refine (mem_accepted M pc.arg calls).mpr ⟨by omega, t, ?_⟩
      rw [← hA.order, hpc]
      simp only [Option.map_some, Option.toList_some, List.mem_append, List.mem_singleton,
        or_true, true_or]
    refine ⟨recordStep_inRange M s pc hP.1, ?_, ?_⟩
    · rcases (recordStep_bounds s pc (hA.current pc hpc)).1 with h | ⟨h, hlt⟩
      · rw [h]
        exact hP.2.1
      · rw [h]
        exact Or.inr (harg hlt)
    · rcases (recordStep_bounds s pc (hA.current pc hpc)).2 with h | ⟨h, hlt⟩
      · rw [h]
        exact hP.2.2
      · rw [h]
        exact Or.inr (harg hlt)
  exact hboth.2

/-- A counter is the number of calls past raising it. -/
theorem data_of_reaches {T : Nat} (M v : Nat) (calls : Fin T → List Nat)
    (c : Interleave.Config Stats Caller T) (hr : Reaches (stepThread callerStep) (startOf M calls) c) :
    c.mem.data v = wrap64 (∑ t, (c.thread t).shareData v) := by
  refine eq_wrap64_of_cast _ _ ((inRange_of_reaches M calls c hr).2.1 v) ?_
  rw [Nat.cast_sum]
  refine counter_eq_sum callerStep (fun s => (s.data v : Word64))
    (fun l => (l.shareData v : Word64)) (callerStep_data v) (startOf M calls) c ?_ hr
  simp only [startOf, statsAlloc, Caller.shareData, List.count_nil, Option.map_none,
    Option.getD_none, Nat.add_zero, Nat.cast_zero, Finset.sum_const_zero]

/-- The total is the number of calls past raising it. -/
theorem count_of_reaches {T : Nat} (M : Nat) (calls : Fin T → List Nat)
    (c : Interleave.Config Stats Caller T) (hr : Reaches (stepThread callerStep) (startOf M calls) c) :
    c.mem.count = wrap64 (∑ t, (c.thread t).shareCount) := by
  refine eq_wrap64_of_cast _ _ (inRange_of_reaches M calls c hr).2.2 ?_
  rw [Nat.cast_sum]
  refine counter_eq_sum callerStep (fun s => (s.count : Word64))
    (fun l => (l.shareCount : Word64)) callerStep_count (startOf M calls) c ?_ hr
  simp only [startOf, statsAlloc, Caller.shareCount, List.countP_nil, Option.map_none,
    Option.getD_none, Nat.add_zero, Nat.cast_zero, Finset.sum_const_zero]

/-- The value a call returns. -/
def answer (limit n : Nat) : Nat := if n < limit then 1 else 0

/-- A finished thread has answered each of its calls in order. -/
theorem finished_returned (calls : List Nat) (s : Stats) (c : Caller) (h : Sound calls s c)
    (hdone : c.Finished) : c.returned = calls.map (fun n => (n, answer s.limit n)) := by
  have horder : c.returned.map Prod.fst = calls := by
    have := h.order
    rw [hdone.1, hdone.2] at this
    simpa only [Option.map_none, Option.toList_none, List.append_nil] using this
  rw [← horder, List.map_map]
  have hid : c.returned.map ((fun n => (n, answer s.limit n)) ∘ Prod.fst)
      = c.returned.map id := by
    refine List.map_congr_left (fun a ha => ?_)
    rw [Function.comp_apply, id_eq]
    rcases h.answers a ha with ⟨h0, hl⟩ | ⟨h1, hl, _⟩
    · rw [answer, if_neg (by omega), ← h0]
    · rw [answer, if_pos hl, ← h1]
  rw [hid, List.map_id]

theorem count_answered (limit v : Nat) (calls : List Nat) :
    (calls.map (fun n => (n, answer limit n))).count (v, 1)
      = (calls.filter (fun n => n < limit)).count v := by
  induction calls with
  | nil => rfl
  | cons n rest ih =>
      rw [List.map_cons, List.count_cons, ih]
      by_cases hn : n < limit
      · rw [List.filter_cons_of_pos (by rw [decide_eq_true_eq]; exact hn), List.count_cons, answer,
          if_pos hn]
        simp only [beq_iff_eq, Prod.mk.injEq, and_true]
      · rw [List.filter_cons_of_neg (by rw [decide_eq_true_eq]; exact hn), answer, if_neg hn]
        simp only [beq_iff_eq, Prod.mk.injEq, zero_ne_one, and_false, if_false, Nat.add_zero]

theorem countP_answered (limit : Nat) (calls : List Nat) :
    (calls.map (fun n => (n, answer limit n))).countP (fun a => a.2 = 1)
      = (calls.filter (fun n => n < limit)).length := by
  rw [List.countP_map, ← List.countP_eq_length_filter]
  refine List.countP_congr (fun n _ => ?_)
  simp only [Function.comp_apply, decide_eq_true_eq, answer, ite_eq_left_iff, zero_ne_one,
    imp_false, not_not]

/-- Once every call has returned, the histogram is that of the accepted
    arguments, whatever the schedule was. -/
theorem finished_mem {T : Nat} (M : Nat) (calls : Fin T → List Nat) (hM : M < 2 ^ 64 - 1)
    (c : Interleave.Config Stats Caller T) (hr : Reaches (stepThread callerStep) (startOf M calls) c)
    (hdone : ∀ t, (c.thread t).Finished) : c.mem = ofSamples M (accepted M calls) := by
  have hsound := sound_of_reaches M calls c hr
  have hrange := inRange_of_reaches M calls c hr
  have horigin := origin_of_reaches M calls hM c hr
  have hlim : c.mem.limit = M + 1 := by rw [hrange.1, wrap64_of_lt (M + 1) (by omega)]
  have hfilter : ∀ t, (calls t).filter (fun n => n < c.mem.limit)
      = (calls t).filter (fun n => n ≤ M) := by
    intro t
    refine List.filter_congr (fun n _ => ?_)
    rw [hlim, decide_eq_decide]
    omega
  -- An accepted argument belongs to a finished call, which left it inside the bounds.
  have hin : ∀ n ∈ accepted M calls, c.mem.min ≤ n ∧ n ≤ c.mem.max := by
    intro n hn
    rcases (mem_accepted M n calls).mp hn with ⟨hle, t, ht⟩
    have hret := finished_returned (calls t) c.mem (c.thread t) (hsound t) (hdone t)
    have hmem : (n, answer c.mem.limit n) ∈ (c.thread t).returned := by
      rw [hret]
      exact List.mem_map_of_mem ht
    rcases (hsound t).answers _ hmem with ⟨_, h⟩ | ⟨_, _, h⟩
    · rw [hlim] at h
      simp only at h
      omega
    · exact h
  ext1
  · rw [count_of_reaches M calls c hr, ofSamples, accepted, List.length_flatMap, Fin.sum_univ_def]
    congr 2
    refine List.map_congr_left (fun t _ => ?_)
    rw [Caller.shareCount, (hdone t).2, finished_returned (calls t) c.mem _ (hsound t) (hdone t),
      countP_answered, hfilter, Option.map_none, Option.getD_none, Nat.add_zero]
  · exact hrange.1
  · refine Samples.eq_foldl_min _ _ _ (fun n hn => (hin n hn).1) ?_ horigin.1
    rcases horigin.1 with h | h
    · exact le_of_eq h
    · have := ((mem_accepted M _ calls).mp h).1
      rw [uint64Max]
      omega
  · exact Samples.eq_foldl_max _ _ _ (fun n hn => (hin n hn).2) (Nat.zero_le _) horigin.2
  · funext v
    rw [data_of_reaches M v calls c hr]
    simp only [ofSamples, accepted]
    rw [List.count_flatMap, Fin.sum_univ_def]
    congr 2
    refine List.map_congr_left (fun t _ => ?_)
    rw [Caller.shareData, (hdone t).2, finished_returned (calls t) c.mem _ (hsound t) (hdone t),
      count_answered, hfilter, Option.map_none, Option.getD_none, Nat.add_zero,
      Function.comp_apply]

/-- A call about to be refused has done nothing but enter, so its step
    leaves the histogram as it is. -/
theorem refused_unchanged {T : Nat} (M : Nat) (calls : Fin T → List Nat) (hM : M < 2 ^ 64 - 1)
    (d d' : Interleave.Config Stats Caller T) (t : Fin T) (pc : RecordPc)
    (hr : Reaches (stepThread callerStep) (startOf M calls) d)
    (hpc : (d.thread t).pc = some pc) (hn : M < pc.arg)
    (hs : stepThread callerStep d t = some d') : d'.mem = d.mem := by
  have hk := (sound_of_reaches M calls d hr t).current pc hpc
  have hlim : d.mem.limit = M + 1 := by
    rw [(inRange_of_reaches M calls d hr).1, wrap64_of_lt (M + 1) (by omega)]
  rcases callerStep_mem _ _ _ _ (stepThread_cases callerStep d d' t hs).1 with h | ⟨q, hq, h⟩
  · exact h
  · have hqpc : q = pc := by rw [hq, Option.some.injEq] at hpc; exact hpc
    rw [h, hqpc]
    -- Past the first test the value is below the limit.
    cases pc with
    | entry n =>
        simp only [recordStep]
        split_ifs
        · rfl
        · rfl
    | addData n => simp only [Knows, RecordPc.arg] at hk hn; omega
    | addCount n => simp only [Knows, RecordPc.arg] at hk hn; omega
    | loadMin n => simp only [Knows, RecordPc.arg] at hk hn; omega
    | loadMax n min => simp only [Knows, RecordPc.arg] at hk hn; omega
    | lowerMin n min max => simp only [Knows, RecordPc.arg] at hk hn; omega
    | raiseMax n max => simp only [Knows, RecordPc.arg] at hk hn; omega

theorem count_accepted {T : Nat} (M v : Nat) (calls : Fin T → List Nat) (hv : v ≤ M) :
    (accepted M calls).count v = ∑ t, (calls t).count v := by
  rw [accepted, List.count_flatMap, Fin.sum_univ_def]
  congr 1
  refine List.map_congr_left (fun t _ => ?_)
  rw [Function.comp_apply, List.count_filter (by rw [decide_eq_true_eq]; exact hv)]

theorem length_accepted {T : Nat} (M : Nat) (calls : Fin T → List Nat) :
    (accepted M calls).length ≤ ∑ t, (calls t).length := by
  rw [accepted, List.length_flatMap, Fin.sum_univ_def]
  exact List.sum_le_sum (fun t _ => List.length_filter_le _ _)

/-- No interleaving loses anything. Fewer than `2 ^ 64` calls, spread over
    any number of threads and interleaved in any way, leave the counters, the
    total and the bounds exactly as if each accepted argument had been
    recorded once; a call returns zero exactly when its argument exceeds the
    maximum, and then its steps change nothing; and any other schedule that
    finishes the same calls leaves the same histogram. -/
theorem statsRecord_concurrent {T : Nat} (M : Nat) (calls : Fin T → List Nat)
    (hM : M < 2 ^ 64 - 1) (htotal : ∑ t, (calls t).length < 2 ^ 64)
    (c : Interleave.Config Stats Caller T) (hr : Reaches (stepThread callerStep) (startOf M calls) c)
    (hdone : ∀ t, (c.thread t).Finished) :
    (∀ v ≤ M, c.mem.data v = ∑ t, (calls t).count v) ∧
    c.mem.count = ∑ v ∈ Finset.range (M + 1), c.mem.data v ∧
    ((∃ t, ∃ n ∈ calls t, n ≤ M) →
      IsLeast {n | n ≤ M ∧ ∃ t, n ∈ calls t} c.mem.min ∧
      IsGreatest {n | n ≤ M ∧ ∃ t, n ∈ calls t} c.mem.max) ∧
    ((¬ ∃ t, ∃ n ∈ calls t, n ≤ M) → c.mem.min = 2 ^ 64 - 1 ∧ c.mem.max = 0) ∧
    (∀ t, (c.thread t).returned = (calls t).map (fun n => (n, if M < n then 0 else 1))) ∧
    (∀ d d' t pc, Reaches (stepThread callerStep) (startOf M calls) d →
      (d.thread t).pc = some pc → M < pc.arg → stepThread callerStep d t = some d' →
      d'.mem = d.mem) ∧
    (∀ c', Reaches (stepThread callerStep) (startOf M calls) c' →
      (∀ t, (c'.thread t).Finished) → c'.mem = c.mem) := by
  have hmem := finished_mem M calls hM c hr hdone
  have hlim : c.mem.limit = M + 1 := by
    rw [(inRange_of_reaches M calls c hr).1, wrap64_of_lt (M + 1) (by omega)]
  have hlen : (accepted M calls).length < 2 ^ 64 :=
    lt_of_le_of_lt (length_accepted M calls) htotal
  have hdata : ∀ v, c.mem.data v = (accepted M calls).count v := by
    intro v
    rw [hmem, ofSamples]
    exact wrap64_of_lt _ (lt_of_le_of_lt List.count_le_length hlen)
  have hset : ∀ n, n ∈ accepted M calls ↔ n ∈ {n | n ≤ M ∧ ∃ t, n ∈ calls t} :=
    fun n => mem_accepted M n calls
  have hmin : c.mem.min = (accepted M calls).foldl min uint64Max := by rw [hmem, ofSamples]
  have hmax : c.mem.max = (accepted M calls).foldl max 0 := by rw [hmem, ofSamples]
  refine ⟨?_, ?_, ?_, ?_, ?_, ?_, ?_⟩
  · intro v hv
    rw [hdata v, count_accepted M v calls hv]
  · -- Summing the counters counts every accepted argument once.
    have hall : (accepted M calls).countP (· < M + 1) = (accepted M calls).length := by
      rw [List.countP_eq_length]
      intro n hn
      have := ((mem_accepted M n calls).mp hn).1
      exact decide_eq_true (by omega)
    rw [Finset.sum_congr rfl (fun v _ => hdata v), Samples.sum_count_eq_countP, hall, hmem,
      ofSamples]
    exact wrap64_of_lt _ hlen
  · rintro ⟨t, n, hnt, hn⟩
    have hne : n ∈ accepted M calls := (mem_accepted M n calls).mpr ⟨hn, t, hnt⟩
    constructor
    · refine ⟨(hset _).mp ?_, fun m hm => ?_⟩
      · rw [hmin]
        rcases Samples.foldl_min_mem (accepted M calls) uint64Max with h | h
        · -- The initial minimum is above every accepted argument.
          have := Samples.foldl_min_le (accepted M calls) uint64Max n hne
          rw [h, uint64Max] at this
          omega
        · exact h
      · rw [hmin]
        exact Samples.foldl_min_le _ _ m ((hset m).mpr hm)
    · refine ⟨(hset _).mp ?_, fun m hm => ?_⟩
      · rw [hmax]
        rcases Samples.foldl_max_mem (accepted M calls) 0 with h | h
        · have := Samples.le_foldl_max (accepted M calls) 0 n hne
          rw [h] at this ⊢
          rwa [Nat.le_zero.mp this] at hne
        · exact h
      · rw [hmax]
        exact Samples.le_foldl_max _ _ m ((hset m).mpr hm)
  · intro hnone
    have hnil : accepted M calls = [] := by
      refine List.eq_nil_iff_forall_not_mem.mpr (fun n hn => hnone ?_)
      rcases (mem_accepted M n calls).mp hn with ⟨hle, t, ht⟩
      exact ⟨t, n, ht, hle⟩
    rw [hmin, hmax, hnil]
    exact ⟨rfl, rfl⟩
  · intro t
    rw [finished_returned (calls t) c.mem _ (sound_of_reaches M calls c hr t) (hdone t), hlim]
    refine List.map_congr_left (fun n _ => ?_)
    rw [answer]
    by_cases hn : n < M + 1
    · rw [if_pos hn, if_neg (by omega)]
    · rw [if_neg hn, if_pos (by omega)]
  · exact fun d d' t pc hd hpc hn hs => refused_unchanged M calls hM d d' t pc hd hpc hn hs
  · intro c' hr' hdone'
    rw [finished_mem M calls hM c' hr' hdone', hmem]

/-- Two threads recording at once, the second also making a call that is
    refused. -/
def racingCalls : Fin 2 → List Nat := fun t => if t = 0 then [3] else [1, 12]

/-- The two threads in strict alternation, so that both load the initial
    minimum before either swap, and then the refused call. -/
def racingSchedule : List (Fin 2) := (List.replicate 12 [0, 1]).flatten ++ [1, 1]

theorem racing_isSome :
    (run (stepThread callerStep) (startOf 10 racingCalls) racingSchedule).isSome = true := by
  decide

theorem statsRecord_concurrent_racing :
    ∃ c, Reaches (stepThread callerStep) (startOf 10 racingCalls) c ∧
      (∀ t, (c.thread t).Finished) ∧ (∀ v ≤ 10, c.mem.data v = ∑ t, (racingCalls t).count v) ∧
      ∀ t, (c.thread t).returned = (racingCalls t).map (fun n => (n, if 10 < n then 0 else 1)) := by
  have hr := reaches_get _ _ _ racing_isSome
  have hdone : ∀ t, (((run (stepThread callerStep) (startOf 10 racingCalls) racingSchedule).get
      racing_isSome).thread t).Finished := by decide
  have h := statsRecord_concurrent 10 racingCalls (by norm_num) (by decide) _ hr hdone
  exact ⟨_, hr, hdone, h.1, h.2.2.2.2.1⟩

end Atomic

end Wrk
