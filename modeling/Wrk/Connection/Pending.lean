import Wrk.Connection.Writer

/-!
# Pending Responses

The start of a batch sets the pending responses to the size of a pipeline,
and every response that completes takes one off, whether or not it answers a
request. The server decides how many there are: it can send a response before
any request, or several for one request, of which interim responses are an
ordinary case.

The number pending is the number due, which is counted from the last batch of
the record, as long as no response has completed that was not due. So the
first response that is not due is the first to find nothing pending.

## Main definitions

* `due`: The responses of the last batch that have not completed.
* `Paced`: No response completes that is not due.
* `NeverZero`: No response completes while nothing is pending.
* `completes`, `batches`: How many have completed and been started.

## Theorems

* `pacing_move`: Every move keeps the number pending equal to the number due.
* `completes_le`: Paced responses are no more than the batches asked for.
-/

namespace Wrk

open HttpParser

/-- The responses of the last batch that have not completed. -/
def due (pipeline : Nat) : List Obs → Nat
  | [] => 0
  | .batch _ _ :: _ => pipeline
  | .complete _ _ _ _ :: log => due pipeline log - 1
  | _ :: log => due pipeline log

/-- Between the start of one batch and the next, at most a pipeline's worth of
    responses complete, and none completes before the first batch. -/
def Paced (pipeline : Nat) : List Obs → Prop
  | [] => True
  | .complete _ _ _ _ :: log => 0 < due pipeline log ∧ Paced pipeline log
  | _ :: log => Paced pipeline log

/-- No response completes while nothing is pending. -/
def NeverZero : List Obs → Prop
  | [] => True
  | .complete _ _ pending _ :: log => 0 < pending ∧ NeverZero log
  | _ :: log => NeverZero log

/-- The responses that have completed. -/
def completes : List Obs → Nat
  | [] => 0
  | .complete _ _ _ _ :: log => completes log + 1
  | _ :: log => completes log

/-- The batches that have been started. -/
def batches : List Obs → Nat
  | [] => 0
  | .batch _ _ :: log => batches log + 1
  | _ :: log => batches log

theorem due_heard (pipeline : Nat) (o : Obs) (log : List Obs) (ho : o.heard = true) :
    due pipeline (o :: log) = due pipeline log := by
  cases o with
  | batch => exact absurd ho Bool.false_ne_true
  | complete => exact absurd ho Bool.false_ne_true
  | _ => rfl

theorem paced_heard (pipeline : Nat) (o : Obs) (log : List Obs) (ho : o.heard = true) :
    Paced pipeline (o :: log) = Paced pipeline log := by
  cases o with
  | complete => exact absurd ho Bool.false_ne_true
  | _ => rfl

theorem neverZero_heard (o : Obs) (log : List Obs) (ho : o.heard = true) :
    NeverZero (o :: log) = NeverZero log := by
  cases o with
  | complete => exact absurd ho Bool.false_ne_true
  | _ => rfl

/-- Responses that are paced are no more than the batches asked for. -/
theorem completes_le (pipeline : Nat) (log : List Obs) (h : Paced pipeline log) :
    completes log + due pipeline log ≤ pipeline * batches log := by
  induction log with
  | nil => exact Nat.zero_le _
  | cons o log ih =>
      cases o with
      | batch =>
          have hlog := ih h
          simp only [completes, due, batches, Nat.mul_add, Nat.mul_one]
          omega
      | complete =>
          have hlog := ih h.2
          have hdue := h.1
          simp only [completes, due, batches]
          omega
      | _ => exact ih h

/-- What the number pending says of the record, and what it is. -/
structure Pacing (pipeline : Nat) (wr : Writer) : Prop where
  iff : NeverZero wr.log ↔ Paced pipeline wr.log
  pending : Paced pipeline wr.log → wr.pending = due pipeline wr.log

theorem pacing_zero (cfg : Config) : Pacing cfg.pipeline (Writer.zero cfg) :=
  ⟨Iff.rfl, fun _ => rfl⟩

/-- A response completes. -/
theorem pacing_completed (pipeline : Nat) (wr : Writer) (status : Nat) (told : List Obs)
    (htold : ∀ o ∈ told, o.heard = true) (h : Pacing pipeline wr) :
    Pacing pipeline (wr.completed status told) := by
  have hn := append_skip NeverZero neverZero_heard told
    (.complete wr.fd status wr.pending wr.timers :: wr.log) htold
  have hp := append_skip (Paced pipeline) (paced_heard pipeline) told
    (.complete wr.fd status wr.pending wr.timers :: wr.log) htold
  have hd := append_skip (due pipeline) (due_heard pipeline) told
    (.complete wr.fd status wr.pending wr.timers :: wr.log) htold
  constructor
  · rw [Writer.completed, hn, hp]
    -- Up to here the number pending is the number due.
    refine ⟨fun hz => ?_, fun hz => ?_⟩
    · have hlog := h.iff.mp hz.2
      refine ⟨?_, hlog⟩
      rw [← h.pending hlog]
      exact hz.1
    · refine ⟨?_, h.iff.mpr hz.2⟩
      rw [h.pending hz.2]
      exact hz.1
  · rw [Writer.completed, hp, hd]
    intro hz
    have hpending := h.pending hz.2
    have hpos := hz.1
    change sub64 wr.pending 1 = due pipeline wr.log - 1
    rw [hpending, sub64_of_le]
    omega

theorem pacing_offer (cfg : Config) (wr : Writer) (text : Bytes) (h : Pacing cfg.pipeline wr) :
    Pacing cfg.pipeline (wr.offer cfg text) := by
  unfold Writer.offer
  by_cases hw : wr.written = 0
  · rw [if_pos hw]
    exact ⟨h.iff, fun _ => rfl⟩
  · rw [if_neg hw]
    exact h

theorem pacing_move (cfg : Config) (env : Env) (wr wr' : Writer) (h : Pacing cfg.pipeline wr)
    (hm : Move cfg env wr wr') : Pacing cfg.pipeline wr' := by
  cases hm with
  | hear o ho =>
      have hn := neverZero_heard o wr.log ho
      have hp := paced_heard cfg.pipeline o wr.log ho
      have hd := due_heard cfg.pipeline o wr.log ho
      constructor
      · rw [Writer.note, hn, hp]
        exact h.iff
      · rw [Writer.note, hp, hd]
        exact h.pending
  | complete status told _ htold _ => exact pacing_completed cfg.pipeline wr status told htold h
  | completeLast status told latency accepted _ htold _ =>
      have hc := pacing_completed cfg.pipeline wr status told htold h
      exact ⟨hc.iff, hc.pending⟩
  | offer text => exact pacing_offer cfg wr text h
  | acceptAll text =>
      have ho := pacing_offer cfg wr text h
      exact ⟨ho.iff, ho.pending⟩
  | acceptSome text more =>
      have ho := pacing_offer cfg wr text h
      exact ⟨ho.iff, ho.pending⟩
  | _ => exact ⟨h.iff, h.pending⟩

end Wrk
