import Wrk.Connection.Peer
import Wrk.Connection.Pending
import Wrk.Connection.Writer

/-!
# The Closed Loop

A connection with a static batch of requests against a server that answers
each of them once. Every request of the current batch is in one of four
places: it is not wholly sent, it is on its way, the server owes a response
to it, or the response is on its way. The number pending is the sum.

The last request of a batch is complete only with the last byte of the batch,
so that its response comes after the batch has been written. That orders the
two events on which writing is stopped and started again. A connection goes
around four stages: idle, offering the first byte of a batch, in the middle
of one, and waiting for responses.

A batch is offered again when the transport accepts none of it. Nothing has
been sent of it then, so that nothing can be answered in between.

## Main definitions

* `Begun`: A batch is begun only when the one before is answered and written.
* `Stage`: The four stages.
* `Balance`: Where the pending requests are.
* `InStep`: What holds while the connection is up.

## Theorems

* `balance_complete`, `balance_write`, `balance_fire`, `balance_hear`,
  `balance_answer`: Every step keeps the balance.
* `closedLoop`: Every reachable state is in step.
-/

namespace Wrk

open HttpParser

/-- Since the last batch was offered, no byte has been accepted and no
    response has completed. -/
def onlyOffered : List Obs → Bool
  | [] => false
  | .batch _ _ :: _ => true
  | o :: log => o.heard && onlyOffered log

/-- A batch begins only when every response of the last has completed and
    every byte of it is written, unless it is the last one offered again. -/
def Begun (pipeline : Nat) : List Obs → Prop
  | [] => True
  | .batch _ text :: log =>
      ((due pipeline log = 0 ∧ unsent log = []) ∨ (onlyOffered log = true ∧ unsent log = text)) ∧
        Begun pipeline log
  | _ :: log => Begun pipeline log

/-- The latencies that have been recorded. -/
def recordings : List Obs → Nat
  | [] => 0
  | .recorded _ _ :: log => recordings log + 1
  | _ :: log => recordings log

theorem onlyOffered_heard (o : Obs) (log : List Obs) (ho : o.heard = true) :
    onlyOffered (o :: log) = onlyOffered log := by
  cases o with
  | headerField | headerValue | body | response | sslSetOptions => rfl
  | _ => exact absurd ho Bool.false_ne_true

theorem begun_heard (pipeline : Nat) (o : Obs) (log : List Obs) (ho : o.heard = true) :
    Begun pipeline (o :: log) = Begun pipeline log := by
  cases o with
  | batch => exact absurd ho Bool.false_ne_true
  | _ => rfl

theorem recordings_heard (o : Obs) (log : List Obs) (ho : o.heard = true) :
    recordings (o :: log) = recordings log := by
  cases o with
  | recorded => exact absurd ho Bool.false_ne_true
  | _ => rfl

theorem completes_heard (o : Obs) (log : List Obs) (ho : o.heard = true) :
    completes (o :: log) = completes log := by
  cases o with
  | complete => exact absurd ho Bool.false_ne_true
  | _ => rfl

/-- What the record says of the number pending. -/
structure Tally (pipeline : Nat) (log : List Obs) (pending : Nat) : Prop where
  due : pending = due pipeline log
  never : NeverZero log
  begun : Begun pipeline log
  batches : completes log + pending =
    pipeline * (recordings log + if pending = 0 then 0 else 1)

theorem tally_skip (pipeline : Nat) (pre log : List Obs) (pending : Nat)
    (hpre : ∀ o ∈ pre, Obs.heard o = true) (h : Tally pipeline log pending) :
    Tally pipeline (pre ++ log) pending := by
  refine ⟨?_, ?_, ?_, ?_⟩
  · rw [append_skip (Wrk.due pipeline) (due_heard pipeline) pre log hpre]
    exact h.due
  · rw [append_skip NeverZero neverZero_heard pre log hpre]
    exact h.never
  · rw [append_skip (Begun pipeline) (begun_heard pipeline) pre log hpre]
    exact h.begun
  · rw [append_skip completes completes_heard pre log hpre,
      append_skip recordings recordings_heard pre log hpre]
    exact h.batches

/-- Where a connection is with its batch. -/
inductive Stage (cfg : Config) (wr : Writer) : Prop where
  /-- Between two batches, with a delay or without. -/
  | idle (hwritten : wr.written = 0) (hpending : wr.pending = 0) (hunsent : unsent wr.log = [])
      (htimers : (wr.timers = 0 ∧ wr.armed = true) ∨
        (wr.timers = 1 ∧ wr.armed = false ∧ wr.delayed = true))
  /-- None of the batch has been accepted. -/
  | offered (hwritten : wr.written = 0) (hpending : wr.pending = cfg.pipeline)
      (hunsent : unsent wr.log = cfg.request) (honly : onlyOffered wr.log = true)
      (harmed : wr.armed = true) (hdelayed : wr.delayed = false) (htimers : wr.timers = 0)
  /-- Some of the batch has been accepted. -/
  | writing (hwritten : 0 < wr.written) (hlt : wr.written < cfg.request.length)
      (hunsent : unsent wr.log = cfg.request.drop wr.written)
      (harmed : wr.armed = true) (hdelayed : wr.delayed = false) (htimers : wr.timers = 0)
  /-- All of the batch has been accepted, and some of it is not answered. -/
  | waiting (hwritten : wr.written = 0) (hpending : 0 < wr.pending) (hunsent : unsent wr.log = [])
      (harmed : wr.armed = false) (hdelayed : wr.delayed = false) (htimers : wr.timers = 0)

/-- Every pending request is in one place, when `n` responses are on their
    way. -/
structure Balance (cfg : Config) (whole : Bytes → Bool) (s : Net) (n : Nat) (wr : Writer) :
    Prop where
  up : wr.mode = .up
  request : wr.request = cfg.request
  stage : Stage cfg wr
  tally : Tally cfg.pipeline wr.log wr.pending
  boundary : (requestsIn whole s.asked (s.outgoing ++ unsent wr.log)).1 = []
  balance : wr.pending =
    (requestsIn whole s.asked (s.outgoing ++ unsent wr.log)).2 + s.owed + n
  answered : s.answered = completes wr.log + n
  quiet : unsent wr.log = cfg.request → s.outgoing = [] ∧ s.asked = [] ∧ s.owed = 0 ∧ n = 0

/-- A static batch that is as many requests as the pipeline is deep. -/
structure StaticBatch (cfg : Config) (whole : Bytes → Bool) : Prop where
  static : cfg.dynamic = false
  requests : requestsIn whole [] cfg.request = ([], cfg.pipeline)
  nonempty : 0 < cfg.pipeline

theorem batch_ne_nil (cfg : Config) (whole : Bytes → Bool) (hb : StaticBatch cfg whole) :
    cfg.request ≠ [] := by
  intro hnil
  have h := hb.requests
  rw [hnil, requestsIn] at h
  exact absurd (congrArg Prod.snd h) (Nat.ne_of_lt hb.nonempty)

/-! ### Every step keeps the balance -/

/-- Something unsent is at least one request, unless it is all sent. -/
theorem balance_unsent (cfg : Config) (whole : Bytes → Bool) (s : Net) (n : Nat) (wr : Writer)
    (h : Balance cfg whole s n wr) (hne : unsent wr.log ≠ []) :
    0 < (requestsIn whole s.asked (s.outgoing ++ unsent wr.log)).2 :=
  requestsIn_pos whole s.asked _ (List.append_ne_nil_of_right_ne_nil _ hne) h.boundary

/-- A change of the record that says the same of the batch. -/
theorem stage_log (cfg : Config) (wr : Writer) (log : List Obs) (h : Stage cfg wr)
    (hu : unsent log = unsent wr.log) (ho : onlyOffered log = onlyOffered wr.log) :
    Stage cfg { wr with log := log } := by
  cases h with
  | idle hw hp hun ht => exact .idle hw hp (hu.trans hun) ht
  | offered hw hp hun honly ha hd ht =>
      exact .offered hw hp (hu.trans hun) (ho.trans honly) ha hd ht
  | writing hw hlt hun ha hd ht => exact .writing hw hlt (hu.trans hun) ha hd ht
  | waiting hw hp hun ha hd ht => exact .waiting hw hp (hu.trans hun) ha hd ht

/-- Entries about what was received change nothing. -/
theorem balance_heard (cfg : Config) (whole : Bytes → Bool) (s : Net) (n : Nat) (wr : Writer)
    (pre : List Obs) (hpre : ∀ o ∈ pre, Obs.heard o = true) (h : Balance cfg whole s n wr) :
    Balance cfg whole s n { wr with log := pre ++ wr.log } := by
  have hu : unsent (pre ++ wr.log) = unsent wr.log := append_skip unsent unsent_heard pre _ hpre
  have hc : completes (pre ++ wr.log) = completes wr.log :=
    append_skip completes completes_heard pre _ hpre
  refine ⟨h.up, h.request, ?_, tally_skip cfg.pipeline pre wr.log wr.pending hpre h.tally,
    ?_, ?_, ?_, ?_⟩
  · exact stage_log cfg wr _ h.stage hu (append_skip onlyOffered onlyOffered_heard pre _ hpre)
  · rw [hu]
    exact h.boundary
  · rw [hu]
    exact h.balance
  · rw [hc]
    exact h.answered
  · rw [hu]
    exact h.quiet

/-- A response completes that is not the last of its batch. -/
theorem tally_complete (pipeline : Nat) (log : List Obs) (pending fd status timers : Nat)
    (hpos : 0 < pending) (h : Tally pipeline log pending) :
    NeverZero (.complete fd status pending timers :: log) ∧
      pending - 1 = due pipeline (.complete fd status pending timers :: log) ∧
      completes (.complete fd status pending timers :: log) + (pending - 1) =
        pipeline * (recordings log + 1) := by
  have hb := h.batches
  rw [if_neg (Nat.ne_of_gt hpos)] at hb
  refine ⟨⟨hpos, h.never⟩, ?_, ?_⟩
  · rw [due, ← h.due]
  · rw [completes, ← hb]
    omega

/-- The record after a response, and after the last of a batch. -/
theorem tally_completed (cfg : Config) (wr : Writer) (status : Nat) (told : List Obs)
    (latency accepted : Nat) (htold : ∀ o ∈ told, Obs.heard o = true) (hpos : 0 < wr.pending)
    (h : Tally cfg.pipeline wr.log wr.pending) :
    (wr.pending - 1 ≠ 0 → Tally cfg.pipeline (wr.completed status told).log (wr.pending - 1)) ∧
      (wr.pending - 1 = 0 →
        Tally cfg.pipeline ((wr.completed status told).batchDone cfg latency accepted).log 0) := by
  rcases tally_complete cfg.pipeline wr.log wr.pending wr.fd status wr.timers hpos h with
    ⟨hnever, hdue, hbatches⟩
  refine ⟨fun hp => ?_, fun hp => ?_⟩
  · -- Responses are still due, and what was told to the script is not counted.
    refine tally_skip cfg.pipeline told _ _ htold ⟨hdue, hnever, h.begun, ?_⟩
    rw [if_neg hp]
    exact hbatches
  · -- It was the last of its batch, which is recorded.
    rw [hp] at hdue hbatches
    have hskip : ∀ (f : List Obs → Nat),
        (∀ o log, Obs.heard o = true → f (o :: log) = f log) →
        f (wr.completed status told).log =
          f (.complete wr.fd status wr.pending wr.timers :: wr.log) :=
      fun f hf => append_skip f hf told _ htold
    refine ⟨?_, ?_, ?_, ?_⟩
    · exact hdue.trans (hskip _ (due_heard cfg.pipeline)).symm
    · change NeverZero (wr.completed status told).log
      rw [Writer.completed, append_skip NeverZero neverZero_heard told _ htold]
      exact hnever
    · change Begun cfg.pipeline (wr.completed status told).log
      rw [Writer.completed, append_skip (Begun cfg.pipeline) (begun_heard cfg.pipeline) told _ htold]
      exact h.begun
    · change completes (wr.completed status told).log + 0 =
        cfg.pipeline * (recordings (wr.completed status told).log + 1 + 0)
      rw [hskip _ completes_heard, hskip _ recordings_heard]
      exact hbatches

/-- A response completes. It was on its way, so that it is not the last of a
    batch that is still being written. -/
theorem balance_complete (cfg : Config) (whole : Bytes → Bool) (s : Net) (n : Nat) (wr : Writer)
    (status : Nat) (told : List Obs) (latency accepted : Nat)
    (htold : ∀ o ∈ told, Obs.heard o = true) (h : Balance cfg whole s (n + 1) wr) :
    Balance cfg whole s n
      (if sub64 wr.pending 1 = 0 then
        (wr.completed status told).batchDone cfg latency accepted
      else wr.completed status told) := by
  have hbalance := h.balance
  have hpos : 0 < wr.pending := by omega
  have hsub : sub64 wr.pending 1 = wr.pending - 1 := sub64_of_le _ _ hpos
  rcases tally_completed cfg wr status told latency accepted htold hpos h.tally with
    ⟨htally, htallyLast⟩
  have hu : unsent (wr.completed status told).log = unsent wr.log :=
    append_skip unsent unsent_heard told _ htold
  have hc : completes (wr.completed status told).log = completes wr.log + 1 :=
    append_skip completes completes_heard told _ htold
  have hquiet : unsent wr.log ≠ cfg.request :=
    fun hun => absurd (h.quiet hun).2.2.2 (Nat.succ_ne_zero n)
  have hanswered : s.answered = completes wr.log + 1 + n := by
    have ha := h.answered
    omega
  by_cases hp : wr.pending - 1 = 0
  · rw [if_pos (by rw [hsub, hp])]
    -- Nothing is left to send, or another request would be pending.
    have hnil : unsent wr.log = [] := by
      by_contra hne
      have hone := balance_unsent cfg whole s (n + 1) wr h hne
      omega
    have hzero : ((wr.completed status told).batchDone cfg latency accepted).pending = 0 := by
      rw [← hp]
      exact hsub
    have hstage : Stage cfg ((wr.completed status told).batchDone cfg latency accepted) := by
      cases h.stage with
      | idle hw hp0 hun ht => omega
      | offered hw hp0 hun => exact absurd hun hquiet
      | writing hw hlt hun =>
          rw [hun, List.drop_eq_nil_iff] at hnil
          omega
      | waiting hw hp0 hun ha hd ht => exact .idle hw hzero (hu.trans hun) (Or.inl ⟨ht, rfl⟩)
    refine ⟨h.up, h.request, hstage, ?_, ?_, ?_, ?_, fun hun => ?_⟩
    · rw [hzero]
      exact htallyLast hp
    · change (requestsIn whole s.asked (s.outgoing ++ unsent (wr.completed status told).log)).1 = []
      rw [hu]
      exact h.boundary
    · change _ = (requestsIn whole s.asked
        (s.outgoing ++ unsent (wr.completed status told).log)).2 + s.owed + n
      rw [hu, hzero]
      omega
    · change s.answered = completes (wr.completed status told).log + n
      rw [hc]
      exact hanswered
    · exact absurd (hu.symm.trans hun) hquiet
  · rw [if_neg (by rw [hsub]; exact hp)]
    have hpending : (wr.completed status told).pending = wr.pending - 1 := hsub
    have hstage : Stage cfg (wr.completed status told) := by
      cases h.stage with
      | idle hw hp0 hun ht => omega
      | offered hw hp0 hun => exact absurd hun hquiet
      | writing hw hlt hun ha hd ht => exact .writing hw hlt (hu.trans hun) ha hd ht
      | waiting hw hp0 hun ha hd ht =>
          refine .waiting hw ?_ (hu.trans hun) ha hd ht
          rw [hpending]
          omega
    refine ⟨h.up, h.request, hstage, ?_, ?_, ?_, ?_, fun hun => ?_⟩
    · rw [hpending]
      exact htally hp
    · rw [hu]
      exact h.boundary
    · rw [hu, hpending]
      omega
    · rw [hc]
      exact hanswered
    · exact absurd (hu.symm.trans hun) hquiet

/-- A delay begins between two batches. -/
theorem balance_delay (cfg : Config) (whole : Bytes → Bool) (s : Net) (n : Nat) (wr : Writer)
    (ms : Nat) (ha : wr.armed = true) (hd : wr.delayed = true)
    (h : Balance cfg whole s n wr) : Balance cfg whole s n (wr.delay ms) := by
  have hno : ∀ b : Bool, wr.delayed = b → b = true := fun b hb => hb.symm.trans hd
  have hstage : Stage cfg (wr.delay ms) := by
    -- The handler only sleeps before a batch: in every other stage the delay is over.
    cases h.stage with
    | idle hw hp hun ht =>
        rcases ht with ⟨ht, _⟩ | ⟨_, hna, _⟩
        · exact .idle hw hp hun (Or.inr ⟨congrArg Nat.succ ht, rfl, hd⟩)
        · exact absurd (hna.symm.trans ha) Bool.false_ne_true
    | offered _ _ _ _ _ hnd => exact absurd (hno false hnd) Bool.false_ne_true
    | writing _ _ _ _ hnd => exact absurd (hno false hnd) Bool.false_ne_true
    | waiting _ _ _ _ hnd => exact absurd (hno false hnd) Bool.false_ne_true
  exact ⟨h.up, h.request, hstage,
    ⟨h.tally.due, h.tally.never, h.tally.begun, h.tally.batches⟩, h.boundary, h.balance,
    h.answered, h.quiet⟩

/-- A delay ends between two batches. -/
theorem balance_fire (cfg : Config) (whole : Bytes → Bool) (s : Net) (n : Nat) (wr : Writer)
    (ht : 0 < wr.timers) (h : Balance cfg whole s n wr) : Balance cfg whole s n wr.fire := by
  have harmed : wr.fire.armed = true := by
    simp only [Writer.fire, h.up, ne_eq, reduceCtorEq, not_false_eq_true, decide_true,
      Bool.true_or]
  have hstage : Stage cfg wr.fire := by
    cases h.stage with
    | idle hw hp hun htimers =>
        refine .idle hw hp hun (Or.inl ⟨?_, harmed⟩)
        change wr.timers - 1 = 0
        omega
    | offered _ _ _ _ _ _ h0 => omega
    | writing _ _ _ _ _ h0 => omega
    | waiting _ _ _ _ _ h0 => omega
  exact ⟨h.up, h.request, hstage, h.tally, h.boundary, h.balance, h.answered, h.quiet⟩

/-- With nothing pending, nothing is anywhere. -/
theorem balance_nothing (cfg : Config) (whole : Bytes → Bool) (s : Net) (n : Nat) (wr : Writer)
    (h : Balance cfg whole s n wr) (hp : wr.pending = 0) (hun : unsent wr.log = []) :
    s.outgoing = [] ∧ s.asked = [] ∧ s.owed = 0 ∧ n = 0 := by
  have hboundary := h.boundary
  have hbalance := h.balance
  rw [hun, List.append_nil] at hboundary hbalance
  have hzero : requestsIn whole s.asked s.outgoing = ([], 0) :=
    Prod.ext hboundary (by dsimp only; omega)
  rcases requestsIn_zero whole s.asked s.outgoing hzero with ⟨hasked, hout⟩
  exact ⟨hout, hasked, by omega, by omega⟩

/-- What `socket_writeable` offers: the batch from the start, or the rest of
    it. -/
theorem balance_offer (cfg : Config) (whole : Bytes → Bool) (hb : StaticBatch cfg whole)
    (s : Net) (n : Nat) (wr : Writer) (ha : wr.armed = true) (hd : wr.delayed = false)
    (h : Balance cfg whole s n wr) :
    Balance cfg whole s n (wr.offer cfg cfg.request) ∧
      (wr.offer cfg cfg.request).armed = true ∧ (wr.offer cfg cfg.request).delayed = false ∧
      (wr.offer cfg cfg.request).timers = 0 ∧ 0 < (wr.offer cfg cfg.request).pending ∧
      (wr.offer cfg cfg.request).written < cfg.request.length ∧
      unsent (wr.offer cfg cfg.request).log =
        cfg.request.drop (wr.offer cfg cfg.request).written := by
  have hlen : 0 < cfg.request.length := List.length_pos_iff.mpr (batch_ne_nil cfg whole hb)
  by_cases hw : wr.written = 0
  · -- The whole batch is offered, for the first time or again.
    have hready : wr.timers = 0 ∧ (s.outgoing = [] ∧ s.asked = [] ∧ s.owed = 0 ∧ n = 0) ∧
        ((due cfg.pipeline wr.log = 0 ∧ unsent wr.log = []) ∨
          (onlyOffered wr.log = true ∧ unsent wr.log = cfg.request)) ∧
        completes wr.log = cfg.pipeline * recordings wr.log := by
      have hbatches := h.tally.batches
      cases h.stage with
      | idle _ hp hun ht =>
          rcases ht with ⟨ht, _⟩ | ⟨_, _, hdelayed⟩
          · rw [hp, if_pos rfl] at hbatches
            exact ⟨ht, balance_nothing cfg whole s n wr h hp hun,
              Or.inl ⟨h.tally.due.symm.trans hp, hun⟩, hbatches⟩
          · exact absurd (hd.symm.trans hdelayed) Bool.false_ne_true
      | offered _ hp hun honly _ _ ht =>
          rw [hp, if_neg (Nat.ne_of_gt hb.nonempty), Nat.mul_succ] at hbatches
          exact ⟨ht, h.quiet hun, Or.inr ⟨honly, hun⟩, by omega⟩
      | writing hpos => omega
      | waiting _ _ _ hna => exact absurd (hna.symm.trans ha) Bool.false_ne_true
    rcases hready with ⟨ht, hquiet, hbegun, hcompletes⟩
    have hoffer : wr.offer cfg cfg.request =
        { wr with
          request := cfg.request
          pending := cfg.pipeline
          log := .batch wr.fd cfg.request :: wr.log } := if_pos hw
    have htally : Tally cfg.pipeline (.batch wr.fd cfg.request :: wr.log) cfg.pipeline := by
      refine ⟨rfl, h.tally.never, ⟨hbegun, h.tally.begun⟩, ?_⟩
      rw [if_neg (Nat.ne_of_gt hb.nonempty), Nat.mul_succ]
      exact congrArg (· + cfg.pipeline) hcompletes
    have hin : requestsIn whole s.asked
        (s.outgoing ++ unsent (.batch wr.fd cfg.request :: wr.log)) = ([], cfg.pipeline) := by
      rw [hquiet.1, hquiet.2.1]
      exact hb.requests
    rw [hoffer]
    refine ⟨⟨h.up, rfl, .offered hw rfl rfl rfl ha hd ht, htally, ?_, ?_, h.answered,
      fun _ => hquiet⟩, ha, hd, ht, hb.nonempty, by rw [hw]; exact hlen, ?_⟩
    · rw [hin]
    · rw [hin, hquiet.2.2.1, hquiet.2.2.2]
      rfl
    · rw [hw]
      rfl
  · rw [show wr.offer cfg cfg.request = wr from if_neg hw]
    cases h.stage with
    | idle h0 => exact absurd h0 hw
    | offered h0 => exact absurd h0 hw
    | writing hpos hlt hun _ _ ht =>
        have hne : unsent wr.log ≠ [] := by
          rw [hun]
          intro hnil
          rw [List.drop_eq_nil_iff] at hnil
          omega
        have hone := balance_unsent cfg whole s n wr h hne
        have hbalance := h.balance
        exact ⟨h, ha, hd, ht, by omega, hlt, hun⟩
    | waiting h0 => exact absurd h0 hw

/-- Accepting bytes moves them from what is unsent to what is on its way. -/
theorem balance_accepted (cfg : Config) (whole : Bytes → Bool) (s : Net) (n written : Nat)
    (armed : Bool) (data : Bytes) (log : List Obs) (wr : Writer) (h : Balance cfg whole s n wr)
    (hdata : unsent wr.log = data ++ unsent log)
    (htally : Tally cfg.pipeline log wr.pending) (hc : completes log = completes wr.log)
    (hlt : (unsent log).length < cfg.request.length)
    (hstage : Stage cfg { wr with armed := armed, written := written, log := log }) :
    Balance cfg whole { s with outgoing := s.outgoing ++ data } n
      { wr with armed := armed, written := written, log := log } := by
  -- What the socket took moves from one end of the stream to the other.
  have hstream : s.outgoing ++ data ++ unsent log = s.outgoing ++ unsent wr.log := by
    rw [List.append_assoc, ← hdata]
  refine ⟨h.up, h.request, hstage, htally, ?_, ?_, ?_, fun hun => ?_⟩
  · dsimp only
    rw [hstream]
    exact h.boundary
  · dsimp only
    rw [hstream]
    exact h.balance
  · rw [hc]
    exact h.answered
  · rw [hun] at hlt
    exact absurd hlt (Nat.lt_irrefl _)

/-- Writing: some or all of what is offered is accepted. -/
theorem balance_acceptAll (cfg : Config) (whole : Bytes → Bool) (s : Net) (n : Nat) (wr : Writer)
    (h : Balance cfg whole s n wr) (hd : wr.delayed = false) (ht : wr.timers = 0)
    (hp : 0 < wr.pending) (hlt : wr.written < cfg.request.length)
    (hun : unsent wr.log = cfg.request.drop wr.written) :
    Balance cfg whole { s with outgoing := s.outgoing ++ cfg.request.drop wr.written } n
      wr.acceptAll := by
  have hafter : unsent wr.acceptAll.log = [] := by
    change (unsent wr.log).drop (wr.request.drop wr.written).length = []
    rw [hun, h.request, List.drop_length]
  refine balance_accepted cfg whole s n 0 false _ wr.acceptAll.log wr h ?_ ?_ rfl ?_ ?_
  · rw [hafter, List.append_nil]
    exact hun
  · exact ⟨h.tally.due, h.tally.never, h.tally.begun, h.tally.batches⟩
  · rw [hafter]
    exact Nat.zero_lt_of_lt hlt
  · exact .waiting rfl hp hafter rfl hd ht

theorem balance_acceptSome (cfg : Config) (whole : Bytes → Bool) (s : Net) (n more : Nat)
    (wr : Writer) (h : Balance cfg whole s n wr) (ha : wr.armed = true) (hd : wr.delayed = false)
    (ht : wr.timers = 0) (hlt : wr.written < cfg.request.length)
    (hun : unsent wr.log = cfg.request.drop wr.written)
    (hroom : wr.written + wr.room more ≠ wr.request.length) :
    Balance cfg whole
      { s with
        outgoing := s.outgoing ++ (cfg.request.drop wr.written).take (wr.room more) } n
      (wr.acceptSome (wr.room more)) := by
  -- At least one byte is taken, and not all that is left.
  have hpos : 0 < wr.room more ∧ wr.written + wr.room more < cfg.request.length := by
    rw [h.request] at hroom
    unfold Writer.room at hroom ⊢
    rw [h.request] at hroom ⊢
    omega
  have hlen : ((cfg.request.drop wr.written).take (wr.room more)).length = wr.room more := by
    rw [List.length_take, List.length_drop]
    omega
  have hafter : unsent (wr.acceptSome (wr.room more)).log =
      cfg.request.drop (wr.written + wr.room more) := by
    change (unsent wr.log).drop ((wr.request.drop wr.written).take (wr.room more)).length = _
    rw [hun, h.request, hlen, List.drop_drop]
  refine balance_accepted cfg whole s n _ wr.armed _ (wr.acceptSome (wr.room more)).log wr h ?_
    ⟨h.tally.due, h.tally.never, h.tally.begun, h.tally.batches⟩ rfl ?_ ?_
  · rw [hafter, hun, ← List.drop_drop, List.take_append_drop]
  · rw [hafter, List.length_drop]
    omega
  · exact .writing (by exact Nat.add_pos_right _ hpos.1) hpos.2 hafter ha hd ht

/-- The server takes a byte. -/
theorem balance_hear (cfg : Config) (whole : Bytes → Bool) (s : Net) (n : Nat) (wr : Writer)
    (ch : Byte) (data : Bytes) (hout : s.outgoing = ch :: data) (h : Balance cfg whole s n wr) :
    Balance cfg whole
      { s with
        outgoing := data
        asked := (requestsIn whole s.asked [ch]).1
        owed := s.owed + (requestsIn whole s.asked [ch]).2 } n wr := by
  have hboundary := h.boundary
  have hbalance := h.balance
  rw [hout, List.cons_append, ← List.singleton_append, requestsIn_append] at hboundary hbalance
  refine ⟨h.up, h.request, h.stage, h.tally, hboundary, ?_, h.answered, fun hun => ?_⟩
  · dsimp only at hbalance ⊢
    omega
  · exact absurd (hout.symm.trans (h.quiet hun).1) (List.cons_ne_nil ch data)

/-- The server sends a response. -/
theorem balance_answer (cfg : Config) (whole : Bytes → Bool) (s : Net) (n : Nat) (wr : Writer)
    (incoming : Bytes) (howed : 0 < s.owed) (h : Balance cfg whole s n wr) :
    Balance cfg whole
      { s with owed := s.owed - 1, answered := s.answered + 1, incoming := incoming } (n + 1)
      wr := by
  have hbalance := h.balance
  have hanswered := h.answered
  refine ⟨h.up, h.request, h.stage, h.tally, h.boundary, ?_, ?_, fun hun => ?_⟩
  · dsimp only
    omega
  · dsimp only
    omega
  · exact absurd (h.quiet hun).2.2.1 (Nat.ne_of_gt howed)

/-! ### The connection -/

/-- A connection that is up, with `n` responses on their way, that has sent
    nothing since an earlier state. -/
structure Running (cfg : Config) (whole : Bytes → Bool) (s : Net) (before : World) (n : Nat)
    (w : World) : Prop where
  up : w.c.up
  registered : Registered w.c
  balance : Balance cfg whole s n w.c.writer
  fd : w.c.fd = before.c.fd
  wire : ∀ fd, wire fd w.c.log = Wrk.wire fd before.c.log

theorem running_heard (cfg : Config) (whole : Bytes → Bool) (s : Net) (before : World) (n : Nat)
    (w w' : World) (o : Obs) (ho : o.heard = true)
    (hreg : w'.c.registration = w.c.registration) (hwriter : w'.c.writer = w.c.writer.note o)
    (h : Running cfg whole s before n w) : Running cfg whole s before n w' := by
  have hlog : w'.c.log = o :: w.c.log := congrArg Writer.log hwriter
  refine ⟨(up_congr _ _ hreg).mpr h.up, registered_congr _ _ hreg h.registered, ?_,
    (congrArg Writer.fd hwriter).trans h.fd, fun fd => ?_⟩
  · rw [hwriter]
    refine balance_heard cfg whole s n w.c.writer [o] (fun p hp => ?_) h.balance
    rw [List.mem_singleton.mp hp]
    exact ho
  · rw [hlog, wire_heard fd o _ ho]
    exact h.wire fd

/-- The callbacks of the parser, by the number of responses to come. -/
theorem running_completes (cfg : Config) (env : Env) (whole : Bytes → Bool) (s : Net)
    (before : World) : Completes (parserSettings cfg env) (Running cfg whole s before) := by
  constructor
  · intro n m d w h
    unfold parserSettings Settings.onData
    -- Without a script that wants responses the data callbacks are not installed.
    by_cases hwant : cfg.wantResponse = true
    · simp only [hwant, if_true]
      cases m with
      | headerField =>
          refine running_heard cfg whole s before n w _ (.headerField d) rfl
            (headerField_registration env d w) ?_ h
          exact writer_congr w.c _ (headerField_registration env d w) rfl rfl rfl rfl rfl rfl rfl
      | headerValue =>
          refine running_heard cfg whole s before n w _ (.headerValue d) rfl
            (headerValue_registration env d w) ?_ h
          exact writer_congr w.c _ (headerValue_registration env d w) rfl rfl rfl rfl rfl rfl rfl
      | body =>
          refine running_heard cfg whole s before n w _ (.body d) rfl
            (responseBody_registration env d w) ?_ h
          exact writer_congr w.c _ (responseBody_registration env d w) rfl rfl rfl rfl rfl rfl rfl
    · simp only [hwant, Bool.false_eq_true, if_false]
      cases m <;> exact h
  · intro n q w hfinal h
    -- A message that leaves the parser waiting for the next keeps the connection.
    have hkeep : httpShouldKeepAlive q = true := (Bool.and_eq_true_iff.mp hfinal).1
    simp only [parserSettings, responseComplete, hkeep, Bool.not_true, Bool.false_eq_true,
      if_false]
    rcases countResponse_registered cfg env q.statusCode w h.registered with ⟨hreg, hup⟩
    rcases countResponse_writer cfg env q.statusCode w h.up h.registered with
      ⟨told, latency, accepted, htold, hwriter⟩
    have hbalance := balance_complete cfg whole s n w.c.writer q.statusCode told latency accepted
      htold h.balance
    have hskip : ∀ fd, wire fd (w.c.writer.completed q.statusCode told).log = wire fd w.c.log :=
      fun fd => append_skip (wire fd) (wire_heard fd) told _ htold
    -- Whether or not the batch is done, the descriptor and its wire are as before.
    refine ⟨hup.mpr h.up, hreg, by rw [hwriter]; exact hbalance, ?_, fun fd => ?_⟩
    · have hfd := congrArg Writer.fd hwriter
      rw [apply_ite Writer.fd] at hfd
      exact (hfd.trans (ite_self _)).trans h.fd
    · have hlog := congrArg (fun wr => Wrk.wire fd wr.log) hwriter
      rw [apply_ite (fun wr : Writer => Wrk.wire fd wr.log)] at hlog
      exact (hlog.trans (ite_self _)).trans ((hskip fd).trans (h.wire fd))

theorem running_setParser (cfg : Config) (whole : Bytes → Bool) (s : Net) (before : World) (n : Nat)
    (w : World) (q : HttpParser) (h : Running cfg whole s before n w) :
    Running cfg whole s before n (w.setParser q) :=
  ⟨h.up, registered_congr w.c _ rfl h.registered, h.balance, h.fd, h.wire⟩

theorem running_bytes (cfg : Config) (whole : Bytes → Bool) (s : Net) (before : World)
    (n k : Nat) (w : World) (h : Running cfg whole s before n w) :
    Running cfg whole s before n (countBytes k w) :=
  ⟨h.up, h.registered, h.balance, h.fd, h.wire⟩

/-! ### Both parties -/

/-- The balance looks only at what the server has and at what is on its way
    to it. -/
theorem balance_net (cfg : Config) (whole : Bytes → Bool) (s s' : Net) (n : Nat) (wr : Writer)
    (h : Balance cfg whole s n wr) (hout : s'.outgoing = s.outgoing) (hasked : s'.asked = s.asked)
    (howed : s'.owed = s.owed) (hanswered : s'.answered = s.answered) :
    Balance cfg whole s' n wr := by
  refine ⟨h.up, h.request, h.stage, h.tally, ?_, ?_, ?_, ?_⟩
  · rw [hout, hasked]
    exact h.boundary
  · rw [hout, hasked, howed]
    exact h.balance
  · rw [hanswered]
    exact h.answered
  · rw [hout, hasked, howed]
    exact h.quiet

theorem sentSince_eq (w w' : World) (data : Bytes) (hfd : w'.c.fd = w.c.fd)
    (hwire : wire w.c.fd w'.c.log = wire w.c.fd w.c.log ++ data) : sentSince w w' = data := by
  rw [sentSince, hfd, hwire, List.drop_left]

theorem sentSince_none (w w' : World) (hfd : w'.c.fd = w.c.fd)
    (hwire : wire w.c.fd w'.c.log = wire w.c.fd w.c.log) : sentSince w w' = [] :=
  sentSince_eq w w' [] hfd (by rw [hwire, List.append_nil])

/-- `socket_writeable` on a connection that is up. -/
theorem socketWriteable_balance (cfg : Config) (env : Env) (whole : Bytes → Bool)
    (hb : StaticBatch cfg whole) (s : Net) (n : Nat) (r : WriteResult) (w : World)
    (hr : r ≠ .error) (hw : w.c.writable = some .socketWriteable)
    (h : Balance cfg whole s n w.c.writer) :
    Balance cfg whole
      { s with outgoing := s.outgoing ++ sentSince w (socketWriteable cfg env r w) } n
      (socketWriteable cfg env r w).c.writer := by
  have ha : w.c.writer.armed = true := by simp only [Conn.writer, hw, decide_true]
  have hnothing : ∀ w' : World, w'.c.fd = w.c.fd → wire w.c.fd w'.c.log = wire w.c.fd w.c.log →
      Balance cfg whole s n w'.c.writer →
      Balance cfg whole { s with outgoing := s.outgoing ++ sentSince w w' } n w'.c.writer := by
    intro w' hfd hwire hw'
    rw [sentSince_none w w' hfd hwire, List.append_nil]
    exact hw'
  rcases socketWriteable_cases cfg env r w with ⟨hd, heq⟩ | ⟨hd, hcase⟩
  · rw [heq]
    refine hnothing _ rfl rfl ?_
    rw [createDelay_writer]
    exact balance_delay cfg whole s n w.c.writer _ ha hd h
  · -- The batch, or the rest of it, is offered.
    rcases offering_writer cfg env w with ⟨text, ht, ho⟩
    rw [Offered, if_neg (by rw [hb.static]; exact Bool.false_ne_true)] at ht
    rw [ht, h.request] at ho
    have hoff := balance_offer cfg whole hb s n w.c.writer ha hd h
    rw [← ho] at hoff
    rcases hoff with ⟨hbal, harmed, hdelayed, htimers, hpending, hlt, hun⟩
    have hfd : (offering cfg env w).c.fd = w.c.fd := by
      have hf := congrArg Writer.fd ho
      rw [Writer.offer, apply_ite Writer.fd] at hf
      exact hf.trans (ite_self _)
    have hwire : wire w.c.fd (offering cfg env w).c.log = wire w.c.fd w.c.log := by
      have hl := congrArg (fun wr => wire w.c.fd wr.log) ho
      rw [Writer.offer, apply_ite (fun wr : Writer => wire w.c.fd wr.log)] at hl
      exact hl.trans (ite_self _)
    rcases hcase with ⟨_, heq⟩ | ⟨herr, _⟩ | ⟨more, _, heq⟩
    · rw [heq]
      exact hnothing _ hfd hwire hbal
    · exact absurd herr hr
    · rw [heq]
      generalize hv : offering cfg env w = v at *
      have hsent : ∀ (w' : World) (data : Bytes), w'.c.fd = v.c.fd →
          wire w.c.fd w'.c.log = wire w.c.fd v.c.log ++ data → sentSince w w' = data := by
        intro w' data hfd' hwire'
        exact sentSince_eq w w' data (hfd'.trans hfd) (hwire'.trans (by rw [hwire]))
      have hfdw : v.c.writer.fd = w.c.fd := hfd
      rcases acceptBytes_writer more v with hacc | ⟨hne, hacc⟩
      · rw [hacc, hsent _ (cfg.request.drop v.c.writer.written) (congrArg Writer.fd hacc)]
        · exact balance_acceptAll cfg whole s n v.c.writer hbal hdelayed htimers hpending hlt hun
        · have hl := congrArg (fun wr => wire w.c.fd wr.log) hacc
          simp only [Writer.acceptAll, wire, hfdw, if_true, hbal.request] at hl
          exact hl
      · rw [hacc, hsent _ ((cfg.request.drop v.c.writer.written).take (v.c.writer.room more))
          (congrArg Writer.fd hacc)]
        · exact balance_acceptSome cfg whole s n more v.c.writer hbal harmed hdelayed htimers hlt
            hun hne
        · have hl := congrArg (fun wr => wire w.c.fd wr.log) hacc
          simp only [Writer.acceptSome, wire, hfdw, if_true, hbal.request] at hl
          exact hl

/-- A connection that is not established yet, and a server that has heard
    nothing. -/
structure Opening (cfg : Config) (s : Net) : Prop where
  registration :
    s.client.c.registration = (true, some .socketConnected, some .socketConnected) ∨
      s.client.c.registration = (false, none, none)
  timers : s.client.c.timers = []
  request : s.client.c.request = cfg.request
  pending : s.client.c.pending = 0
  unsent : unsent s.client.c.log = []
  tally : Tally cfg.pipeline s.client.c.log 0
  completes : completes s.client.c.log = 0
  silent : s.outgoing = [] ∧ s.asked = [] ∧ s.owed = 0 ∧ s.answered = 0 ∧ s.incoming = []

/-- The invariant of both parties. The parser is where it would be if it had
    got everything so far one byte at a time. -/
structure Conversing (cfg : Config) (whole : Bytes → Bool) (s : Net) : Prop where
  holds : Holds cfg (fun _ _ => True) (fun _ => True) s.client
  opening : ¬ s.client.c.up → Opening cfg s
  running : s.client.c.up → ∃ q n, Trails s.client.c.parser q ∧
    bytewise q s.incoming = some (httpParserInit, n) ∧ Balance cfg whole s n s.client.c.writer

theorem keeps_trivially (cfg : Config) (env : Env) :
    Keeps cfg env (fun _ _ => True) (fun _ => True) := by
  constructor <;> intros <;> trivial

theorem conversing_start (cfg : Config) (env : Env) (whole : Bytes → Bool)
    (hb : StaticBatch cfg whole) (t : Thread) : Conversing cfg whole (Net.start cfg env t) := by
  have hrequest : (Conn.zero cfg).request = cfg.request := by
    simp only [Conn.zero, hb.static, Bool.false_eq_true, if_false]
  -- Nothing has been sent or received, whether or not a socket was opened.
  have hopening : Opening cfg (Net.start cfg env t) := by
    unfold Net.start threadMain
    rcases connectSocket_cases env { thread := t, c := Conn.zero cfg } with
      ⟨_, hc⟩ | ⟨_, pre, hpre, hc⟩
    · refine ⟨Or.inl ?_, ?_, ?_, ?_, ?_, ?_, ?_, rfl, rfl, rfl, rfl, rfl⟩
      all_goals dsimp only
      all_goals rw [hc]
      · rfl
      · rfl
      · exact hrequest
      · rfl
      · rfl
      · exact ⟨rfl, trivial, trivial, rfl⟩
      · rfl
    · have hheard : ∀ o ∈ pre, Obs.heard o = true := by
        intro o ho
        rw [hpre o ho]
        rfl
      refine ⟨Or.inr ?_, ?_, ?_, ?_, ?_, ?_, ?_, rfl, rfl, rfl, rfl, rfl⟩
      all_goals dsimp only
      all_goals rw [hc]
      · rfl
      · rfl
      · exact hrequest
      · rfl
      · exact append_skip Wrk.unsent unsent_heard pre [] hheard
      · exact tally_skip cfg.pipeline pre [] 0 hheard ⟨rfl, trivial, trivial, rfl⟩
      · exact append_skip Wrk.completes completes_heard pre [] hheard
  refine ⟨threadMain_holds cfg env _ _ t trivial, fun _ => hopening, fun hup => ?_⟩
  have hreg := (registered_of_fresh _ hopening.registration).2
  exact absurd hup hreg

/-- `socket_connected` succeeds. -/
theorem conversing_connected (cfg : Config) (env : Env) (whole : Bytes → Bool) (s : Net)
    (ho : Opening cfg s) (hopen : s.client.c.fdOpen = true) :
    Trails (socketConnected env .ok s.client).c.parser httpParserInit ∧
      sentSince s.client (socketConnected env .ok s.client) = [] ∧
      Balance cfg whole s 0 (socketConnected env .ok s.client).c.writer := by
  have hwriter := socketConnected_writer env s.client hopen
  rcases ho.silent with ⟨hout, hasked, howed, hanswered, _⟩
  refine ⟨?_, ?_, ?_⟩
  · have hparser : (socketConnected env .ok s.client).c.parser = httpParserInit := by
      simp only [socketConnected, createReadable, createWritable, World.setParser, World.note,
        hopen, if_true]
    rw [hparser]
    exact trails_init
  · -- Connecting sends nothing.
    refine sentSince_none _ _ (congrArg Writer.fd hwriter) ?_
    exact congrArg (fun wr => wire s.client.c.fd wr.log) hwriter
  · rw [hwriter]
    have htimers : s.client.c.writer.timers = 0 := congrArg List.length ho.timers
    have htally := ho.tally
    rw [← ho.pending] at htally
    refine ⟨rfl, ho.request, .idle rfl ho.pending ho.unsent (Or.inl ⟨htimers, rfl⟩),
      ⟨htally.due, htally.never, htally.begun, htally.batches⟩, ?_, ?_, ?_, fun _ => ?_⟩
    · change (requestsIn whole s.asked (s.outgoing ++ unsent s.client.c.log)).1 = []
      rw [hout, hasked, ho.unsent]
      rfl
    · change s.client.c.pending =
        (requestsIn whole s.asked (s.outgoing ++ unsent s.client.c.log)).2 + s.owed + 0
      rw [hout, hasked, ho.unsent, howed, ho.pending]
      rfl
    · change s.answered = completes s.client.c.log + 0
      rw [hanswered, ho.completes]
    · exact ⟨hout, hasked, howed, rfl⟩

/-- An event of a connection that is up. -/
theorem running_step (cfg : Config) (env : Env) (whole : Bytes → Bool)
    (hb : StaticBatch cfg whole) (s : Net) (a : Act) (w : World) (q : HttpParser) (n : Nat)
    (hup : s.client.c.up) (hreg : Registered s.client.c) (htrails : Trails s.client.c.parser q)
    (hdata : bytewise q s.incoming = some (httpParserInit, n))
    (h : Balance cfg whole s n s.client.c.writer) (hf : faultless s.client a = true)
    (hgot : delivered (reads s.client a) <+: s.incoming)
    (hs : Wrk.step cfg env s.client a = some w) :
    ∃ q' n', Trails w.c.parser q' ∧
      bytewise q' (s.incoming.drop (delivered (reads s.client a)).length) =
        some (httpParserInit, n') ∧
      Balance cfg whole { s with outgoing := s.outgoing ++ sentSince s.client w } n'
        w.c.writer := by
  cases a with
  | readable io =>
      simp only [Wrk.step, Option.map_eq_some_iff] at hs
      rcases hs with ⟨p, hp, rfl⟩
      rw [hup, Option.some.injEq] at hp
      subst hp
      have hreads : reads s.client (.readable io) = io.reads := if_pos hup
      rw [hreads] at hgot ⊢
      simp only [faultless, hreads, Bool.and_eq_true] at hf
      -- What is read is a first part of what is on its way.
      rcases hgot with ⟨rest, hrest⟩
      rw [← hrest] at hdata ⊢
      rcases bytewise_split q httpParserInit _ rest n hdata with ⟨mid, i, j, hi, hj, rfl⟩
      rcases socketReadable_completes cfg env (Running cfg whole s s.client)
        (running_completes cfg env whole s s.client)
        (fun k v p => running_setParser cfg whole s s.client k v p)
        (fun k m v => running_bytes cfg whole s s.client k m v) io.reads q mid i j s.client hf.1
        htrails hi ⟨hup, hreg, h, rfl, fun _ => rfl⟩ with ⟨htrails', hrun⟩
      refine ⟨mid, j, htrails', ?_, ?_⟩
      · rw [List.drop_left]
        exact hj
      · rw [show runProc cfg env io s.client .socketReadable =
          socketReadable cfg env io.reads s.client from rfl,
          sentSince_none _ _ hrun.fd (hrun.wire _), List.append_nil]
        exact balance_net cfg whole s _ j _ hrun.balance rfl rfl rfl rfl
  | writable io =>
      simp only [Wrk.step, Option.map_eq_some_iff] at hs
      rcases hs with ⟨p, hp, rfl⟩
      have hwrite : p = .socketWriteable := by
        cases p with
        | socketConnected => exact absurd hp (hreg.connected hup)
        | socketWriteable => rfl
        | socketReadable => exact absurd hp hreg.writable
      subst hwrite
      simp only [faultless, Bool.and_eq_true, decide_eq_true_eq] at hf
      have hbal := socketWriteable_balance cfg env whole hb s n io.write s.client hf.2.2 hp h
      have hup' : (socketWriteable cfg env io.write s.client).c.up := (mode_up _).mp hbal.up
      refine ⟨q, n, ?_, hdata, hbal⟩
      rw [show (runProc cfg env io s.client .socketWriteable).c.parser = s.client.c.parser from
        ((socketWriteable_registered cfg env io.write s.client hreg).2 hup').2]
      exact htrails
  | timer i =>
      simp only [Wrk.step] at hs
      split_ifs at hs with hi
      rw [Option.some.injEq] at hs
      subst hs
      have hwriter := delayRequest_writer i s.client hreg hi
      have hparser : (delayRequest s.client i).c.parser = s.client.c.parser := by
        unfold delayRequest createWritable
        split_ifs
        · rfl
        · rfl
      refine ⟨q, n, by rw [hparser]; exact htrails, hdata, ?_⟩
      rw [sentSince_none _ _ (congrArg Writer.fd hwriter)
        (congrArg (fun wr => wire s.client.c.fd wr.log) hwriter), List.append_nil, hwriter]
      exact balance_fire cfg whole s n s.client.c.writer (Nat.zero_lt_of_lt hi) h

/-- An event of a connection that is not established yet. -/
theorem opening_step (cfg : Config) (env : Env) (whole : Bytes → Bool) (s : Net) (a : Act)
    (w : World) (ho : Opening cfg s) (hf : faultless s.client a = true)
    (hs : Wrk.step cfg env s.client a = some w) :
    w = s.client ∨
      (w.c.up ∧ Trails w.c.parser httpParserInit ∧ sentSince s.client w = [] ∧
        Balance cfg whole s 0 w.c.writer) := by
  -- The only handler there can be is the one for the connection.
  have hproc : ∀ p : Proc, s.client.c.readable = some p ∨ s.client.c.writable = some p →
      p = .socketConnected ∧ s.client.c.fdOpen = true := by
    intro p hp
    rcases ho.registration with hreg | hreg
    · simp only [Conn.registration, Prod.mk.injEq] at hreg
      rw [hreg.2.1, hreg.2.2, or_self, Option.some.injEq] at hp
      exact ⟨hp.symm, hreg.1⟩
    · simp only [Conn.registration, Prod.mk.injEq] at hreg
      rw [hreg.2.1, hreg.2.2, or_self] at hp
      exact absurd hp.symm (Option.some_ne_none p)
  -- It may have to wait, and then nothing has changed.
  have hconnect : ∀ io : Io, io.connect ≠ .error → s.client.c.fdOpen = true →
      socketConnected env io.connect s.client = w →
      w = s.client ∨ (w.c.up ∧ Trails w.c.parser httpParserInit ∧ sentSince s.client w = [] ∧
        Balance cfg whole s 0 w.c.writer) := by
    intro io hio hopen hw
    cases hr : io.connect with
    | error => exact absurd hr hio
    | retry =>
        rw [hr] at hw
        exact Or.inl hw.symm
    | ok =>
        rw [hr] at hw
        rcases conversing_connected cfg env whole s ho hopen with ⟨htrails, hsent, hbal⟩
        rw [hw] at htrails hsent hbal
        exact Or.inr ⟨(mode_up _).mp hbal.up, htrails, hsent, hbal⟩
  cases a with
  | readable io =>
      simp only [Wrk.step, Option.map_eq_some_iff] at hs
      rcases hs with ⟨p, hp, hw⟩
      rcases hproc p (Or.inl hp) with ⟨rfl, hopen⟩
      simp only [faultless, Bool.and_eq_true, decide_eq_true_eq] at hf
      exact hconnect io hf.2 hopen hw
  | writable io =>
      simp only [Wrk.step, Option.map_eq_some_iff] at hs
      rcases hs with ⟨p, hp, hw⟩
      rcases hproc p (Or.inr hp) with ⟨rfl, hopen⟩
      simp only [faultless, Bool.and_eq_true, decide_eq_true_eq] at hf
      exact hconnect io hf.2.1 hopen hw
  | timer i =>
      simp only [Wrk.step, ho.timers, List.length_nil, Nat.not_lt_zero, if_false,
        reduceCtorEq] at hs

/-- Every step of either party keeps the invariant. -/
theorem conversing_step (cfg : Config) (env : Env) (whole : Bytes → Bool)
    (hb : StaticBatch cfg whole) (s s' : Net) (a : NetAct) (h : Conversing cfg whole s)
    (hs : s.step cfg env whole a = some s') : Conversing cfg whole s' := by
  cases a with
  | client a =>
      simp only [Net.step] at hs
      split_ifs at hs with hcond
      simp only [Bool.and_eq_true, List.isPrefixOf_iff_prefix] at hcond
      rcases Option.map_eq_some_iff.mp hs with ⟨w, hw, rfl⟩
      have hholds := step_holds cfg env _ _ (keeps_trivially cfg env) s.client w a h.holds hw
      -- The client is in the middle of the conversation, or about to begin it.
      by_cases hup : s.client.c.up
      · rcases h.running hup with ⟨q, n, htrails, hdata, hbal⟩
        rcases running_step cfg env whole hb s a w q n hup h.holds.registered htrails hdata hbal
          hcond.1 hcond.2 hw with ⟨q', n', htrails', hdata', hbal'⟩
        have hup' : w.c.up := (mode_up w.c).mp hbal'.up
        exact ⟨hholds, fun hd => absurd hup' hd, fun _ => ⟨q', n', htrails', hdata',
          balance_net cfg whole _ _ n' _ hbal' rfl rfl rfl rfl⟩⟩
      · have ho := h.opening hup
        rcases ho.silent with ⟨hout, hasked, howed, hanswered, hin⟩
        rcases opening_step cfg env whole s a w ho hcond.1 hw with
          rfl | ⟨hup', htrails, hsent, hbal⟩
        · refine ⟨hholds, fun _ => ?_, fun hu => absurd hu hup⟩
          refine ⟨ho.registration, ho.timers, ho.request, ho.pending, ho.unsent, ho.tally,
            ho.completes, ?_, hasked, howed, hanswered, ?_⟩
          · dsimp only
            rw [sentSince_none _ _ rfl rfl, hout]
            rfl
          · dsimp only
            rw [hin, List.drop_nil]
        · refine ⟨hholds, fun hd => absurd hup' hd, fun _ => ⟨httpParserInit, 0, htrails, ?_, ?_⟩⟩
          · dsimp only
            rw [hin, List.drop_nil]
            rfl
          · refine balance_net cfg whole s _ 0 _ hbal ?_ rfl rfl rfl
            dsimp only
            rw [hsent, List.append_nil]
  | hear =>
      -- The server hears one byte of what is on its way.
      simp only [Net.step] at hs
      cases hout : s.outgoing with
      | nil => simp only [hout, reduceCtorEq] at hs
      | cons ch data =>
          simp only [hout, Option.some.injEq] at hs
          subst hs
          refine ⟨h.holds, fun hd => ?_, fun hup => ?_⟩
          · exact absurd (hout.symm.trans (h.opening hd).silent.1) (List.cons_ne_nil ch data)
          · rcases h.running hup with ⟨q, n, htrails, hdata, hbal⟩
            exact ⟨q, n, htrails, hdata, balance_hear cfg whole s n _ ch data hout hbal⟩
  | answer text =>
      simp only [Net.step] at hs
      split_ifs at hs with hcond
      simp only [Bool.and_eq_true, decide_eq_true_eq, isResponse] at hcond
      rw [Option.some.injEq] at hs
      subst hs
      refine ⟨h.holds, fun hd => ?_, fun hup => ?_⟩
      · -- It owes nothing before the conversation begins.
        have howed := (h.opening hd).silent.2.2.1
        omega
      · rcases h.running hup with ⟨q, n, htrails, hdata, hbal⟩
        refine ⟨q, n + 1, htrails, ?_, balance_answer cfg whole s n _ _ hcond.1 hbal⟩
        dsimp only
        rw [bytewise_append q httpParserInit s.incoming text n hdata, hcond.2]
        rfl

/-- What holds of both parties while the connection is up. -/
structure InStep (cfg : Config) (whole : Bytes → Bool) (s : Net) : Prop where
  /-- The number pending is that of the requests of the last batch whose
      responses have not completed. -/
  pending : s.client.c.pending = due cfg.pipeline s.client.c.log
  /-- Each of them is not wholly sent or on its way, or the server owes a
      response to it, or has sent one that has not completed. -/
  flight : s.client.c.pending =
    (requestsIn whole s.asked (s.outgoing ++ unsent s.client.c.log)).2 + s.owed +
      (s.answered - completes s.client.c.log)
  answered : completes s.client.c.log ≤ s.answered
  /-- No response completes when nothing is pending. -/
  never : NeverZero s.client.c.log
  /-- A batch begins when the one before is answered and written. -/
  begun : Begun cfg.pipeline s.client.c.log
  /-- At most one delay timer is live. -/
  timers : s.client.c.timers.length ≤ 1
  /-- One latency is recorded for each batch that is answered. -/
  batches : completes s.client.c.log + s.client.c.pending =
    cfg.pipeline * (recordings s.client.c.log + if s.client.c.pending = 0 then 0 else 1)

theorem stage_timers (cfg : Config) (wr : Writer) (h : Stage cfg wr) : wr.timers ≤ 1 := by
  cases h with
  | idle _ _ _ ht =>
      rcases ht with ⟨ht, _⟩ | ⟨ht, _⟩
      · omega
      · omega
  | offered _ _ _ _ _ _ ht => omega
  | writing _ _ _ _ _ ht => omega
  | waiting _ _ _ _ _ ht => omega

theorem balance_inStep (cfg : Config) (whole : Bytes → Bool) (s : Net) (n : Nat)
    (h : Balance cfg whole s n s.client.c.writer) : InStep cfg whole s := by
  have hanswered : s.answered = completes s.client.c.log + n := h.answered
  have hsub : s.answered - completes s.client.c.log = n := by omega
  refine ⟨h.tally.due, ?_, by omega, h.tally.never, h.tally.begun, stage_timers cfg _ h.stage,
    h.tally.batches⟩
  rw [hsub]
  exact h.balance

/-- The closed loop: a static batch of as many requests as the pipeline is
    deep, against a server that answers each once. -/
theorem closedLoop (cfg : Config) (env : Env) (t : Thread) (whole : Bytes → Bool)
    (requests : List Bytes) (hstatic : cfg.dynamic = false) (hne : requests ≠ [])
    (hpipeline : cfg.pipeline = requests.length) (htext : cfg.request = requests.flatten)
    (hwhole : ∀ text ∈ requests, requestsIn whole [] text = ([], 1)) (s : Net)
    (hreach : Transition.Reaches (Net.step cfg env whole) (Net.start cfg env t) s)
    (hup : s.client.c.up) : InStep cfg whole s := by
  have hbatch : StaticBatch cfg whole := by
    refine ⟨hstatic, ?_, ?_⟩
    · rw [htext, hpipeline]
      exact requestsIn_flatten whole requests hwhole
    · rw [hpipeline]
      exact List.length_pos_of_ne_nil hne
  -- By induction on the run.
  have hconv : Conversing cfg whole s :=
    Transition.reaches_invariant (Net.step cfg env whole) (Conversing cfg whole)
      (fun u a u' hu hs => conversing_step cfg env whole hbatch u u' a hu hs) _ s
      (conversing_start cfg env whole hbatch t) hreach
  rcases hconv.running hup with ⟨_, n, _, _, hbal⟩
  exact balance_inStep cfg whole s n hbal

/-- A request is whole with its empty line. -/
def Net.plainWhole (data : Bytes) : Bool := (bytes "\r\n\r\n").isSuffixOf data

/-- Two requests, written in two pieces; the server answers the first before
    it has the second. -/
def Net.plainRun : List NetAct :=
  [.client (.writable (Io.serving 0 [])), .client (.writable (Io.serving 29 []))] ++
    List.replicate 18 .hear ++
    [.answer (bytes "HTTP/1.1 204 No Content\r\n\r\n"),
     .client (.readable (Io.serving 0 [bytes "HTTP/1.1 204 No"])),
     .client (.readable (Io.serving 0 [bytes " Content\r\n\r\n"]))]

def Config.pair : Config :=
  { Config.plain with pipeline := 2, request := bytes "GET / HTTP/1.1\r\n\r\nGET / HTTP/1.1\r\n\r\n" }

/-- After one of two responses. -/
theorem closedLoop_pair : ∃ s : Net,
    Transition.Reaches (Net.step Config.pair Env.plain Net.plainWhole)
      (Net.start Config.pair Env.plain (Thread.zero 10)) s ∧
    s.client.c.pending = 1 ∧ s.client.c.up ∧ InStep Config.pair Net.plainWhole s := by
  have hsome : (Transition.run (Net.step Config.pair Env.plain Net.plainWhole)
      (Net.start Config.pair Env.plain (Thread.zero 10)) Net.plainRun).map
        (fun s => (s.client.c.pending, decide s.client.c.up)) = some (1, true) := by
    decide +kernel
  rcases Option.map_eq_some_iff.mp hsome with ⟨s, hs, hpair⟩
  simp only [Prod.mk.injEq, decide_eq_true_eq] at hpair
  have hreach : Transition.Reaches (Net.step Config.pair Env.plain Net.plainWhole)
      (Net.start Config.pair Env.plain (Thread.zero 10)) s := ⟨_, hs⟩
  refine ⟨s, hreach, hpair.1, hpair.2, ?_⟩
  exact closedLoop Config.pair Env.plain (Thread.zero 10) Net.plainWhole
    [bytes "GET / HTTP/1.1\r\n\r\n", bytes "GET / HTTP/1.1\r\n\r\n"] rfl (List.cons_ne_nil _ _) rfl
    (by decide +kernel) (by decide +kernel) s hreach hpair.2

end Wrk
