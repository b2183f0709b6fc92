import Wrk.Connection.Fleet

/-!
# Wedged Connections

A connection that is established should have something to send or something
to wait for. `socket_writeable` stops writing when the batch is written, and
relies on a pending response to start it again; `response_complete` starts it
when no response is pending, and relies on the batch having been written. If
the last response of a batch completes first, the end of the batch stops
writing with nothing left to start it.

The other way to a wedge leads through the numbers of descriptors. A timer
outlives its connection's descriptor; if the connection could not connect
again, the timer acts on the number of another connection, whose writing the
first one then stops with its own batch.

There are no more. As long as no last response completes while a batch is
partly written, and no connection acts on a descriptor that something else
holds, an established connection always has something to do.

## Main definitions

* `WrittenFirst`: No last response completes while a batch is partly written.
* `Fleet.Busy`: Something to send, or something to wait for.

## Theorems

* `busy_move`: Every move keeps a connection busy.
* `established_busy`: No run that meets the conditions wedges.
* `earlyResponse_wedges`: A response that comes early does.
* `staleTimer_wedges`: So does a timer that acts on another's descriptor.
-/

namespace Wrk

open HttpParser Transition Descriptor

/-! ### The writing side -/

/-- Some bytes of a batch have been accepted on the descriptor, but not the
    last. -/
def midBatch : List Obs → Bool
  | [] => false
  | .accepted _ _ _ :: _ => true
  | .finished _ _ _ :: _ => false
  | .connected _ :: _ => false
  | _ :: log => midBatch log

/-- No response completes as the last that is pending while a batch is partly
    written. -/
def WrittenFirst : List Obs → Prop
  | [] => True
  | .complete _ _ pending _ :: log => (pending = 1 → midBatch log = false) ∧ WrittenFirst log
  | _ :: log => WrittenFirst log

theorem writtenFirst_suffix (pre log : List Obs) (h : WrittenFirst (pre ++ log)) :
    WrittenFirst log := by
  induction pre with
  | nil => exact h
  | cons o pre ih =>
      cases o with
      | complete => exact ih h.2
      | _ => exact ih h

theorem midBatch_heard (o : Obs) (log : List Obs) (ho : o.heard = true) :
    midBatch (o :: log) = midBatch log := by
  cases o with
  | accepted | finished | connected => cases ho
  | _ => rfl

/-- An established connection has something to do, and something to wait for
    while a batch is partly written. -/
structure Busy (wr : Writer) : Prop where
  busy : wr.mode = .up → wr.armed = true ∨ 0 < wr.timers ∨ 0 < wr.pending
  pending : wr.mode = .up → wr.written ≠ 0 → 0 < wr.pending
  written : wr.written ≠ 0 → midBatch wr.log = true

theorem busy_offer (cfg : Config) (hpipeline : 0 < cfg.pipeline) (wr : Writer) (text : Bytes)
    (h : Busy wr) :
    Busy (wr.offer cfg text) ∧ (wr.mode = .up → 0 < (wr.offer cfg text).pending) := by
  unfold Writer.offer
  -- A batch begins, and its responses are pending; or one goes on.
  by_cases hw : wr.written = 0
  · rw [if_pos hw]
    exact ⟨⟨fun _ => Or.inr (Or.inr hpipeline), fun _ _ => hpipeline, fun hne => absurd hw hne⟩,
      fun _ => hpipeline⟩
  · rw [if_neg hw]
    exact ⟨h, fun hup => h.pending hup hw⟩

theorem offer_mode (cfg : Config) (wr : Writer) (text : Bytes) :
    (wr.offer cfg text).mode = wr.mode := by
  unfold Writer.offer
  split_ifs <;> rfl

theorem busy_move (cfg : Config) (hpipeline : 0 < cfg.pipeline) (env : Env) (wr wr' : Writer)
    (h : Busy wr) (hm : Move cfg env wr wr') (hf : WrittenFirst wr'.log) : Busy wr' := by
  cases hm with
  | hear o ho =>
      exact ⟨h.busy, h.pending, fun hw => (midBatch_heard o wr.log ho).trans (h.written hw)⟩
  | complete status told _ htold hp =>
      refine ⟨fun _ => Or.inr (Or.inr (Nat.pos_of_ne_zero hp)), fun _ _ => Nat.pos_of_ne_zero hp,
        fun hw => ?_⟩
      exact (append_skip midBatch midBatch_heard told _ htold).trans (h.written hw)
  | completeLast status told latency accepted hmode htold hp =>
      -- The one move that leaves nothing pending: no batch is partly written.
      have hpending : wr.pending = 1 := by
        unfold sub64 at hp
        split_ifs at hp with hle
        · omega
        · omega
      have hmid : midBatch wr.log = false := (writtenFirst_suffix told _ hf).1 hpending
      have hnone : ¬ wr.written ≠ 0 := fun hw =>
        Bool.false_ne_true (hmid.symm.trans (h.written hw))
      exact ⟨fun _ => Or.inl rfl, fun _ hw => absurd hw hnone, fun hw => absurd hw hnone⟩
  | close => exact ⟨fun hup => Mode.noConfusion hup, fun hup => Mode.noConfusion hup, h.written⟩
  | opened => exact ⟨fun hup => Mode.noConfusion hup, fun hup => Mode.noConfusion hup, h.written⟩
  | failed => exact ⟨h.busy, h.pending, h.written⟩
  | established =>
      exact ⟨fun _ => Or.inl rfl, fun _ hw => absurd rfl hw, fun hw => absurd rfl hw⟩
  | delay => exact ⟨fun _ => Or.inr (Or.inl (Nat.succ_pos _)), h.pending, h.written⟩
  | offer text => exact (busy_offer cfg hpipeline wr text h).1
  | acceptAll text =>
      -- Writing stops with the batch, and a response is pending.
      have hmode := offer_mode cfg wr text
      exact ⟨fun hup => Or.inr (Or.inr ((busy_offer cfg hpipeline wr text h).2 (hmode ▸ hup))),
        fun _ hw => absurd rfl hw, fun hw => absurd rfl hw⟩
  | acceptSome text more =>
      have hmode := offer_mode cfg wr text
      have hpending := (busy_offer cfg hpipeline wr text h).2
      exact ⟨fun hup => Or.inr (Or.inr (hpending (hmode ▸ hup))),
        fun hup _ => hpending (hmode ▸ hup), fun _ => rfl⟩
  | fire =>
      refine ⟨fun hup => Or.inl ?_, h.pending, h.written⟩
      have hmode : wr.mode ≠ .closed := by
        intro hc
        exact Mode.noConfusion (hc.symm.trans hup)
      simp only [Writer.fire, hmode, ne_eq, not_false_eq_true, decide_true, Bool.true_or]

/-! ### The connections of a process -/

/-- The handler that is registered for the writing of a connection. -/
def Fleet.writing {T C : Type} [DecidableEq C] (p : Descriptor.Setup T C) (s : Fleet T C)
    (c : C) : Option Proc :=
  (s.process.loop (p.thread c) (s.process.fd c)).bind fun r =>
    if r.client = c then r.writable else none

/-- Writing is armed for the connection, a timer of it is live, or a response
    is pending. -/
def Fleet.Busy {T C : Type} [DecidableEq C] (p : Descriptor.Setup T C) (s : Fleet T C) (c : C) :
    Prop :=
  s.writing p c = some .socketWriteable ∨ (s.conn c).timers ≠ [] ∨ 0 < (s.conn c).pending

instance {T C : Type} [DecidableEq C] (p : Descriptor.Setup T C) (s : Fleet T C) (c : C) :
    Decidable (s.Busy p c) :=
  inferInstanceAs (Decidable (_ ∨ _ ∨ _))

/-- In every run in which no connection acts on a descriptor that something
    else holds, a connection whose last responses complete only after the
    batch is written has something to send or something to wait for, whenever
    it is established and its thread waits for events. -/
theorem established_busy {T C : Type} [DecidableEq T] [DecidableEq C] (p : Descriptor.Setup T C)
    (cfg : Config) (hpipeline : 0 < cfg.pipeline) (env : C → Env) (M open_ : Nat) (s : Fleet T C)
    (hr : Reaches (onlyIf Fleet.apart (Fleet.step cfg env p)) (Fleet.start cfg env p M open_) s)
    (c : C) (hfirst : WrittenFirst (s.conn c).log) (hidle : s.process.work (p.thread c) = [])
    (he : established (s.conn c).log = some (s.conn c).fd) : s.Busy p c := by
  have h := moves_invariant_of_log cfg (env c) WrittenFirst writtenFirst_suffix Busy
    ⟨fun hup => Mode.noConfusion hup, fun hup => Mode.noConfusion hup, fun hw => absurd rfl hw⟩
    (fun wr wr' _ => busy_move cfg hpipeline (env c) wr wr') _
    (Fleet.fleet_moves cfg env p M open_ s hr c) hfirst
  -- A connection that is established is up.
  have hup : (s.conn c).writer.mode = .up := by
    by_contra hdown
    have hlog := h.1.log
    rw [if_neg hdown] at hlog
    exact Option.some_ne_none _ (he.symm.trans hlog)
  rcases h.2.busy hup with ha | ht | hp
  -- What the connection has registered is what its loop has.
  · have hinv := Fleet.fleet_inv cfg env p (fun _ _ _ => True) (fun _ _ => True)
      (fun _ => by constructor <;> intros <;> trivial) M open_ (fun _ => trivial) s hr
    rcases Fleet.idle_entry cfg env p _ _ s c hinv hidle ((mode_up _).mp hup) with
      ⟨r, hentry, hclient, _, hwritable⟩
    have hwriting : s.writing p c = r.writable := by
      unfold Fleet.writing
      rw [hentry, Option.bind_some, if_pos hclient]
    exact Or.inl (hwriting.trans (hwritable.trans (of_decide_eq_true ha)))
  · exact Or.inr (Or.inl (List.ne_nil_of_length_pos ht))
  · exact Or.inr (Or.inr hp)

/-! ### Runs on fixed inputs -/

namespace Fleet

/-- So many connections of one thread. -/
def together (n : Nat) : Descriptor.Setup Unit (Fin n) where
  thread _ := ()
  connections _ := List.finRange n
  mem_iff _ c := ⟨fun _ => rfl, fun _ => List.mem_finRange c⟩
  nodup _ := List.nodup_finRange n
  setsize := 110

/-- A handler runs, and its calls are made. -/
def writes {C : Type} (fd : Nat) (io : Io) (calls : List Bool) : List (Act Unit C) :=
  .writable () fd io :: calls.map (.call ())

def reads {C : Type} (fd : Nat) (io : Io) (calls : List Bool) : List (Act Unit C) :=
  .readable () fd io :: calls.map (.call ())

end Fleet

/-- The transport fails. -/
def Io.broken : Io := ⟨.error, .error, [⟨.error, false⟩]⟩

/-- Two bytes of the request are written, the response comes, and then the
    rest is written. -/
def earlyResponse {C : Type} : List (Fleet.Act Unit C) :=
  List.replicate 3 (.call () true) ++ Fleet.writes 3 (Io.serving 0 []) [true, true] ++
    Fleet.writes 3 (Io.serving 1 []) [] ++
    Fleet.reads 3 (Io.serving 0 [bytes "HTTP/1.1 200 OK\r\nContent-Length: 0\r\n\r\n"]) [true] ++
    Fleet.writes 3 (Io.serving 99 []) [true]

/-- After that the connection is established and waits for nothing. -/
theorem earlyResponse_wedges :
    ∃ s, run (Fleet.step Config.plain (fun _ => Env.plain) (Fleet.together 1))
        (Fleet.start Config.plain (fun _ => Env.plain) (Fleet.together 1) 10 3) earlyResponse =
          some s ∧
      s.process.work () = [] ∧ established (s.conn 0).log = some (s.conn 0).fd ∧
      ¬ s.Busy (Fleet.together 1) 0 := by
  have h : (run (Fleet.step Config.plain (fun _ => Env.plain) (Fleet.together 1))
      (Fleet.start Config.plain (fun _ => Env.plain) (Fleet.together 1) 10 3) earlyResponse).map
        (fun s => (s.process.work (), established (s.conn 0).log, (s.conn 0).fd,
          decide (s.Busy (Fleet.together 1) 0))) = some ([], some 0, 0, false) := by decide +kernel
  rcases Option.map_eq_some_iff.mp h with ⟨s, hs, hend⟩
  simp only [Prod.mk.injEq] at hend
  rcases hend with ⟨hwork, he, hfd, hbusy⟩
  exact ⟨s, hs, hwork, he.trans (congrArg some hfd.symm), of_decide_eq_false hbusy⟩

/-- Requests are delayed. -/
def Config.paced : Config := { Config.plain with delay := true }

/-- One connection connects once, and then never again. -/
def connectsOnce {C : Type} [DecidableEq C] (once c : C) : Env :=
  if c = once then { Env.plain with connect := fun n => if n = 0 then .ok else .refused }
  else Env.plain

/-- A connection has a timer when its descriptor is replaced, and connecting
    fails. The other one gets the number, before the timer fires and the first
    sends a request. -/
def staleTimer {C : Type} (c : C) : List (Fleet.Act Unit C) :=
  List.replicate 6 (.call () true) ++ Fleet.writes 3 (Io.serving 0 []) [true, true] ++
    Fleet.writes 3 (Io.serving 0 []) [true] ++
    Fleet.reads 3 Io.broken [true, true, true, false, true] ++
    Fleet.reads 4 Io.broken [true, true, true, true, true] ++
    Fleet.writes 3 (Io.serving 0 []) [true, true] ++ [.timer c 0, .call () true] ++
    Fleet.writes 3 (Io.serving 99 []) [true]

/-- After that the other is established and waits for nothing, though all its
    responses come after its requests. -/
theorem staleTimer_wedges :
    ∃ s, run (Fleet.step Config.paced (connectsOnce 0) (Fleet.together 2))
        (Fleet.start Config.paced (connectsOnce 0) (Fleet.together 2) 10 3) (staleTimer 0) =
          some s ∧
      s.process.work () = [] ∧ established (s.conn 1).log = some (s.conn 1).fd ∧
      WrittenFirst (s.conn 1).log ∧ ¬ s.Busy (Fleet.together 2) 1 := by
  have h : (run (Fleet.step Config.paced (connectsOnce 0) (Fleet.together 2))
      (Fleet.start Config.paced (connectsOnce 0) (Fleet.together 2) 10 3) (staleTimer 0)).map
        (fun s => (s.process.work (), (s.conn 1).log, (s.conn 1).fd,
          decide (s.Busy (Fleet.together 2) 1))) =
      some ([], [.connected 1, .opened 1, .sslSetOptions, .closed 0 0 .field 0 0, .opened 0,
        .sslSetOptions], 1, false) := by decide +kernel
  rcases Option.map_eq_some_iff.mp h with ⟨s, hs, hend⟩
  simp only [Prod.mk.injEq] at hend
  rcases hend with ⟨hwork, hlog, hfd, hbusy⟩
  refine ⟨s, hs, hwork, ?_, ?_, of_decide_eq_false hbusy⟩
  · rw [hlog, hfd]
    rfl
  · rw [hlog]
    trivial

/-- The timer fires before the number is another's, and is refused. The other
    connection has its response after the whole request. -/
def lateResponse {C : Type} (c other : C) : List (Fleet.Act Unit C) :=
  List.replicate 6 (.call () true) ++ Fleet.writes 3 (Io.serving 0 []) [true, true] ++
    Fleet.writes 4 (Io.serving 0 []) [true, true] ++ Fleet.writes 3 (Io.serving 0 []) [true] ++
    Fleet.writes 4 (Io.serving 0 []) [true] ++
    Fleet.reads 3 Io.broken [true, true, true, false, true] ++
    [.timer c 0, .call () false, .timer other 0, .call () true] ++
    Fleet.writes 4 (Io.serving 1 []) [] ++ Fleet.writes 4 (Io.serving 99 []) [true] ++
    Fleet.reads 4 (Io.serving 0 [bytes "HTTP/1.1 200 OK\r\nContent-Length: 0\r\n\r\n"]) [true]

theorem established_busy_late :
    ∃ s, run (onlyIf Fleet.apart (Fleet.step Config.paced (connectsOnce 0) (Fleet.together 2)))
        (Fleet.start Config.paced (connectsOnce 0) (Fleet.together 2) 10 3) (lateResponse 0 1) =
          some s ∧
      s.Busy (Fleet.together 2) 1 := by
  have h : (run (onlyIf Fleet.apart (Fleet.step Config.paced (connectsOnce 0) (Fleet.together 2)))
      (Fleet.start Config.paced (connectsOnce 0) (Fleet.together 2) 10 3) (lateResponse 0 1)).map
        (fun s => (s.process.work (), (s.conn 1).log, (s.conn 1).fd)) =
      some ([], [.recorded 0 1, .complete 0 200 1 0, .finished 0 1 0,
        .accepted 0 2 (bytes "T / HTTP/1.1\r\n\r\n"), .accepted 0 0 (bytes "GE"),
        .batch 0 (bytes "GET / HTTP/1.1\r\n\r\n"), .delayed 0, .connected 0, .opened 0,
        .sslSetOptions], 0) := by decide +kernel
  rcases Option.map_eq_some_iff.mp h with ⟨s, hs, hend⟩
  simp only [Prod.mk.injEq] at hend
  rcases hend with ⟨hwork, hlog, hfd⟩
  refine ⟨s, hs, established_busy (Fleet.together 2) Config.paced Nat.one_pos (connectsOnce 0) 10 3
    s ⟨lateResponse 0 1, hs⟩ 1 ?_ hwork ?_⟩
  · rw [hlog]
    exact ⟨fun _ => rfl, trivial⟩
  · rw [hlog, hfd]
    rfl

end Wrk
