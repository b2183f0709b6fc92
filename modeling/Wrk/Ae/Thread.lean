import Wrk.Ae.Once
import Wrk.Connection.World

/-!
# The Event Loop of a Thread

`thread_main`: the connections connect, the time event of `record_rate` is
created, and the event loop runs until something stops it: `record_rate` when
it finds the global `stop` set, or a hook of the script that calls
`thread:stop`. `record_rate` reschedules itself every time it is called, and
nothing else in the program deletes time events, so it stays the oldest event
of the loop for as long as the loop runs.

What the handlers of connections do is read from an oracle. It is left open
but for what no handler of `wrk.c` ever does, which is to delete a time event.

## Main definitions

* `Handler`, `SocketCall`: What the handlers of a thread are, and can do.
* `recordRate`: The part of `record_rate` that concerns the loop.
* `Caused`: Something that was called stops the loop.
* `connectSocket`, `threadMain`: What a thread runs.
* `Adds`, `Grows`: What handlers leave.
* `OfRecordRate`: The time event of `record_rate`.
* `Looping`: The loop over the time events on its way to it.

## Theorems

* `aeAddMillisecondsToNow_spec`: When a new event is due.
* `invoke_adds`, `invoke_recordRate`: What the handlers leave.
* `fireTimer_recordRate`: `record_rate` is scheduled again.
* `visit_looping`: What a visit to an event leaves.
-/

namespace Wrk

namespace Ae

open Transition

/-- The handlers of `wrk.c`. -/
inductive Handler where
  | socket (proc : Proc)
  | delayRequest
  | recordRate
  deriving DecidableEq

/-- What they are given: the thread, or one of its connections. -/
inductive Client (C : Type) where
  | thread
  | conn (c : C)

/-- What the handlers of connections do to the loop. They call `request`,
    `delay` and `response`, which may call `thread:stop`. -/
inductive SocketCall (C : Type) where
  | createFileEvent (fd : Nat) (mask : Mask) (proc : Proc) (c : C) (ok : Bool)
  | deleteFileEvent (fd : Nat) (mask : Mask)
  | createTimeEvent (delay : Int) (c : C)
  | close (fd : Nat)
  | stop

variable {C : Type}

/-- The call itself. The only time events are those of `delay_request`. -/
def SocketCall.call : SocketCall C → Call Handler (Client C)
  | .createFileEvent fd mask proc c ok => .createFileEvent fd mask (.socket proc) (.conn c) ok
  | .deleteFileEvent fd mask => .deleteFileEvent fd mask
  | .createTimeEvent delay c => .createTimeEvent delay .delayRequest (.conn c) none
  | .close fd => .close fd
  | .stop => .stop

/-- `RECORD_INTERVAL_MS`. -/
def recordIntervalMs : Int := 100

/-- The end of `record_rate`, with the global `stop`. -/
def recordRate (stop : Bool) : List (Call Handler (Client C)) := if stop then [.stop] else []

/-- What surrounds a thread: the clocks and the kernel, the global `stop` as it
    is when a handler is called, and the calls of the handlers of
    connections. -/
structure Setting (C : Type) where
  clock : Nat → Nat
  time : Nat → Int
  poll : Nat → Int → List EpollEvent
  stop : Nat → Bool
  sockets : Nat → Invocation Handler (Client C) → List (SocketCall C)

/-- The hooks that a handler calls stop the loop. -/
def Setting.Hooked (e : Setting C) (n : Nat) : Prop := ∃ i, SocketCall.stop ∈ e.sockets n i

/-- One of the handlers called so far has found `stop` set, or has called a
    hook that stops the loop. -/
def Caused (e : Setting C) (s : State Handler (Client C)) : Prop :=
  ∃ n, n < s.invocations ∧ (e.stop n = true ∨ e.Hooked n)

theorem caused_mono (e : Setting C) {s t : State Handler (Client C)}
    (hle : s.invocations ≤ t.invocations) (h : Caused e s) : Caused e t := by
  rcases h with ⟨n, hn, hwhy⟩
  exact ⟨n, Nat.lt_of_lt_of_le hn hle, hwhy⟩

/-- The oracle of the loop. -/
def Setting.env (e : Setting C) : Env Handler (Client C) where
  clock := e.clock
  time := e.time
  poll := e.poll
  handler n i :=
    match i with
    | .time .recordRate _ _ => recordRate (e.stop n)
    | .finalizer _ _ => []
    | i => (e.sockets n i).map SocketCall.call
  returns _ i :=
    match i with
    | .time .recordRate _ _ => recordIntervalMs
    | _ => aeNoMore

/-- `connect_socket`, with whether `connect` works and whether the kernel has
    anything against the descriptor. -/
def connectSocket (s : State Handler (Client C)) (c : C) (fd : Nat) (connected ok : Bool) :
    State Handler (Client C) :=
  if connected then
    let r := aeCreateFileEvent s fd ⟨true, true⟩ (.socket .socketConnected) (.conn c) ok
    if r.2 then r.1 else closeDescriptor r.1 fd
  else closeDescriptor s fd

/-- An attempt to connect. -/
structure Attempt (C : Type) where
  c : C
  fd : Nat
  connected : Bool
  ok : Bool

/-- What `thread_main` does before it calls `aeMain`. -/
def threadStart (e : Setting C) (setsize : Nat) (attempts : List (Attempt C)) :
    State Handler (Client C) :=
  let s := attempts.foldl (fun s a => connectSocket s a.c a.fd a.connected a.ok)
    (aeCreateEventLoop e.env setsize)
  aeCreateTimeEvent e.env s recordIntervalMs .recordRate .thread none

/-- `thread_main`. -/
def threadMain (e : Setting C) (setsize : Nat) (attempts : List (Attempt C)) (fuel : Nat) :
    Option (State Handler (Client C)) :=
  aeMain e.env fuel (threadStart e setsize attempts)

theorem setting_quiet (e : Setting C) : e.env.Quiet :=
  fun _ _ _ _ hc => absurd hc List.not_mem_nil

/-! ### Times -/

/-- A time in milliseconds. -/
def When.total (w : When) : Int := w.sec * 1000 + w.ms

/-- The milliseconds are less than a second. -/
def Normal (w : When) : Prop := 0 ≤ w.ms ∧ w.ms < 1000

theorem reached_iff_total (due : When) (now : Nat) (h : Normal due) :
    due.reached (timeOf now) = true ↔ due.total ≤ now := by
  rcases h with ⟨h0, h1⟩
  rw [reached_iff]
  simp only [timeOf, When.total]
  omega

theorem total_timeOf (now : Nat) : (timeOf now).total = now := by
  simp only [When.total, timeOf]
  omega

/-- What `aeAddMillisecondsToNow` computes. -/
theorem aeAddMillisecondsToNow_spec {H D : Type} (env : Env H D) (ms : Int) (s : State H D) :
    (aeAddMillisecondsToNow env ms s).1.total = env.clock s.clocks + ms ∧
      (aeAddMillisecondsToNow env ms s).1.ms < 1000 ∧
      (0 ≤ ms → Normal (aeAddMillisecondsToNow env ms s).1) := by
  have hdiv := Int.tmod_add_mul_tdiv ms 1000
  have hlt : ms.tmod 1000 < 1000 := Int.tmod_lt_of_pos ms (by decide)
  have hnow := Nat.mod_lt (env.clock s.clocks) (show 0 < 1000 by decide)
  have hsplit := Nat.div_add_mod (env.clock s.clocks) 1000
  have hres : (aeAddMillisecondsToNow env ms s).1 =
      if ((env.clock s.clocks % 1000 : Nat) : Int) + ms.tmod 1000 ≥ 1000 then
        ⟨(env.clock s.clocks / 1000 : Nat) + ms.tdiv 1000 + 1,
          (env.clock s.clocks % 1000 : Nat) + ms.tmod 1000 - 1000⟩
      else ⟨(env.clock s.clocks / 1000 : Nat) + ms.tdiv 1000,
        (env.clock s.clocks % 1000 : Nat) + ms.tmod 1000⟩ := rfl
  rw [hres]
  by_cases hcarry : ((env.clock s.clocks % 1000 : Nat) : Int) + ms.tmod 1000 ≥ 1000
  · rw [if_pos hcarry]
    refine ⟨?_, ?_, fun _ => ⟨?_, ?_⟩⟩ <;> simp only [When.total] <;> omega
  · rw [if_neg hcarry]
    refine ⟨?_, ?_, fun hms => ⟨?_, ?_⟩⟩
    · simp only [When.total]
      omega
    · exact Int.not_le.mp hcarry
    · exact Int.add_nonneg (Int.natCast_nonneg _) (Int.tmod_nonneg 1000 hms)
    · exact Int.not_le.mp hcarry

/-! ### What handlers of connections leave -/

section Handlers

variable (e : Setting C)

/-- What a handler leaves: the time events there are, with others behind them,
    and the `stop` of the loop but for a cause. -/
structure Adds (e : Setting C) (s t : State Handler (Client C)) : Prop where
  list : ∃ more, t.loop.timeEvents = s.loop.timeEvents ++ more ∧
    ∀ te ∈ more, te.due.ms < 1000
  clocks : s.clocks ≤ t.clocks
  invocations : s.invocations ≤ t.invocations
  stop : s.loop.stop = true → t.loop.stop = true
  cause : t.loop.stop = true → s.loop.stop = true ∨ Caused e t

theorem adds_refl (s : State Handler (Client C)) : Adds e s s :=
  ⟨⟨[], (List.append_nil _).symm, fun _ h => absurd h List.not_mem_nil⟩, Nat.le_refl _,
    Nat.le_refl _, id, Or.inl⟩

theorem adds_trans {s t u : State Handler (Client C)} (h1 : Adds e s t) (h2 : Adds e t u) :
    Adds e s u := by
  rcases h1.list with ⟨more1, hl1, hms1⟩
  rcases h2.list with ⟨more2, hl2, hms2⟩
  refine ⟨⟨more1 ++ more2, ?_, fun te hte => ?_⟩, Nat.le_trans h1.clocks h2.clocks,
    Nat.le_trans h1.invocations h2.invocations, fun h => h2.stop (h1.stop h), fun h =>
    (h2.cause h).elim (fun h => (h1.cause h).imp_right (caused_mono e h2.invocations)) Or.inr⟩
  · rw [hl2, hl1, List.append_assoc]
  · exact (List.mem_append.mp hte).elim (hms1 te) (hms2 te)

/-- Nothing but files and the record has changed. -/
theorem adds_of_eq {s t : State Handler (Client C)}
    (hlist : t.loop.timeEvents = s.loop.timeEvents) (hclocks : s.clocks ≤ t.clocks)
    (hinvocations : s.invocations ≤ t.invocations) (hstop : t.loop.stop = s.loop.stop) :
    Adds e s t :=
  ⟨⟨[], hlist.trans (List.append_nil _).symm, fun _ h => absurd h List.not_mem_nil⟩, hclocks,
    hinvocations, hstop.trans, fun h => Or.inl (hstop.symm.trans h)⟩

theorem aeCreateFileEvent_adds (s : State Handler (Client C)) (fd : Nat) (mask : Mask)
    (proc : Handler) (data : Client C) (ok : Bool) :
    Adds e s (aeCreateFileEvent s fd mask proc data ok).1 := by
  unfold aeCreateFileEvent
  split
  · exact adds_refl e s
  · split
    · exact adds_refl e s
    · exact adds_of_eq e rfl (Nat.le_refl _) (Nat.le_refl _) rfl

theorem aeCreateTimeEvent_adds (s : State Handler (Client C)) (ms : Int) (proc : Handler)
    (data : Client C) : Adds e s (aeCreateTimeEvent e.env s ms proc data none) := by
  refine ⟨⟨[_], rfl, fun te hte => ?_⟩, Nat.le_succ _, Nat.le_refl _, id, Or.inl⟩
  rw [List.mem_singleton.mp hte]
  exact (aeAddMillisecondsToNow_spec e.env ms s).2.1

theorem socketCall_adds (s : State Handler (Client C)) (c : SocketCall C)
    (hstop : c = .stop → Caused e s) : Adds e s (runCall e.env s c.call) := by
  cases c with
  | createFileEvent fd mask proc c ok => exact aeCreateFileEvent_adds e s fd mask _ _ ok
  | deleteFileEvent fd mask =>
      simp only [SocketCall.call, runCall, aeDeleteFileEvent]
      split
      · exact adds_refl e s
      · split
        · exact adds_refl e s
        · exact adds_of_eq e rfl (Nat.le_refl _) (Nat.le_refl _) rfl
  | createTimeEvent delay c => exact aeCreateTimeEvent_adds e s delay _ _
  | close fd => exact adds_of_eq e rfl (Nat.le_refl _) (Nat.le_refl _) rfl
  | stop =>
      exact ⟨⟨[], (List.append_nil _).symm, fun _ h => absurd h List.not_mem_nil⟩,
        Nat.le_refl _, Nat.le_refl _, fun _ => rfl, fun _ => Or.inr (hstop rfl)⟩

theorem socketCalls_adds (cs : List (SocketCall C)) (s : State Handler (Client C))
    (hstop : .stop ∈ cs → Caused e s) :
    Adds e s ((cs.map SocketCall.call).foldl (runCall e.env) s) := by
  induction cs generalizing s with
  | nil => exact adds_refl e s
  | cons c cs ih =>
      have hfirst := socketCall_adds e s c fun hc => hstop (hc ▸ List.mem_cons_self)
      refine adds_trans e hfirst (ih (runCall e.env s c.call) fun hmem => ?_)
      exact caused_mono e hfirst.invocations (hstop (List.mem_cons_of_mem c hmem))

/-- The invocations of `record_rate`. -/
def Invocation.ofRecordRate : Invocation Handler (Client C) → Bool
  | .time .recordRate _ _ => true
  | _ => false

theorem invoke_adds (i : Invocation Handler (Client C)) (hi : i.ofRecordRate = false)
    (s : State Handler (Client C)) : Adds e s (invoke e.env i s) := by
  have hcount : Adds e s { s with invocations := s.invocations + 1 } :=
    adds_of_eq e rfl (Nat.le_refl _) (Nat.le_succ _) rfl
  have hcause : .stop ∈ e.sockets s.invocations i →
      Caused e { s with invocations := s.invocations + 1 } := fun hmem =>
    ⟨s.invocations, Nat.lt_succ_self _, Or.inr ⟨i, hmem⟩⟩
  refine adds_trans e hcount ?_
  cases i with
  | file proc fd data mask => exact socketCalls_adds e _ _ hcause
  | finalizer proc data => exact adds_refl e _
  | time proc id data =>
      cases proc with
      | socket proc => exact socketCalls_adds e _ _ hcause
      | delayRequest => exact socketCalls_adds e _ _ hcause
      | recordRate => cases hi

/-- A call of `record_rate` stops the loop if it finds `stop` set. -/
theorem invoke_recordRate (id : Int) (data : Client C) (s : State Handler (Client C)) :
    (invoke e.env (.time .recordRate id data) s).loop.timeEvents = s.loop.timeEvents ∧
      (invoke e.env (.time .recordRate id data) s).clocks = s.clocks ∧
      (invoke e.env (.time .recordRate id data) s).invocations = s.invocations + 1 ∧
      (invoke e.env (.time .recordRate id data) s).loop.stop =
        (s.loop.stop || e.stop s.invocations) := by
  have hcalls : e.env.handler s.invocations (.time .recordRate id data) =
      recordRate (e.stop s.invocations) := rfl
  unfold invoke
  rw [hcalls]
  unfold recordRate
  cases e.stop s.invocations with
  | true => exact ⟨rfl, rfl, rfl, (Bool.or_true _).symm⟩
  | false => exact ⟨rfl, rfl, rfl, (Bool.or_false _).symm⟩

/-- What any handler leaves. -/
structure Grows (e : Setting C) (s t : State Handler (Client C)) : Prop where
  list : ∃ more, t.loop.timeEvents = s.loop.timeEvents ++ more ∧
    ∀ te ∈ more, te.due.ms < 1000
  clocks : s.clocks ≤ t.clocks
  invocations : s.invocations < t.invocations
  stop : s.loop.stop = true → t.loop.stop = true
  cause : t.loop.stop = true → s.loop.stop = true ∨ Caused e t

theorem invoke_invocations (i : Invocation Handler (Client C)) (s : State Handler (Client C)) :
    s.invocations < (invoke e.env i s).invocations :=
  (runCalls_leaves e.env _ { s with invocations := s.invocations + 1 }).invocations

theorem invoke_grows (i : Invocation Handler (Client C)) (s : State Handler (Client C)) :
    Grows e s (invoke e.env i s) := by
  have hmore := invoke_invocations e i s
  by_cases hi : i.ofRecordRate = false
  · have hadds := invoke_adds e i hi s
    exact ⟨hadds.list, hadds.clocks, hmore, hadds.stop, hadds.cause⟩
  · cases i with
    | file proc fd data mask => exact absurd rfl hi
    | finalizer proc data => exact absurd rfl hi
    | time proc id data =>
        cases proc with
        | socket proc => exact absurd rfl hi
        | delayRequest => exact absurd rfl hi
        | recordRate =>
            rcases invoke_recordRate e id data s with ⟨hlist, hclocks, _, hstop⟩
            refine ⟨⟨[], hlist.trans (List.append_nil _).symm,
              fun _ h => absurd h List.not_mem_nil⟩, Nat.le_of_eq hclocks.symm, hmore,
              fun h => ?_, fun h => ?_⟩
            · rw [hstop, h, Bool.true_or]
            · rw [hstop, Bool.or_eq_true] at h
              exact h.imp_right fun hn => ⟨s.invocations, hmore, Or.inl hn⟩

end Handlers

/-! ### The time event of `record_rate` -/

/-- The time event of `record_rate`. -/
structure OfRecordRate (te : TimeEvent Handler (Client C)) : Prop where
  id : te.id = 0
  timeProc : te.timeProc = .recordRate
  normal : Normal te.due

/-- The loop over the time events has come to an index, and `record_rate` is
    the last it comes to. -/
structure Looping (e : Setting C) (s : State Handler (Client C))
    (ev : TimeEvent Handler (Client C)) (n : Nat) (r : State Handler (Client C) × Nat) : Prop where
  small : ∀ te ∈ r.1.loop.timeEvents, te.due.ms < 1000
  clocks : s.clocks ≤ r.1.clocks
  invocations : s.invocations ≤ r.1.invocations
  stop : s.loop.stop = true → r.1.loop.stop = true
  cause : r.1.loop.stop = true → s.loop.stop = true ∨ Caused e r.1
  here : 0 < n → r.1.loop.timeEvents[0]? = some ev
  done : n = 0 →
    (r.1.loop.timeEvents[0]? = some ev ∧ ¬ev.due.reached (timeOf (e.clock s.clocks)) = true) ∨
      ∃ m due, s.invocations ≤ m ∧ m < r.1.invocations ∧
        (e.stop m = true → r.1.loop.stop = true) ∧ r.1.loop.timeEvents[0]? = some (ev.defer due) ∧
        Normal due ∧ due.total ≤ e.clock r.1.clocks + recordIntervalMs

theorem deleted_id (te : TimeEvent Handler (Client C)) (h : OfRecordRate te) :
    te.id ≠ aeDeletedEventId := by
  rw [h.id]
  decide

/-- The oldest event is not touched when another is removed. -/
theorem removed_looping (e : Setting C) (s : State Handler (Client C))
    (ev : TimeEvent Handler (Client C)) (hev : OfRecordRate ev) (n : Nat)
    (t : State Handler (Client C)) (k : Nat) (te : TimeEvent Handler (Client C)) (ht : Sound t)
    (hte : t.loop.timeEvents[n]? = some te) (hdel : te.id = aeDeletedEventId)
    (h : Looping e s ev (n + 1) (t, k)) :
    Looping e s ev n (removeTimer e.env (some (n + 1)) n te t, k) := by
  have hhead : t.loop.timeEvents[0]? = some ev := h.here (Nat.succ_pos n)
  have hn : n ≠ 0 := by
    intro hn
    rw [hn, hhead, Option.some.injEq] at hte
    exact deleted_id ev hev (hte ▸ hdel)
  rcases removeTimer_cases e.env n te t (setting_quiet e) ht hte with
    ⟨t', ⟨a, b, hl, hlen, rfl⟩, hres, _, _, _⟩
  have hhead' : (a ++ b)[0]? = some ev := by
    have hpos : 0 < a.length := Nat.lt_of_lt_of_eq (Nat.pos_of_ne_zero hn) hlen.symm
    rw [hl, List.getElem?_append_left hpos] at hhead
    exact (List.getElem?_append_left hpos).trans hhead
  have hsmall : ∀ x ∈ a ++ b, x.due.ms < 1000 := by
    intro x hx
    refine h.small x ?_
    rw [hl]
    exact (List.Sublist.append_left (List.sublist_cons_self te b) a).subset hx
  rcases hres with hres | ⟨f, hres⟩
  · rw [hres]
    exact ⟨hsmall, h.clocks, h.invocations, h.stop, h.cause, fun _ => hhead', fun h0 => absurd h0 hn⟩
  · have hgrows := invoke_grows e (.finalizer f te.clientData)
      { t with loop := { t.loop with timeEvents := a ++ b } }
    rcases hgrows.list with ⟨more, hmore, hms⟩
    rw [hres]
    refine ⟨fun x hx => ?_, Nat.le_trans h.clocks hgrows.clocks,
      Nat.le_trans h.invocations (Nat.le_of_lt hgrows.invocations), fun hs => hgrows.stop (h.stop hs),
      fun hs => (hgrows.cause hs).elim (fun hs => (h.cause hs).imp_right
        (caused_mono e (Nat.le_of_lt hgrows.invocations))) Or.inr,
      fun _ => ?_, fun h0 => absurd h0 hn⟩
    · simp only [hmore] at hx
      exact (List.mem_append.mp hx).elim (hsmall x) (hms x)
    · simp only [hmore]
      exact (List.getElem?_append_left (List.getElem?_eq_some_iff.mp hhead').1).trans hhead'

/-- What a call leaves of the events before the one it is for, and of all
    their times. -/
theorem fireTimer_grows (e : Setting C) (n : Nat) (te : TimeEvent Handler (Client C)) (now : When)
    (t : State Handler (Client C)) (hte : t.loop.timeEvents[n]? = some te)
    (hsmall : ∀ x ∈ t.loop.timeEvents, x.due.ms < 1000) :
    ∃ x, (x = te.deleted ∨ ∃ due, x = te.defer due ∧ due.ms < 1000) ∧
      (fireTimer e.env n te now t).loop.timeEvents[n]? = some x ∧
      (∀ m, m ≠ n → m < t.loop.timeEvents.length →
        (fireTimer e.env n te now t).loop.timeEvents[m]? = t.loop.timeEvents[m]?) ∧
      (∀ y ∈ (fireTimer e.env n te now t).loop.timeEvents, y.due.ms < 1000) := by
  rcases fireTimer_cases e.env n te now t hte with ⟨after, u, hu, hget, _, hcases⟩
  have hgrows := invoke_grows e (.time te.timeProc te.id te.clientData)
    (t.note (.timeCalled te.id te.timeProc te.clientData now))
  rw [← hu] at hgrows
  rcases hgrows.list with ⟨more, hmore, hms⟩
  have hn := (List.getElem?_eq_some_iff.mp hte).1
  have hsame : ∀ m, m < t.loop.timeEvents.length →
      u.loop.timeEvents[m]? = t.loop.timeEvents[m]? := by
    intro m hm
    rw [hmore]
    exact List.getElem?_append_left hm
  -- The list only grows, so the handler has not deleted the event.
  have hafter : after = te := by
    rw [hsame n hn, hte, Option.some.injEq] at hget
    exact hget.symm
  have husmall : ∀ y ∈ u.loop.timeEvents, y.due.ms < 1000 := by
    intro y hy
    rw [hmore] at hy
    exact (List.mem_append.mp hy).elim (hsmall y) (hms y)
  have hset : ∀ x : TimeEvent Handler (Client C), x.due.ms < 1000 →
      (u.loop.timeEvents.set n x)[n]? = some x ∧
      (∀ m, m ≠ n → m < t.loop.timeEvents.length →
        (u.loop.timeEvents.set n x)[m]? = t.loop.timeEvents[m]?) ∧
      ∀ y ∈ u.loop.timeEvents.set n x, y.due.ms < 1000 := by
    intro x hx
    refine ⟨List.getElem?_set_self (List.getElem?_eq_some_iff.mp hget).1, fun m hmn hm => ?_,
      fun y hy => ?_⟩
    · rw [List.getElem?_set_ne (Ne.symm hmn)]
      exact hsame m hm
    · exact (List.mem_or_eq_of_mem_set hy).elim (husmall y) (fun heq => heq ▸ hx)
  rcases hcases with ⟨due, hdue, _, heq⟩ | ⟨_, heq⟩
  · rw [heq, hafter]
    have hms : due.ms < 1000 := by
      rw [hdue]
      exact (aeAddMillisecondsToNow_spec e.env _ u).2.1
    exact ⟨te.defer due, Or.inr ⟨due, rfl, hms⟩, hset (te.defer due) hms⟩
  · rw [heq, hafter]
    exact ⟨te.deleted, Or.inl rfl, hset te.deleted (hsmall te (List.mem_of_getElem? hte))⟩

/-- What a call leaves of the counters and of `stop`. -/
theorem fireTimer_counts (e : Setting C) (n : Nat) (te : TimeEvent Handler (Client C)) (now : When)
    (t : State Handler (Client C)) (hte : t.loop.timeEvents[n]? = some te) :
    t.clocks ≤ (fireTimer e.env n te now t).clocks ∧
      t.invocations < (fireTimer e.env n te now t).invocations ∧
      (t.loop.stop = true → (fireTimer e.env n te now t).loop.stop = true) ∧
      ((fireTimer e.env n te now t).loop.stop = true →
        t.loop.stop = true ∨ Caused e (fireTimer e.env n te now t)) := by
  rcases fireTimer_cases e.env n te now t hte with ⟨after, u, hu, hget, _, hcases⟩
  have hgrows := invoke_grows e (.time te.timeProc te.id te.clientData)
    (t.note (.timeCalled te.id te.timeProc te.clientData now))
  rw [← hu] at hgrows
  rcases hcases with ⟨due, _, _, heq⟩ | ⟨_, heq⟩
  · rw [heq]
    exact ⟨Nat.le_succ_of_le hgrows.clocks, hgrows.invocations, hgrows.stop, hgrows.cause⟩
  · rw [heq]
    exact ⟨hgrows.clocks, hgrows.invocations, hgrows.stop, hgrows.cause⟩

/-- A call of `record_rate` schedules it again, and stops the loop if it finds
    `stop` set. -/
theorem fireTimer_recordRate (e : Setting C) (ev : TimeEvent Handler (Client C))
    (hev : OfRecordRate ev) (now : When) (t : State Handler (Client C))
    (hte : t.loop.timeEvents[0]? = some ev) :
    (e.stop t.invocations = true → (fireTimer e.env 0 ev now t).loop.stop = true) ∧
      ∃ due, (fireTimer e.env 0 ev now t).loop.timeEvents[0]? = some (ev.defer due) ∧
        Normal due ∧
        due.total = e.clock ((fireTimer e.env 0 ev now t).clocks - 1) + recordIntervalMs := by
  rcases fireTimer_cases e.env 0 ev now t hte with ⟨after, u, hu, hget, _, hcases⟩
  have hcall := invoke_recordRate e ev.id ev.clientData
    (t.note (.timeCalled ev.id ev.timeProc ev.clientData now))
  rw [← hev.timeProc, ← hu] at hcall
  rcases hcall with ⟨hlist, _, _, hstop⟩
  have hafter : after = ev := by
    rw [hlist] at hget
    exact Option.some.inj (hget.symm.trans hte)
  have hret : e.env.returns t.invocations (.time ev.timeProc ev.id ev.clientData) =
      recordIntervalMs := by
    rw [hev.timeProc]
    rfl
  rcases hcases with ⟨due, hdue, _, heq⟩ | ⟨hno, _⟩
  · rw [hret] at hdue
    have hspec := aeAddMillisecondsToNow_spec e.env recordIntervalMs u
    rw [← hdue] at hspec
    rw [heq, hafter]
    refine ⟨fun h => ?_, due, List.getElem?_set_self (List.getElem?_eq_some_iff.mp hget).1,
      hspec.2.2 (by decide), hspec.1⟩
    refine hstop.trans ?_
    rw [Bool.or_eq_true]
    exact Or.inr h
  · rw [hret] at hno
    exact absurd hno (by decide)

theorem visit_looping (e : Setting C) (hclock : Monotone e.clock) (s : State Handler (Client C))
    (ev : TimeEvent Handler (Client C)) (hev : OfRecordRate ev) (n : Nat)
    (r r' : State Handler (Client C) × Nat) (hr : Sound r.1) (h : Looping e s ev (n + 1) r)
    (hvisit : Visit e.env n r r') : Looping e s ev n r' := by
  have hhead : r.1.loop.timeEvents[0]? = some ev := h.here (Nat.succ_pos n)
  cases hvisit with
  | removed t k te hte hdel => exact removed_looping e s ev hev n t k te hr hte hdel h
  | waiting t k te hte hlive hdue =>
      refine ⟨h.small, Nat.le_succ_of_le h.clocks, h.invocations, h.stop, h.cause,
        fun _ => hhead, fun hn => Or.inl ⟨hhead, fun hreached => hdue ?_⟩⟩
      have hte' : te = ev := by
        rw [hn] at hte
        exact Option.some.inj (hte.symm.trans hhead)
      rw [hte']
      exact reached_mono ev.due (hclock h.clocks) hreached
  | fired t k te hte hlive hdue =>
      have hcounts := fireTimer_counts e n te (aeGetTime e.env t).1 (aeGetTime e.env t).2 hte
      rcases fireTimer_grows e n te (aeGetTime e.env t).1 (aeGetTime e.env t).2 hte h.small with
        ⟨x, _, _, hothers, hsmall⟩
      refine ⟨hsmall, Nat.le_trans (Nat.le_succ_of_le h.clocks) hcounts.1,
        Nat.le_trans h.invocations (Nat.le_of_lt hcounts.2.1), fun hs => hcounts.2.2.1 (h.stop hs),
        fun hs => (hcounts.2.2.2 hs).elim (fun hs => (h.cause hs).imp_right
          (caused_mono e (Nat.le_of_lt hcounts.2.1))) Or.inr,
        fun hn => ?_, fun hn => Or.inr ?_⟩
      · exact (hothers 0 (Nat.ne_of_lt hn) (List.getElem?_eq_some_iff.mp hhead).1).trans hhead
      · rw [hn] at hte hcounts ⊢
        have hte' : te = ev := Option.some.inj (hte.symm.trans hhead)
        rw [hte'] at hcounts ⊢
        rcases fireTimer_recordRate e ev hev (aeGetTime e.env t).1 (aeGetTime e.env t).2 hhead with
          ⟨hstop, due, hget, hnormal, htotal⟩
        refine ⟨t.invocations, due, h.invocations, hcounts.2.1, hstop, hget, hnormal, ?_⟩
        rw [htotal]
        exact Int.add_le_add_right (Int.ofNat_le.mpr (hclock (Nat.sub_le _ 1))) _

end Ae

end Wrk
