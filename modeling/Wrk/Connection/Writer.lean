import Wrk.Connection.Events
import Wrk.Connection.Record
import Mathlib.Logic.Relation

/-!
# The Writing Side

What a connection does with its requests does not depend on what its parser
has read, except that a response may complete at any time while the
connection is up. This file is the connection with everything else left out:
where it stands with its descriptor, whether `socket_writeable` is
registered, the batch being written, the responses pending and the number of
delay timers.

A move is what one handler does to that. `Move` lets a response complete on
any connection that is up, with any status, and lets any connection be
closed. Every event of a connection is a sequence of moves, so that an
invariant of the moves is an invariant of the connection, whatever bytes the
server sends and however they are split.

## Main definitions

* `Mode`: Where a connection stands with its descriptor.
* `Writer`: The writing side, and `Conn.writer`, which forgets the rest.
* `Move`: What a handler does to it.
* `Standing`: What the record says of the descriptor.

## Theorems

* `countResponse_writer`, `socketConnected_writer`, `createDelay_writer`,
  `delayRequest_writer`: What the handlers do to the writing side.
* `countResponse_moves`, `reconnectSocket_moves`, `socketWriteable_moves`,
  `socketConnected_moves`, `delayRequest_moves`: The handlers are moves.
* `run_moves`: A run is a sequence of moves.
* `standing_move`: Every move keeps what the record says of the descriptor.
* `moves_invariant`, `run_writer_invariant`: What every move keeps, every run
  keeps.
* `step_moves`: One event is a sequence of moves.
* `moves_invariant_of_log`, `run_writer_invariant_of_log`: The same, under a
  condition on the record.
-/

namespace Wrk

open HttpParser Relation

/-- No descriptor, a descriptor on which `socket_connected` has yet to
    succeed, or an established connection. -/
inductive Mode where
  | closed
  | connecting
  | up
  deriving DecidableEq, Repr

/-- The writing side of a connection. -/
structure Writer where
  mode : Mode
  armed : Bool
  fd : Nat
  connects : Nat
  delayed : Bool
  timers : Nat
  request : Bytes
  written : Nat
  pending : Nat
  log : List Obs

/-- Where a connection stands. -/
def Conn.mode (c : Conn) : Mode :=
  if c.up then .up else if c.fdOpen then .connecting else .closed

/-- The writing side of a connection. -/
def Conn.writer (c : Conn) : Writer :=
  { mode := c.mode
    armed := decide (c.writable = some .socketWriteable)
    fd := c.fd
    connects := c.connects
    delayed := c.delayed
    timers := c.timers.length
    request := c.request
    written := c.written
    pending := c.pending
    log := c.log }

namespace Writer

/-- Record something. -/
def note (wr : Writer) (o : Obs) : Writer := { wr with log := o :: wr.log }

/-- The descriptor is closed. -/
def close (state : FieldState) (headers body : Nat) (wr : Writer) : Writer :=
  { wr with
    mode := .closed
    armed := false
    log := .closed wr.fd wr.timers state headers body :: wr.log }

/-- The next descriptor is opened. -/
def opened (wr : Writer) : Writer :=
  { wr with
    mode := .connecting
    armed := false
    fd := wr.connects
    connects := wr.connects + 1
    log := .opened wr.connects :: wr.log }

/-- An attempt to open one fails. -/
def failed (wr : Writer) : Writer := { wr with connects := wr.connects + 1 }

/-- The connection is established. -/
def established (wr : Writer) : Writer :=
  { wr with
    mode := .up
    armed := true
    written := 0
    log := .connected wr.fd :: wr.log }

/-- A response completes; `told` is what the script hears of it. -/
def completed (status : Nat) (told : List Obs) (wr : Writer) : Writer :=
  { wr with
    pending := sub64 wr.pending 1
    log := told ++ .complete wr.fd status wr.pending wr.timers :: wr.log }

/-- What follows when no response of the batch is left. -/
def batchDone (cfg : Config) (latency accepted : Nat) (wr : Writer) : Writer :=
  { wr with
    armed := true
    delayed := cfg.delay
    log := .recorded latency accepted :: wr.log }

/-- A timer is created instead of a batch. -/
def delay (ms : Nat) (wr : Writer) : Writer :=
  { wr with
    armed := false
    timers := wr.timers + 1
    log := .delayed ms :: wr.log }

/-- A batch is begun, unless one is being written. -/
def offer (cfg : Config) (text : Bytes) (wr : Writer) : Writer :=
  if wr.written = 0 then
    { wr with
      request := text
      pending := cfg.pipeline
      log := .batch wr.fd text :: wr.log }
  else wr

/-- The last bytes of a batch are accepted. -/
def acceptAll (wr : Writer) : Writer :=
  { wr with
    armed := false
    written := 0
    log :=
      .finished wr.fd wr.pending wr.timers ::
        .accepted wr.fd wr.written (wr.request.drop wr.written) :: wr.log }

/-- How many bytes are accepted when the transport would take so many more
    than one. -/
def room (more : Nat) (wr : Writer) : Nat := min (more + 1) (wr.request.length - wr.written)

/-- Some bytes of a batch are accepted, but not the last. -/
def acceptSome (n : Nat) (wr : Writer) : Writer :=
  { wr with
    written := wr.written + n
    log := .accepted wr.fd wr.written ((wr.request.drop wr.written).take n) :: wr.log }

/-- A timer fires. It registers `socket_writeable` for the descriptor, if
    there is one. -/
def fire (wr : Writer) : Writer :=
  { wr with
    armed := wr.mode ≠ .closed || wr.armed
    delayed := false
    timers := wr.timers - 1 }

/-- The writing side before the first attempt to connect. -/
def zero (cfg : Config) : Writer := (Conn.zero cfg).writer

end Writer

/-- A text that `socket_writeable` may begin to write: the static request, or
    one that the script returns. -/
def Offered (cfg : Config) (env : Env) (wr : Writer) (text : Bytes) : Prop :=
  if cfg.dynamic then ∃ i, text = env.request i else text = wr.request

/-- What a handler does to the writing side. -/
inductive Move (cfg : Config) (env : Env) : Writer → Writer → Prop where
  | hear (wr : Writer) (o : Obs) (ho : o.heard = true) : Move cfg env wr (wr.note o)
  | complete (wr : Writer) (status : Nat) (told : List Obs) (hmode : wr.mode = .up)
      (htold : ∀ o ∈ told, o.heard = true) (hp : sub64 wr.pending 1 ≠ 0) :
      Move cfg env wr (wr.completed status told)
  | completeLast (wr : Writer) (status : Nat) (told : List Obs) (latency accepted : Nat)
      (hmode : wr.mode = .up) (htold : ∀ o ∈ told, o.heard = true)
      (hp : sub64 wr.pending 1 = 0) :
      Move cfg env wr ((wr.completed status told).batchDone cfg latency accepted)
  | close (wr : Writer) (state : FieldState) (headers body : Nat) :
      Move cfg env wr (wr.close state headers body)
  | opened (wr : Writer) (hmode : wr.mode = .closed) (hc : env.connect wr.connects = .ok) :
      Move cfg env wr wr.opened
  | failed (wr : Writer) (hmode : wr.mode = .closed) (hc : env.connect wr.connects ≠ .ok) :
      Move cfg env wr wr.failed
  | established (wr : Writer) (hmode : wr.mode = .connecting) : Move cfg env wr wr.established
  | delay (wr : Writer) (ms : Nat) (ha : wr.armed = true) (hd : wr.delayed = true) :
      Move cfg env wr (wr.delay ms)
  | offer (wr : Writer) (text : Bytes) (ha : wr.armed = true) (hd : wr.delayed = false)
      (ht : Offered cfg env wr text) : Move cfg env wr (wr.offer cfg text)
  | acceptAll (wr : Writer) (text : Bytes) (ha : wr.armed = true) (hd : wr.delayed = false)
      (ht : Offered cfg env wr text) : Move cfg env wr (wr.offer cfg text).acceptAll
  | acceptSome (wr : Writer) (text : Bytes) (more : Nat) (ha : wr.armed = true)
      (hd : wr.delayed = false) (ht : Offered cfg env wr text)
      (hn : (wr.offer cfg text).written + (wr.offer cfg text).room more
        ≠ (wr.offer cfg text).request.length) :
      Move cfg env wr ((wr.offer cfg text).acceptSome ((wr.offer cfg text).room more))
  | fire (wr : Writer) (ht : 0 < wr.timers) : Move cfg env wr wr.fire

/-- Moves one after another. -/
def Moves (cfg : Config) (env : Env) : Writer → Writer → Prop := ReflTransGen (Move cfg env)

/-! ### The handlers -/

theorem mode_congr (c d : Conn) (h : d.registration = c.registration) : d.mode = c.mode := by
  have hup := up_congr c d h
  simp only [Conn.registration, Prod.mk.injEq] at h
  simp only [Conn.mode, h.1, hup]

theorem mode_up (c : Conn) : c.mode = .up ↔ c.up := by
  unfold Conn.mode
  by_cases hup : c.up
  · simp only [hup, if_true]
  · by_cases hopen : c.fdOpen = true
    · simp only [hup, if_false, hopen, if_true, reduceCtorEq]
    · simp only [hup, if_false, hopen, Bool.false_eq_true, reduceCtorEq]

theorem mode_connecting (c : Conn) (hdown : ¬ c.up) (hopen : c.fdOpen = true) :
    c.mode = .connecting := by
  simp only [Conn.mode, hdown, if_false, hopen, if_true]

/-- A change that leaves the writing side alone apart from the record. -/
theorem writer_congr (c d : Conn) (h : d.registration = c.registration) (hfd : d.fd = c.fd)
    (hconnects : d.connects = c.connects) (hdelayed : d.delayed = c.delayed)
    (htimers : d.timers = c.timers) (hrequest : d.request = c.request)
    (hwritten : d.written = c.written) (hpending : d.pending = c.pending) :
    d.writer = { c.writer with log := d.log } := by
  have hmode := mode_congr c d h
  simp only [Conn.registration, Prod.mk.injEq] at h
  simp only [Conn.writer, hmode, h.2.2, hfd, hconnects, hdelayed, htimers, hrequest, hwritten,
    hpending]

/-- Recording what was heard, one entry or several. -/
theorem hear_moves (cfg : Config) (env : Env) (wr : Writer) (pre : List Obs)
    (hpre : ∀ o ∈ pre, o.heard = true) : Moves cfg env wr { wr with log := pre ++ wr.log } := by
  induction pre with
  | nil => exact ReflTransGen.refl
  | cons o pre ih =>
      have hrest := ih (fun p hp => hpre p (List.mem_cons_of_mem o hp))
      exact hrest.tail (Move.hear _ o (hpre o List.mem_cons_self))

theorem note_moves (cfg : Config) (env : Env) (wr : Writer) (o : Obs) (ho : o.heard = true) :
    Moves cfg env wr (wr.note o) :=
  ReflTransGen.single (Move.hear wr o ho)

theorem headerField_moves (cfg : Config) (env : Env) (d : Bytes) (w : World) :
    Moves cfg env w.c.writer (headerField env d w).c.writer := by
  rw [writer_congr w.c _ (headerField_registration env d w) rfl rfl rfl rfl rfl rfl rfl]
  exact note_moves cfg env w.c.writer _ rfl

theorem headerValue_moves (cfg : Config) (env : Env) (d : Bytes) (w : World) :
    Moves cfg env w.c.writer (headerValue env d w).c.writer := by
  rw [writer_congr w.c _ (headerValue_registration env d w) rfl rfl rfl rfl rfl rfl rfl]
  exact note_moves cfg env w.c.writer _ rfl

theorem responseBody_moves (cfg : Config) (env : Env) (d : Bytes) (w : World) :
    Moves cfg env w.c.writer (responseBody env d w).c.writer := by
  rw [writer_congr w.c _ (responseBody_registration env d w) rfl rfl rfl rfl rfl rfl rfl]
  exact note_moves cfg env w.c.writer _ rfl

/-- What the script is told of a response is only recorded. -/
theorem tellScript_writer (status : Nat) (w : World) :
    ∃ told, (∀ o ∈ told, Obs.heard o = true) ∧
      (tellScript status w).c.writer = { w.c.writer with log := told ++ w.c.log } := by
  have hsame := tellScript_registration status w
  -- The script is only told of a response that had headers.
  by_cases h : w.c.headers.isSome = true
  · refine ⟨[.response status (pushNul w.c.headers).table w.c.body.content], fun o ho => ?_, ?_⟩
    · rw [List.mem_singleton.mp ho]
      rfl
    · have hc : (tellScript status w).c =
          { w.c with
            headers := bufferReset (pushNul w.c.headers)
            body := bufferReset w.c.body
            state := .field
            log := .response status (pushNul w.c.headers).table w.c.body.content :: w.c.log } := by
        simp only [tellScript, h, if_true, scriptResponse, World.note]
      rw [hc]
      exact writer_congr w.c _ (by rw [← hc, hsame]) rfl rfl rfl rfl rfl rfl rfl
  · refine ⟨[], fun o ho => absurd ho List.not_mem_nil, ?_⟩
    simp only [tellScript, h, Bool.false_eq_true, if_false, List.nil_append]
    rfl

theorem countComplete_writer (env : Env) (status : Nat) (w : World) :
    (countComplete status (timeUs env w).2).c.writer =
      { w.c.writer with
        log := .complete w.c.fd status w.c.pending w.c.timers.length :: w.c.log } :=
  writer_congr w.c _ (by rw [countComplete_registration, timeUs_registration])
    rfl rfl rfl rfl rfl rfl rfl

theorem dropPending_writer (w : World) :
    (dropPending w).c.writer = { w.c.writer with pending := sub64 w.c.pending 1 } :=
  rfl

/-- Arming the writing handler on an open descriptor. -/
theorem createWritable_writer (w : World) (hopen : w.c.fdOpen = true) :
    (createWritable w .socketWriteable).c.writer = { w.c.writer with armed := true } := by
  simp only [createWritable, hopen, if_true, Conn.writer, Conn.mode, Conn.up, decide_true]

theorem batchDone_writer (cfg : Config) (now : Nat) (w : World) (hopen : w.c.fdOpen = true) :
    (batchDone cfg now w).c.writer =
      w.c.writer.batchDone cfg (sub64 now w.c.start)
        (statsRecord w.thread.latency (sub64 now w.c.start)).2 := by
  unfold batchDone
  dsimp only
  rw [createWritable_writer _ (by exact hopen)]
  rfl

/-- Completing a response, and what follows when it was the last. -/
theorem countResponse_writer (cfg : Config) (env : Env) (status : Nat) (w : World)
    (hup : w.c.up) (hreg : Registered w.c) :
    ∃ told latency accepted, (∀ o ∈ told, Obs.heard o = true) ∧
      (countResponse cfg env status w).c.writer =
        if sub64 w.c.pending 1 = 0 then
          (w.c.writer.completed status told).batchDone cfg latency accepted
        else w.c.writer.completed status told := by
  have hopen : w.c.fdOpen = true := hreg.fdOpen (Or.inl (by rw [hup]; exact Option.some_ne_none _))
  rcases tellScript_writer status (countComplete status (timeUs env w).2) with ⟨told, htold, ht⟩
  unfold countResponse
  generalize hv : tellScript status (countComplete status (timeUs env w).2) = v at ht
  have hvr : v.c.registration = w.c.registration := by
    rw [← hv, tellScript_registration, countComplete_registration, timeUs_registration]
  have hvopen : (dropPending v).c.fdOpen = true := by
    have h := dropPending_registration v
    rw [hvr] at h
    simp only [Conn.registration, Prod.mk.injEq] at h
    rw [h.1]
    exact hopen
  -- The state just before the last test.
  have hd : (dropPending v).c.writer = w.c.writer.completed status told := by
    have hp : v.c.pending = w.c.pending := by
      have h := congrArg Writer.pending ht
      rw [countComplete_writer] at h
      exact h
    rw [dropPending_writer, ht, countComplete_writer, hp]
    rfl
  have hpending : (dropPending v).c.pending = sub64 w.c.pending 1 := congrArg Writer.pending hd
  unfold lastResponse
  by_cases hp : sub64 w.c.pending 1 = 0
  · rw [if_pos (by rw [hpending, hp]), batchDone_writer cfg _ _ hvopen, hd]
    exact ⟨told, _, _, htold, (if_pos hp).symm⟩
  · rw [if_neg (by rw [hpending]; exact hp), hd]
    exact ⟨told, 0, 0, htold, (if_neg hp).symm⟩

/-- Completing a response is a move. -/
theorem countResponse_moves (cfg : Config) (env : Env) (status : Nat) (w : World)
    (hup : w.c.up) (hreg : Registered w.c) :
    Moves cfg env w.c.writer (countResponse cfg env status w).c.writer := by
  have hmode : w.c.writer.mode = .up := (mode_up w.c).mpr hup
  rcases countResponse_writer cfg env status w hup hreg with ⟨told, latency, accepted, htold, h⟩
  rw [h]
  by_cases hp : sub64 w.c.pending 1 = 0
  · rw [if_pos hp]
    exact ReflTransGen.single
      (Move.completeLast w.c.writer status told latency accepted hmode htold hp)
  · rw [if_neg hp]
    exact ReflTransGen.single (Move.complete w.c.writer status told hmode htold hp)

theorem closeSocket_writer (w : World) :
    (closeSocket w).c.writer =
      w.c.writer.close w.c.state w.c.headers.cursor w.c.body.cursor := by
  simp only [closeSocket, World.note, Conn.writer, Conn.mode, Conn.up, Writer.close,
    reduceCtorEq, if_false, Bool.false_eq_true, decide_false]

theorem connectSocket_moves (cfg : Config) (env : Env) (w : World) (hclosed : w.c.mode = .closed) :
    Moves cfg env w.c.writer (connectSocket env w).c.writer := by
  rcases connectSocket_cases env w with ⟨hok, hc⟩ | ⟨hno, pre, hpre, hc⟩
  · rw [hc]
    -- The options of the transport are set on the way.
    exact (note_moves cfg env w.c.writer .sslSetOptions rfl).tail
      (Move.opened (w.c.writer.note .sslSetOptions) hclosed hok)
  · rw [hc]
    have hheard : ∀ o ∈ pre, Obs.heard o = true := by
      intro o ho
      rw [hpre o ho]
      rfl
    exact (hear_moves cfg env w.c.writer pre hheard).tail
      (Move.failed { w.c.writer with log := pre ++ w.c.log } hclosed hno)

theorem reconnectSocket_moves (cfg : Config) (env : Env) (w : World) :
    Moves cfg env w.c.writer (reconnectSocket env w).c.writer := by
  have hmode : (closeSocket w).c.mode = .closed := congrArg Writer.mode (closeSocket_writer w)
  have hclose : Move cfg env w.c.writer (closeSocket w).c.writer := by
    rw [closeSocket_writer]
    exact Move.close w.c.writer w.c.state w.c.headers.cursor w.c.body.cursor
  exact ReflTransGen.head hclose (connectSocket_moves cfg env (closeSocket w) hmode)

theorem socketConnected_writer (env : Env) (w : World) (hopen : w.c.fdOpen = true) :
    (socketConnected env .ok w).c.writer = w.c.writer.established := by
  simp only [socketConnected, createReadable, createWritable, World.setParser, World.note,
    hopen, if_true, Conn.writer, Conn.mode, Conn.up, Writer.established, decide_true]

theorem socketConnected_moves (cfg : Config) (env : Env) (w : World) (hdown : ¬ w.c.up)
    (hopen : w.c.fdOpen = true) :
    Moves cfg env w.c.writer (socketConnected env .ok w).c.writer := by
  rw [socketConnected_writer env w hopen]
  exact ReflTransGen.single (Move.established w.c.writer (mode_connecting w.c hdown hopen))

/-- A timer fires. -/
theorem delayRequest_writer (i : Nat) (w : World) (hreg : Registered w.c)
    (hi : i < w.c.timers.length) : (delayRequest w i).c.writer = w.c.writer.fire := by
  unfold delayRequest Writer.fire
  by_cases hopen : w.c.fdOpen = true
  · have hmode : w.c.writer.mode ≠ .closed := by
      simp only [Conn.writer, Conn.mode, hopen, if_true]
      split_ifs
      · exact Mode.noConfusion
      · exact Mode.noConfusion
    rw [createWritable_writer _ (by exact hopen)]
    simp only [hmode, ne_eq, not_false_eq_true, decide_true, Bool.true_or]
    simp only [Conn.writer, List.length_eraseIdx_of_lt hi, Conn.mode, Conn.up]
    rfl
  · -- Nothing is registered for a descriptor that is not open.
    have hnone : w.c.readable = none ∧ w.c.writable = none := by
      refine ⟨?_, ?_⟩
      · by_contra hr
        exact hopen (hreg.fdOpen (Or.inl hr))
      · by_contra hw
        exact hopen (hreg.fdOpen (Or.inr hw))
    simp only [createWritable, hopen, if_false, Bool.false_eq_true, Conn.writer, Conn.mode,
      Conn.up, hnone.1, hnone.2, reduceCtorEq, List.length_eraseIdx_of_lt hi, ne_eq,
      not_true_eq_false, decide_false, Bool.or_self]

theorem delayRequest_moves (cfg : Config) (env : Env) (i : Nat) (w : World)
    (hreg : Registered w.c) (hi : i < w.c.timers.length) :
    Moves cfg env w.c.writer (delayRequest w i).c.writer := by
  rw [delayRequest_writer i w hreg hi]
  exact ReflTransGen.single (Move.fire w.c.writer (by exact Nat.zero_lt_of_lt hi))

theorem offering_writer (cfg : Config) (env : Env) (w : World) :
    ∃ text, Offered cfg env w.c.writer text ∧
      (offering cfg env w).c.writer = w.c.writer.offer cfg text := by
  have hsame := (offering_registration cfg env w).1
  unfold offering at hsame ⊢
  by_cases hw : w.c.written = 0
  · rw [if_pos hw] at hsame ⊢
    have hmode := mode_congr _ _ hsame
    by_cases hd : cfg.dynamic = true
    · refine ⟨env.request w.c.requests, ?_, ?_⟩
      · rw [Offered, if_pos hd]
        exact ⟨_, rfl⟩
      · rw [Writer.offer, if_pos (by exact hw)]
        simp only [startBatch, hd, if_true, timeUs, World.note, Conn.writer] at hmode ⊢
        rfl
    · refine ⟨w.c.request, ?_, ?_⟩
      · rw [Offered, if_neg hd]
        rfl
      · rw [Writer.offer, if_pos (by exact hw)]
        simp only [startBatch, hd, if_false, Bool.false_eq_true, timeUs, World.note, Conn.writer]
        rfl
  · rw [if_neg hw]
    -- The batch being written is not looked at again.
    refine ⟨if cfg.dynamic then env.request 0 else w.c.request, ?_, ?_⟩
    · by_cases hd : cfg.dynamic = true
      · simp only [Offered, hd, if_true]
        exact ⟨0, rfl⟩
      · simp only [Offered, hd, if_false, Bool.false_eq_true]
        rfl
    · rw [Writer.offer, if_neg (by exact hw)]

/-- Accepting bytes, as moves. -/
theorem acceptBytes_writer (more : Nat) (w : World) :
    (acceptBytes (min (more + 1) (w.c.request.length - w.c.written)) w).c.writer =
        w.c.writer.acceptAll ∨
      (w.c.writer.written + w.c.writer.room more ≠ w.c.writer.request.length ∧
        (acceptBytes (min (more + 1) (w.c.request.length - w.c.written)) w).c.writer =
          w.c.writer.acceptSome (w.c.writer.room more)) := by
  rcases acceptBytes_cases (min (more + 1) (w.c.request.length - w.c.written)) w with
    ⟨hall, _, hc⟩ | ⟨hsome, _, hc⟩
  · refine Or.inl ?_
    -- All that is left was taken.
    have hdata : (w.c.request.drop w.c.written).take
        (min (more + 1) (w.c.request.length - w.c.written)) = w.c.request.drop w.c.written := by
      refine List.take_of_length_le ?_
      rw [List.length_drop]
      omega
    rw [hc, hdata]
    simp only [Conn.writer, Writer.acceptAll, reduceCtorEq, decide_false, Conn.mode, Conn.up]
    rfl
  · refine Or.inr ⟨hsome, ?_⟩
    rw [hc]
    rfl

theorem createDelay_writer (env : Env) (w : World) :
    (createDelay env w).c.writer = w.c.writer.delay (env.delay w.c.delays) := by
  simp only [createDelay, World.note, Conn.writer, Writer.delay, reduceCtorEq, decide_false,
    List.length_append, List.length_singleton, Conn.mode, Conn.up]
  rfl

theorem socketWriteable_moves (cfg : Config) (env : Env) (r : WriteResult) (w : World)
    (hw : w.c.writable = some .socketWriteable) :
    Moves cfg env w.c.writer (socketWriteable cfg env r w).c.writer := by
  have ha : w.c.writer.armed = true := by simp only [Conn.writer, hw, decide_true]
  rcases offering_writer cfg env w with ⟨text, ht, ho⟩
  -- One move for each way through the handler, two if it fails after an offer.
  rcases socketWriteable_cases cfg env r w with ⟨hd, h⟩ | ⟨hd, ⟨_, h⟩ | ⟨_, h⟩ | ⟨more, _, h⟩⟩
  · rw [h, createDelay_writer]
    exact ReflTransGen.single (Move.delay w.c.writer (env.delay w.c.delays) ha hd)
  · rw [h, ho]
    exact ReflTransGen.single (Move.offer w.c.writer text ha hd ht)
  · rw [h]
    have hoffer : Move cfg env w.c.writer (offering cfg env w).c.writer := by
      rw [ho]
      exact Move.offer w.c.writer text ha hd ht
    exact ReflTransGen.head hoffer (reconnectSocket_moves cfg env (writeError (offering cfg env w)))
  · rw [h]
    rcases acceptBytes_writer more (offering cfg env w) with hacc | ⟨hne, hacc⟩
    · rw [hacc, ho]
      exact ReflTransGen.single (Move.acceptAll w.c.writer text ha hd ht)
    · rw [ho] at hne hacc
      rw [hacc]
      exact ReflTransGen.single (Move.acceptSome w.c.writer text more ha hd ht hne)

/-! ### Runs -/

/-- What the handlers keep, for the rule for events: the connection is
    reached by moves. -/
theorem keeps_moves (cfg : Config) (env : Env) (wr : Writer) :
    Keeps cfg env (fun _ w => Moves cfg env wr w.c.writer) (fun w => Moves cfg env wr w.c.writer) where
  counters _ _ _ _ _ h := h
  countersDown _ _ _ _ h := h
  parser _ _ _ h := h
  parserDown _ _ h := h
  field _ d w h := h.trans (headerField_moves cfg env d w)
  value _ d w _ h := h.trans (headerValue_moves cfg env d w)
  body _ d w h := h.trans (responseBody_moves cfg env d w)
  complete _ status w _ hup hreg h := h.trans (countResponse_moves cfg env status w hup hreg)
  close _ status w _ hup hreg h :=
    (h.trans (countResponse_moves cfg env status w hup hreg)).trans
      (reconnectSocket_moves cfg env _)
  reconnect _ w _ h := h.trans (reconnectSocket_moves cfg env w)
  reconnectDown w _ h := h.trans (reconnectSocket_moves cfg env w)
  connect w hdown hopen h := h.trans (socketConnected_moves cfg env w hdown hopen)
  write _ r w _ _ hw h _ := h.trans (socketWriteable_moves cfg env r w hw)
  writeError _ r w _ _ hw h _ := h.trans (socketWriteable_moves cfg env r w hw)
  writeDown r w _ _ hw h := h.trans (socketWriteable_moves cfg env r w hw)
  timer _ i w _ hreg hi h := h.trans (delayRequest_moves cfg env i w hreg hi)
  timerDown i w _ hreg hi h := h.trans (delayRequest_moves cfg env i w hreg hi)

/-- A run is a sequence of moves. -/
theorem run_moves (cfg : Config) (env : Env) (t : Thread) (as : List Act) (w : World)
    (hrun : Transition.run (step cfg env) (threadMain cfg env t) as = some w) :
    Moves cfg env (Writer.zero cfg) w.c.writer := by
  have h := run_holds cfg env _ _ (keeps_moves cfg env (Writer.zero cfg)) t
    (connectSocket_moves cfg env { thread := t, c := Conn.zero cfg } rfl) as w hrun
  by_cases hup : w.c.up
  · rcases h.up hup with ⟨_, _, hm⟩
    exact hm
  · exact h.down hup

/-- What the record says of the descriptor, and where writing can be armed. -/
structure Standing (wr : Writer) : Prop where
  log : established wr.log = if wr.mode = .up then some wr.fd else none
  armed : wr.armed = true → wr.mode ≠ .closed

theorem standing_zero (cfg : Config) : Standing (Writer.zero cfg) :=
  ⟨rfl, fun h => absurd h Bool.false_ne_true⟩

theorem standing_offer (cfg : Config) (wr : Writer) (text : Bytes) (h : Standing wr) :
    Standing (wr.offer cfg text) := by
  unfold Writer.offer
  by_cases hw : wr.written = 0
  · rw [if_pos hw]
    exact ⟨h.log, h.armed⟩
  · rw [if_neg hw]
    exact h

theorem standing_move (cfg : Config) (env : Env) (wr wr' : Writer) (h : Standing wr)
    (hm : Move cfg env wr wr') : Standing wr' := by
  cases hm with
  | hear o ho => exact ⟨(established_heard o wr.log ho).trans h.log, h.armed⟩
  | complete status told _ htold _ =>
      exact ⟨(append_skip established established_heard told _ htold).trans h.log, h.armed⟩
  -- The batch arms the descriptor again, which the connection still holds.
  | completeLast status told latency accepted hmode htold _ =>
      refine ⟨(append_skip established established_heard told _ htold).trans h.log, fun _ => ?_⟩
      change wr.mode ≠ .closed
      rw [hmode]
      exact Mode.noConfusion
  | close => exact ⟨rfl, fun ha => absurd ha Bool.false_ne_true⟩
  | opened hmode _ =>
      refine ⟨?_, fun ha => absurd ha Bool.false_ne_true⟩
      have hlog := h.log
      rw [if_neg (by rw [hmode]; exact Mode.noConfusion)] at hlog
      exact hlog
  | failed => exact ⟨h.log, h.armed⟩
  | established => exact ⟨rfl, fun _ => Mode.noConfusion⟩
  | delay => exact ⟨h.log, fun ha => absurd ha Bool.false_ne_true⟩
  | offer text => exact standing_offer cfg wr text h
  | acceptAll text =>
      exact ⟨(standing_offer cfg wr text h).log, fun ha => absurd ha Bool.false_ne_true⟩
  | acceptSome text more =>
      exact ⟨(standing_offer cfg wr text h).log, (standing_offer cfg wr text h).armed⟩
  | fire =>
      refine ⟨h.log, fun ha => ?_⟩
      simp only [Writer.fire, Bool.or_eq_true, decide_eq_true_eq] at ha
      exact ha.elim id h.armed

/-- What holds of the writing side at first and is kept by every move holds
    after any moves. -/
theorem moves_invariant (cfg : Config) (env : Env) (I : Writer → Prop)
    (hzero : I (Writer.zero cfg))
    (hmove : ∀ wr wr', Standing wr → I wr → Move cfg env wr wr' → I wr') (wr : Writer)
    (h : Moves cfg env (Writer.zero cfg) wr) : Standing wr ∧ I wr := by
  induction h with
  | refl => exact ⟨standing_zero cfg, hzero⟩
  | tail _ hlast ih =>
      exact ⟨standing_move cfg env _ _ ih.1 hlast, hmove _ _ ih.1 ih.2 hlast⟩

/-- The same in every run. -/
theorem run_writer_invariant (cfg : Config) (env : Env) (I : Writer → Prop)
    (hzero : I (Writer.zero cfg))
    (hmove : ∀ wr wr', Standing wr → I wr → Move cfg env wr wr' → I wr')
    (t : Thread) (as : List Act) (w : World)
    (hrun : Transition.run (step cfg env) (threadMain cfg env t) as = some w) :
    Standing w.c.writer ∧ I w.c.writer :=
  moves_invariant cfg env I hzero hmove _ (run_moves cfg env t as w hrun)

/-- A move only adds to the record. -/
theorem move_log (cfg : Config) (env : Env) (wr wr' : Writer) (h : Move cfg env wr wr') :
    ∃ pre, wr'.log = pre ++ wr.log := by
  have hoffer : ∀ text, ∃ pre, (wr.offer cfg text).log = pre ++ wr.log := by
    intro text
    unfold Writer.offer
    by_cases hw : wr.written = 0
    · rw [if_pos hw]
      exact ⟨[_], rfl⟩
    · rw [if_neg hw]
      exact ⟨[], rfl⟩
  cases h with
  | hear o ho => exact ⟨[o], rfl⟩
  | complete status told => exact ⟨told ++ [_], (List.append_assoc told [_] wr.log).symm⟩
  | completeLast status told latency accepted =>
      exact ⟨_ :: (told ++ [_]), congrArg _ (List.append_assoc told [_] wr.log).symm⟩
  | close => exact ⟨[_], rfl⟩
  | opened => exact ⟨[_], rfl⟩
  | failed => exact ⟨[], rfl⟩
  | established => exact ⟨[_], rfl⟩
  | delay => exact ⟨[_], rfl⟩
  | offer text => exact hoffer text
  | acceptAll text =>
      rcases hoffer text with ⟨pre, hpre⟩
      exact ⟨_ :: _ :: pre, congrArg (fun l => _ :: _ :: l) hpre⟩
  | acceptSome text more =>
      rcases hoffer text with ⟨pre, hpre⟩
      exact ⟨_ :: pre, congrArg (fun l => _ :: l) hpre⟩
  | fire => exact ⟨[], rfl⟩

/-- Several moves only add to the record. -/
theorem moves_log (cfg : Config) (env : Env) (wr wr' : Writer) (h : Moves cfg env wr wr') :
    ∃ pre, wr'.log = pre ++ wr.log := by
  induction h with
  | refl => exact ⟨[], rfl⟩
  | tail _ hlast ih =>
      rcases ih with ⟨pre, hpre⟩
      rcases move_log cfg env _ _ hlast with ⟨pre', hpre'⟩
      exact ⟨pre' ++ pre, by rw [hpre', hpre, List.append_assoc]⟩

/-- One event is a sequence of moves, whatever else is known of the state. -/
theorem step_moves (cfg : Config) (env : Env) (J : Phase → World → Prop) (K : World → Prop)
    (w w' : World) (a : Act) (h : Holds cfg J K w) (hs : step cfg env w a = some w') :
    Moves cfg env w.c.writer w'.c.writer := by
  have hw : Holds cfg (fun _ v => Moves cfg env w.c.writer v.c.writer)
      (fun v => Moves cfg env w.c.writer v.c.writer) w := by
    refine ⟨h.registered, fun hup => ?_, fun _ => ReflTransGen.refl⟩
    rcases h.up hup with ⟨ph, hagrees, _⟩
    exact ⟨ph, hagrees, ReflTransGen.refl⟩
  have hw' := step_holds cfg env _ _ (keeps_moves cfg env w.c.writer) w w' a hw hs
  by_cases hup : w'.c.up
  · rcases hw'.up hup with ⟨_, _, hm⟩
    exact hm
  · exact hw'.down hup

/-- The same where the moves keep the property only under a condition on the
    record. A longer record can only be harder to permit. -/
theorem moves_invariant_of_log (cfg : Config) (env : Env) (Permitted : List Obs → Prop)
    (hsuffix : ∀ pre log, Permitted (pre ++ log) → Permitted log) (I : Writer → Prop)
    (hzero : I (Writer.zero cfg))
    (hmove : ∀ wr wr', Standing wr → I wr → Move cfg env wr wr' → Permitted wr'.log → I wr')
    (wr : Writer) (h : Moves cfg env (Writer.zero cfg) wr) (hp : Permitted wr.log) :
    Standing wr ∧ I wr := by
  have h := moves_invariant cfg env (fun wr => Permitted wr.log → I wr) (fun _ => hzero)
    (fun wr wr' hs ih hm hp' => ?_) wr h
  · exact ⟨h.1, h.2 hp⟩
  · rcases move_log cfg env wr wr' hm with ⟨pre, hpre⟩
    refine hmove wr wr' hs (ih (hsuffix pre wr.log ?_)) hm hp'
    rw [← hpre]
    exact hp'

end Wrk
