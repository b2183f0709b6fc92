import Wrk.Connection.Writer

/-!
# Generated Requests

A connection whose script generates its requests. The handler decides to call
`request()` by the number of bytes written, which is zero before the first
byte of a batch has been accepted. If the transport refuses the first write of
a batch, the next one generates another text in its place.

As long as no first write is refused, what is on the wire is what the script
has returned, one text after another, up to what is left to write of the last.
A write that is refused later on is repeated with the same bytes.

## Main definitions

* `settled`, `NoneDropped`: A text is generated only when the one before it
  is written.
* `writeCall`: What an event offers to the transport.
* `Reoffered`: After a refusal the same bytes are offered.
* `Trial`: A connection with its calls of `sock.write`.
* `firstAccepted`: The condition on an event.
* `Delivers`: What is generated is what is written.

## Theorems

* `socketReadable_readOnly`: Reading does not touch the batch.
* `writing_step`: Every event that meets the condition keeps the invariant.
* `dynamic_delivers`: In every run of such events, everything generated is
  written in order.
-/

namespace Wrk

open HttpParser

/-- The last batch has been written to its end. -/
def settled : List Obs → Bool
  | [] => true
  | .finished _ _ _ :: _ => true
  | .batch _ _ :: _ => false
  | _ :: log => settled log

/-- No batch is begun before the last has been written to its end. -/
def NoneDropped : List Obs → Prop
  | [] => True
  | .batch _ _ :: log => settled log = true ∧ NoneDropped log
  | _ :: log => NoneDropped log

/-- What `socket_writeable` offers to `sock.write`. -/
def offered (cfg : Config) (env : Env) (w : World) : Bytes :=
  (offering cfg env w).c.request.drop (offering cfg env w).c.written

/-- The call of `sock.write` during an event: what is offered, and what
    becomes of it. -/
def writeCall (cfg : Config) (env : Env) (w : World) : Act → Option (Bytes × WriteResult)
  | .writable io =>
      if w.c.writable = some .socketWriteable ∧ w.c.delayed = false then
        some (offered cfg env w, io.write)
      else none
  | _ => none

/-- After a refusal the next call offers the same bytes. The calls are newest
    first. -/
def Reoffered : List (Bytes × WriteResult) → Prop
  | (data, _) :: (data', r') :: calls =>
      (r' = .retry → data = data') ∧ Reoffered ((data', r') :: calls)
  | _ => True

/-- A connection, and its calls of `sock.write`. -/
structure Trial where
  world : World
  calls : List (Bytes × WriteResult)

/-- One event, if it can occur. -/
def Trial.step (cfg : Config) (env : Env) (s : Trial) (a : Act) : Option Trial :=
  (Wrk.step cfg env s.world a).map (fun w =>
    { world := w
      calls := (writeCall cfg env s.world a).toList ++ s.calls })

/-- The connection as `thread_main` leaves it. -/
def Trial.start (cfg : Config) (env : Env) (t : Thread) : Trial := ⟨threadMain cfg env t, []⟩

/-- The transport does not refuse the first write of a batch. -/
def firstAccepted (s : Trial) : Act → Bool
  | .writable io =>
      !(s.world.c.writable = some .socketWriteable && !s.world.c.delayed &&
        s.world.c.written = 0 && io.write = .retry)
  | _ => true

/-- The texts that calls of `request()` have returned. -/
def Env.generated (env : Env) (n : Nat) : List Bytes := (List.range n).map env.request

/-- What the script generates is what is written: the bytes on the wire and
    those left of the last text are all that has been generated, no text is
    replaced before it is written, and a refused write is repeated. -/
structure Delivers (env : Env) (s : Trial) : Prop where
  wire : wire s.world.c.fd s.world.c.log ++ unsent s.world.c.log =
    (env.generated s.world.c.requests).flatten
  none : NoneDropped s.world.c.log
  reoffered : Reoffered s.calls

/-! ### Reading -/

/-- Entries that say nothing of the batch. -/
def Obs.quiet : Obs → Bool
  | .batch _ _ => false
  | .accepted _ _ _ => false
  | .finished _ _ _ => false
  | _ => true

theorem settled_quiet (o : Obs) (log : List Obs) (ho : o.quiet = true) :
    settled (o :: log) = settled log := by
  cases o with
  | batch => exact absurd ho Bool.false_ne_true
  | finished => exact absurd ho Bool.false_ne_true
  | _ => rfl

theorem noneDropped_quiet (o : Obs) (log : List Obs) (ho : o.quiet = true) :
    NoneDropped (o :: log) = NoneDropped log := by
  cases o with
  | batch => exact absurd ho Bool.false_ne_true
  | _ => rfl

theorem wire_quiet (fd : Nat) (o : Obs) (log : List Obs) (ho : o.quiet = true) :
    wire fd (o :: log) = wire fd log := by
  cases o with
  | accepted => exact absurd ho Bool.false_ne_true
  | _ => rfl

theorem unsent_quiet (o : Obs) (log : List Obs) (ho : o.quiet = true) :
    unsent (o :: log) = unsent log := by
  cases o with
  | batch => exact absurd ho Bool.false_ne_true
  | accepted => exact absurd ho Bool.false_ne_true
  | _ => rfl

/-- The batch of one state is that of another, and nothing has been recorded
    of it since. -/
structure ReadOnly (w v : World) : Prop where
  batch : (v.c.request, v.c.written, v.c.requests) = (w.c.request, w.c.written, w.c.requests)
  log : ∃ pre, v.c.log = pre ++ w.c.log ∧ ∀ o ∈ pre, Obs.quiet o = true

theorem readOnly_refl (w : World) : ReadOnly w w :=
  ⟨rfl, [], rfl, fun _ ho => absurd ho List.not_mem_nil⟩

theorem readOnly_trans (w v u : World) (h : ReadOnly w v) (h' : ReadOnly v u) : ReadOnly w u := by
  rcases h.log with ⟨pre, hpre, hquiet⟩
  rcases h'.log with ⟨pre', hpre', hquiet'⟩
  refine ⟨h'.batch.trans h.batch, pre' ++ pre, ?_, fun o ho => ?_⟩
  · rw [hpre', hpre, List.append_assoc]
  · rcases List.mem_append.mp ho with ho | ho
    · exact hquiet' o ho
    · exact hquiet o ho

/-- One quiet entry. -/
theorem readOnly_entry (w v : World) (o : Obs) (ho : o.quiet = true)
    (hbatch : (v.c.request, v.c.written, v.c.requests) =
      (w.c.request, w.c.written, w.c.requests))
    (hlog : v.c.log = o :: w.c.log) : ReadOnly w v :=
  ⟨hbatch, [o], hlog, fun p hp => by rw [List.mem_singleton.mp hp]; exact ho⟩

/-- Reading, as long as the connection is up. -/
structure ReadUp (w v : World) : Prop where
  readOnly : ReadOnly w v
  fd : v.c.fd = w.c.fd
  closes : closes v.c.log = closes w.c.log

/-- Reading, once it has been replaced. -/
structure ReadDown (w v : World) : Prop where
  readOnly : ReadOnly w v
  closes : closes w.c.log < closes v.c.log

theorem readUp_refl (w : World) : ReadUp w w := ⟨readOnly_refl w, rfl, rfl⟩

theorem readUp_trans (w v u : World) (h : ReadUp w v) (h' : ReadUp v u) : ReadUp w u :=
  ⟨readOnly_trans w v u h.readOnly h'.readOnly, h'.fd.trans h.fd, h'.closes.trans h.closes⟩

theorem createWritable_readUp (w : World) (p : Proc) : ReadUp w (createWritable w p) := by
  unfold createWritable
  split_ifs
  · exact ⟨⟨rfl, [], rfl, fun _ ho => absurd ho List.not_mem_nil⟩, rfl, rfl⟩
  · exact readUp_refl w

theorem countComplete_readUp (env : Env) (status : Nat) (w : World) :
    ReadUp w (countComplete status (timeUs env w).2) :=
  ⟨readOnly_entry w _ _ rfl rfl rfl, rfl, rfl⟩

theorem tellScript_readUp (status : Nat) (w : World) : ReadUp w (tellScript status w) := by
  unfold tellScript
  split_ifs
  · exact ⟨readOnly_entry w _ _ rfl rfl rfl, rfl, rfl⟩
  · exact readUp_refl w

theorem dropPending_readUp (w : World) : ReadUp w (dropPending w) :=
  ⟨⟨rfl, [], rfl, fun _ ho => absurd ho List.not_mem_nil⟩, rfl, rfl⟩

theorem lastResponse_readUp (cfg : Config) (now : Nat) (w : World) :
    ReadUp w (lastResponse cfg now w) := by
  unfold lastResponse
  by_cases hp : w.c.pending = 0
  · rw [if_pos hp]
    refine readUp_trans w _ _ ?_ (createWritable_readUp _ _)
    exact ⟨readOnly_entry w _ _ rfl rfl rfl, rfl, rfl⟩
  · rw [if_neg hp]
    exact readUp_refl w

theorem countResponse_readUp (cfg : Config) (env : Env) (status : Nat) (w : World) :
    ReadUp w (countResponse cfg env status w) := by
  have htell := readUp_trans w _ _ (countComplete_readUp env status w) (tellScript_readUp status _)
  have hdrop := readUp_trans w _ _ htell (dropPending_readUp _)
  exact readUp_trans w _ _ hdrop (lastResponse_readUp cfg _ _)

theorem connectSocket_readOnly (env : Env) (w : World) :
    ReadOnly w (connectSocket env w) ∧
      closes (connectSocket env w).c.log = closes w.c.log := by
  unfold connectSocket
  dsimp only
  cases env.connect w.c.connects with
  | ok =>
      refine ⟨⟨rfl, [.opened _, .sslSetOptions], rfl, fun o ho => ?_⟩, rfl⟩
      rcases List.mem_cons.mp ho with rfl | ho
      · rfl
      · rw [List.mem_singleton.mp ho]
        rfl
  | refused => exact ⟨⟨rfl, [], rfl, fun _ ho => absurd ho List.not_mem_nil⟩, rfl⟩
  | unregistered =>
      exact ⟨⟨rfl, [_], rfl, fun o ho => by rw [List.mem_singleton.mp ho]; rfl⟩, rfl⟩

/-- A reconnect closes one descriptor. -/
theorem reconnectSocket_readOnly (env : Env) (w : World) :
    ReadOnly w (reconnectSocket env w) ∧
      closes (reconnectSocket env w).c.log = closes w.c.log + 1 := by
  rcases connectSocket_readOnly env (closeSocket w) with ⟨hread, hcloses⟩
  refine ⟨readOnly_trans w (closeSocket w) _ ?_ hread, hcloses.trans rfl⟩
  exact readOnly_entry w (closeSocket w) _ rfl rfl rfl

theorem readUp_reconnect (env : Env) (w v : World) (h : ReadUp w v) :
    ReadDown w (reconnectSocket env v) := by
  rcases reconnectSocket_readOnly env v with ⟨hread, hcloses⟩
  refine ⟨readOnly_trans w v _ h.readOnly hread, ?_⟩
  rw [hcloses, h.closes]
  exact Nat.lt_succ_self _

theorem readDown_reconnect (env : Env) (w v : World) (h : ReadDown w v) :
    ReadDown w (reconnectSocket env v) := by
  rcases reconnectSocket_readOnly env v with ⟨hread, hcloses⟩
  refine ⟨readOnly_trans w v _ h.readOnly hread, ?_⟩
  rw [hcloses]
  exact Nat.lt_succ_of_lt h.closes

theorem keeps_readOnly (cfg : Config) (env : Env) (w : World) :
    ReadKeeps cfg env (fun _ v => ReadUp w v) (ReadDown w) where
  counters _ _ _ _ _ h := ⟨⟨h.readOnly.batch, h.readOnly.log⟩, h.fd, h.closes⟩
  countersDown _ _ _ _ h := ⟨⟨h.readOnly.batch, h.readOnly.log⟩, h.closes⟩
  parser _ _ _ h := ⟨⟨h.readOnly.batch, h.readOnly.log⟩, h.fd, h.closes⟩
  parserDown _ _ h := ⟨⟨h.readOnly.batch, h.readOnly.log⟩, h.closes⟩
  field _ _ v h := readUp_trans w v _ h ⟨readOnly_entry v _ _ rfl rfl rfl, rfl, rfl⟩
  value _ _ v _ h := readUp_trans w v _ h ⟨readOnly_entry v _ _ rfl rfl rfl, rfl, rfl⟩
  body _ _ v h := readUp_trans w v _ h ⟨readOnly_entry v _ _ rfl rfl rfl, rfl, rfl⟩
  complete _ status v _ _ _ h := readUp_trans w v _ h (countResponse_readUp cfg env status v)
  close _ status v _ _ _ h :=
    readUp_reconnect env w _ (readUp_trans w v _ h (countResponse_readUp cfg env status v))
  reconnect _ v _ h := readUp_reconnect env w v h
  reconnectDown v _ h := readDown_reconnect env w v h

/-- Reading does not touch the batch, and it keeps the descriptor or closes
    one. -/
theorem socketReadable_readOnly (cfg : Config) (env : Env) (J : Phase → World → Prop)
    (K : World → Prop) (reads : List ReadStep) (w : World) (h : Holds cfg J K w)
    (hup : w.c.up) :
    ((socketReadable cfg env reads w).c.up ∧ ReadUp w (socketReadable cfg env reads w)) ∨
      ReadDown w (socketReadable cfg env reads w) := by
  rcases h.up hup with ⟨ph, hagrees, _⟩
  have hread := socketReadable_holds cfg env (fun _ v => ReadUp w v) (ReadDown w)
    (keeps_readOnly cfg env w) reads w
    (Or.inl ⟨ph, hagrees, hup, h.registered, readUp_refl w⟩)
  by_cases hup' : (socketReadable cfg env reads w).c.up
  · rcases hread.up hup' with ⟨_, _, hJ⟩
    exact Or.inl ⟨hup', hJ⟩
  · exact Or.inr (hread.down hup')

/-! ### Events -/

/-- The invariant of a connection that has never been closed. -/
structure Writing (env : Env) (s : Trial) : Prop where
  delivers : Delivers env s
  left : unsent s.world.c.log =
    if s.world.c.written = 0 then [] else s.world.c.request.drop s.world.c.written
  settled : settled s.world.c.log = decide (s.world.c.written = 0)
  /-- Whatever was refused will be offered again. -/
  refused : ∀ data, s.calls.head? = some (data, .retry) →
    s.world.c.written ≠ 0 ∧ s.world.c.request.drop s.world.c.written = data
  /-- Nothing has been written before the connection is up. -/
  down : ¬ s.world.c.up → s.world.c.written = 0 ∧ s.world.c.timers = [] ∧
    s.world.c.writable ≠ some .socketWriteable

theorem writing_start (cfg : Config) (env : Env) (t : Thread) :
    Writing env (Trial.start cfg env t) := by
  unfold Trial.start threadMain
  rcases connectSocket_cases env { thread := t, c := Conn.zero cfg } with ⟨_, hc⟩ | ⟨_, pre, hpre, hc⟩
  · -- No socket could be opened.
    refine ⟨⟨?_, ?_, trivial⟩, ?_, ?_, fun _ h => absurd h (by simp), fun _ => ?_⟩
    all_goals dsimp only
    all_goals rw [hc]
    · rfl
    · trivial
    · rfl
    · rfl
    · exact ⟨rfl, rfl, fun h => Proc.noConfusion (Option.some.inj h)⟩
  · have hquiet : ∀ o ∈ pre, Obs.quiet o = true := by
      intro o ho
      rw [hpre o ho]
      rfl
    refine ⟨⟨?_, ?_, trivial⟩, ?_, ?_, fun _ h => absurd h (by simp), fun _ => ?_⟩
    all_goals dsimp only
    all_goals rw [hc]
    all_goals dsimp only
    · rw [append_skip (wire _) (wire_quiet _) pre _ hquiet,
        append_skip unsent unsent_quiet pre _ hquiet]
      rfl
    · rw [append_skip NoneDropped noneDropped_quiet pre _ hquiet]
      trivial
    · rw [append_skip unsent unsent_quiet pre _ hquiet]
      rfl
    · rw [append_skip Wrk.settled settled_quiet pre _ hquiet]
      rfl
    · exact ⟨rfl, rfl, (Option.some_ne_none _).symm⟩

/-- An event that leaves the batch and the calls alone. -/
theorem writing_readOnly (env : Env) (s : Trial) (v : World) (h : Writing env s)
    (hread : ReadOnly s.world v) (hfd : v.c.fd = s.world.c.fd)
    (hdown : ¬ v.c.up → v.c.written = 0 ∧ v.c.timers = [] ∧
      v.c.writable ≠ some .socketWriteable) : Writing env ⟨v, s.calls⟩ := by
  have hbatch := hread.batch
  simp only [Prod.mk.injEq] at hbatch
  rcases hbatch with ⟨hrequest, hwritten, hrequests⟩
  rcases hread.log with ⟨pre, hpre, hquiet⟩
  -- Nothing of the request was sent, so the wire and what is left are the same.
  have hunsent : unsent v.c.log = unsent s.world.c.log := by
    rw [hpre]
    exact append_skip unsent unsent_quiet pre _ hquiet
  refine ⟨⟨?_, ?_, h.delivers.reoffered⟩, ?_, ?_, fun data hd => ?_, hdown⟩
  · dsimp only
    rw [hunsent, hrequests, hfd, hpre, append_skip (wire _) (wire_quiet _) pre _ hquiet]
    exact h.delivers.wire
  · dsimp only
    rw [hpre, append_skip NoneDropped noneDropped_quiet pre _ hquiet]
    exact h.delivers.none
  · dsimp only
    rw [hunsent, hwritten, hrequest]
    exact h.left
  · dsimp only
    rw [hwritten, hpre, append_skip Wrk.settled settled_quiet pre _ hquiet]
    exact h.settled
  · dsimp only
    rw [hwritten, hrequest]
    exact h.refused data hd

/-- `socket_connected`, when it does not fail. -/
theorem writing_connected (env : Env) (s : Trial) (r : SockStatus) (h : Writing env s)
    (hr : r ≠ .error) (hdown : ¬ s.world.c.up) (hopen : s.world.c.fdOpen = true) :
    Writing env ⟨socketConnected env r s.world, s.calls⟩ := by
  rcases h.down hdown with ⟨hwritten, htimers, hwritable⟩
  cases r with
  | error => exact absurd rfl hr
  | retry => exact h
  | ok =>
      have hc : (socketConnected env .ok s.world).c =
          { s.world.c with
            parser := httpParserInit
            written := 0
            readable := some .socketReadable
            writable := some .socketWriteable
            log := .connected s.world.c.fd :: s.world.c.log } := by
        simp only [socketConnected, createReadable, createWritable, World.setParser, World.note,
          hopen, if_true]
      -- Nothing had been written before, so setting the count to zero changes nothing.
      refine writing_readOnly env s _ h ?_ ?_ ?_
      · refine readOnly_entry _ _ (.connected s.world.c.fd) rfl ?_ ?_
        · rw [hc, hwritten]
        · rw [hc]
      · rw [hc]
      · intro hnot
        refine absurd ?_ hnot
        unfold Conn.up
        rw [hc]

/-- Nothing is generated unless a batch is begun. -/
theorem generated_offering (cfg : Config) (env : Env) (w : World) (hdyn : cfg.dynamic = true) :
    (w.c.written = 0 ∧
        (offering cfg env w).c =
          { w.c with
            request := env.request w.c.requests
            requests := w.c.requests + 1
            start := env.clock w.c.clocks
            clocks := w.c.clocks + 1
            pending := cfg.pipeline
            log := .batch w.c.fd (env.request w.c.requests) :: w.c.log }) ∨
      (w.c.written ≠ 0 ∧ (offering cfg env w).c = w.c) := by
  unfold offering
  by_cases hw : w.c.written = 0
  · rw [if_pos hw]
    -- A new batch: the script is asked for the next request.
    refine Or.inl ⟨hw, ?_⟩
    simp only [startBatch, hdyn, if_true, timeUs, World.note]
  · rw [if_neg hw]
    exact Or.inr ⟨hw, rfl⟩

theorem generated_succ (env : Env) (n : Nat) :
    (env.generated (n + 1)).flatten = (env.generated n).flatten ++ env.request n := by
  unfold Env.generated
  rw [List.range_succ, List.map_append, List.flatten_append]
  simp only [List.map_cons, List.map_nil, List.flatten_cons, List.flatten_nil, List.append_nil]

/-- What the record says once a batch is offered. -/
structure Offering (env : Env) (w : World) : Prop where
  wire : Wrk.wire w.c.fd w.c.log ++ unsent w.c.log = (env.generated w.c.requests).flatten
  none : NoneDropped w.c.log
  left : unsent w.c.log = w.c.request.drop w.c.written
  settled : Wrk.settled w.c.log = false

theorem writing_offering (cfg : Config) (env : Env) (s : Trial) (hdyn : cfg.dynamic = true)
    (h : Writing env s) : Offering env (offering cfg env s.world) := by
  have hwire := h.delivers.wire
  have hleft := h.left
  have hsettled := h.settled
  rcases generated_offering cfg env s.world hdyn with ⟨hw, hc⟩ | ⟨hw, hc⟩
  · -- A new request: nothing of the one before it was left.
    rw [hw] at hleft hsettled
    rw [if_pos rfl] at hleft
    rw [hleft, List.append_nil] at hwire
    refine ⟨?_, ?_, ?_, ?_⟩
    · rw [hc, generated_succ, ← hwire]
      rfl
    · rw [hc]
      exact ⟨hsettled.trans (by rfl), h.delivers.none⟩
    · rw [hc]
      dsimp only
      rw [hw]
      rfl
    · rw [hc]
      rfl
  · -- The rest of the request that is being written.
    rw [if_neg hw] at hleft
    refine ⟨?_, ?_, ?_, ?_⟩
    · rw [hc]
      exact hwire
    · rw [hc]
      exact h.delivers.none
    · rw [hc]
      exact hleft
    · rw [hc, hsettled]
      exact decide_eq_false hw

/-- A refused call is followed by one with the same bytes. -/
theorem reoffered_call (cfg : Config) (env : Env) (s : Trial) (r : WriteResult)
    (hdyn : cfg.dynamic = true) (h : Writing env s) :
    Reoffered ((offered cfg env s.world, r) :: s.calls) := by
  have hre := h.delivers.reoffered
  have href := h.refused
  cases hcalls : s.calls with
  | nil => trivial
  | cons p calls =>
      rw [hcalls] at hre href
      -- A call that was refused is followed by one with the same bytes, since some of
      -- the request had been taken and no new one is made.
      refine ⟨fun hr => ?_, hre⟩
      rcases href p.1 (by rw [List.head?_cons, ← hr]) with ⟨hw, hdata⟩
      rcases generated_offering cfg env s.world hdyn with ⟨hw', _⟩ | ⟨_, hc⟩
      · exact absurd hw' hw
      · unfold offered
        rw [hc]
        exact hdata

/-- The transport accepts some of what is offered. -/
theorem writing_accepted (cfg : Config) (env : Env) (s : Trial) (more : Nat)
    (hdyn : cfg.dynamic = true) (h : Writing env s)
    (hup : (offering cfg env s.world).c.up) (n : Nat)
    (hn : n = min (more + 1) ((offering cfg env s.world).c.request.length -
      (offering cfg env s.world).c.written)) :
    Writing env ⟨acceptBytes n (offering cfg env s.world),
      (offered cfg env s.world, .ok more) :: s.calls⟩ := by
  have ho := writing_offering cfg env s hdyn h
  have hre := reoffered_call cfg env s (.ok more) hdyn h
  generalize offering cfg env s.world = v at ho hup hn ⊢
  -- What is accepted is a first part of what is left.
  have hdata : ((v.c.request.drop v.c.written).take n).length = n := by
    rw [List.length_take, List.length_drop]
    omega
  have hwire : Wrk.wire v.c.fd v.c.log ++ (v.c.request.drop v.c.written).take n ++
      (v.c.request.drop v.c.written).drop n = (env.generated v.c.requests).flatten := by
    rw [List.append_assoc, List.take_append_drop, ← ho.left]
    exact ho.wire
  have hleft : (unsent v.c.log).drop ((v.c.request.drop v.c.written).take n).length =
      v.c.request.drop (v.c.written + n) := by
    rw [hdata, ho.left, List.drop_drop]
  rcases acceptBytes_cases n v with ⟨hlen, _, hc⟩ | ⟨hlen, _, hc⟩
  · have hnil : v.c.request.drop (v.c.written + n) = [] :=
      List.drop_of_length_le (Nat.le_of_eq hlen.symm)
    refine ⟨⟨?_, ?_, hre⟩, ?_, ?_, fun _ hd => ?_, fun hd => ?_⟩
    · dsimp only
      rw [hc]
      simp only [wire, unsent, if_true]
      rw [hleft, hnil, ← hwire, List.drop_drop, hnil]
    · dsimp only
      rw [hc]
      exact ho.none
    · dsimp only
      rw [hc]
      exact hleft.trans hnil
    · dsimp only
      rw [hc]
      rfl
    · exact absurd hd (by simp)
    · refine absurd ?_ hd
      unfold Conn.up at hup ⊢
      dsimp only
      rw [hc]
      exact hup
  · have hpos : v.c.written + n ≠ 0 := by omega
    refine ⟨⟨?_, ?_, hre⟩, ?_, ?_, fun _ hd => ?_, fun hd => ?_⟩
    · dsimp only
      rw [hc]
      simp only [wire, unsent, if_true]
      rw [hleft, ← hwire, List.drop_drop]
    · dsimp only
      rw [hc]
      exact ho.none
    · dsimp only
      rw [hc, if_neg hpos]
      exact hleft
    · dsimp only
      rw [hc]
      exact ho.settled.trans (decide_eq_false hpos).symm
    · exact absurd hd (by simp)
    · refine absurd ?_ hd
      unfold Conn.up at hup ⊢
      dsimp only
      rw [hc]
      exact hup

/-- A refusal that is not of the first write of a batch. -/
theorem writing_refused (cfg : Config) (env : Env) (s : Trial) (hdyn : cfg.dynamic = true)
    (h : Writing env s) (hw : s.world.c.written ≠ 0) :
    Writing env ⟨offering cfg env s.world, (offered cfg env s.world, .retry) :: s.calls⟩ := by
  have hre := reoffered_call cfg env s .retry hdyn h
  have hoff : offering cfg env s.world = s.world := if_neg hw
  unfold offered at hre ⊢
  rw [hoff] at hre ⊢
  refine ⟨⟨h.delivers.wire, h.delivers.none, hre⟩, h.left, h.settled, fun data hd => ?_, h.down⟩
  simp only [List.head?_cons, Option.some.injEq, Prod.mk.injEq, and_true] at hd
  exact ⟨hw, hd⟩

/-- `socket_writeable`, when no first write is refused and nothing fails. -/
theorem writing_writeable (cfg : Config) (env : Env) (s : Trial) (r : WriteResult)
    (hdyn : cfg.dynamic = true) (h : Writing env s) (hup : s.world.c.up)
    (hfirst : s.world.c.delayed = false → s.world.c.written = 0 → r ≠ .retry)
    (hcloses : closes (socketWriteable cfg env r s.world).c.log ≤ closes s.world.c.log) :
    Writing env ⟨socketWriteable cfg env r s.world,
      (if s.world.c.delayed = false then [(offered cfg env s.world, r)] else []) ++ s.calls⟩ := by
  have hoffup := (up_congr _ _ (offering_registration cfg env s.world).1).mpr hup
  rcases socketWriteable_cases cfg env r s.world with
    ⟨hd, hs⟩ | ⟨hd, ⟨hr, hs⟩ | ⟨hr, hs⟩ | ⟨more, hr, hs⟩⟩
  · rw [hs, hd, if_neg (by decide)]
    refine writing_readOnly env s _ h ?_ rfl (fun hnot => absurd hup hnot)
    exact readOnly_entry s.world (createDelay env s.world) _ rfl rfl rfl
  · rw [hs, if_pos hd, hr]
    by_cases hw : s.world.c.written = 0
    · exact absurd hr (hfirst hd hw)
    · exact writing_refused cfg env s hdyn h hw
  · -- A failure would have closed the descriptor.
    exfalso
    have hclose := (reconnectSocket_readOnly env (writeError (offering cfg env s.world))).2
    have hsame : closes (writeError (offering cfg env s.world)).c.log = closes s.world.c.log := by
      rcases generated_offering cfg env s.world hdyn with ⟨_, hc⟩ | ⟨_, hc⟩
      · change closes (offering cfg env s.world).c.log = _
        rw [hc]
        rfl
      · change closes (offering cfg env s.world).c.log = _
        rw [hc]
    rw [hs, hclose, hsame] at hcloses
    omega
  · rw [hs, if_pos hd, hr]
    exact writing_accepted cfg env s more hdyn h hoffup _ rfl

/-- Every event that meets the condition keeps the invariant, unless it closes
    the connection. -/
theorem writing_step (cfg : Config) (env : Env) (s s' : Trial) (a : Act)
    (hdyn : cfg.dynamic = true)
    (hh : Holds cfg (fun _ _ => True) (fun _ => True) s.world) (h : Writing env s)
    (hfirst : firstAccepted s a = true) (hs : s.step cfg env a = some s')
    (hcloses : closes s'.world.c.log ≤ closes s.world.c.log) : Writing env s' := by
  rcases Option.map_eq_some_iff.mp hs with ⟨w, hw, rfl⟩
  -- `socket_connected` can run from either side of the descriptor.
  have hconnected : ∀ io : Io, ¬ s.world.c.up → s.world.c.fdOpen = true →
      w = socketConnected env io.connect s.world → Writing env ⟨w, s.calls⟩ := by
    intro io hdown hopen hwc
    rw [hwc]
    refine writing_connected env s io.connect h (fun hr => ?_) hdown hopen
    rw [hwc, hr] at hcloses
    have hclose := (reconnectSocket_readOnly env (connectError s.world)).2
    change closes (reconnectSocket env (connectError s.world)).c.log ≤ _ at hcloses
    rw [hclose] at hcloses
    exact absurd hcloses (Nat.not_succ_le_self _)
  cases a with
  | readable io =>
      rcases Option.map_eq_some_iff.mp hw with ⟨p, hp, hwp⟩
      change Writing env ⟨w, s.calls⟩
      cases p with
      | socketWriteable => exact absurd hp hh.registered.readable
      | socketConnected =>
          refine hconnected io (fun hup => ?_) (hh.registered.fdOpen (Or.inl ?_)) hwp.symm
          · unfold Conn.up at hup
            rw [hp] at hup
            exact absurd hup (by decide)
          · rw [hp]
            exact Option.some_ne_none _
      | socketReadable =>
          have hread := socketReadable_readOnly cfg env _ _ io.reads s.world hh hp
          have hwr : w = socketReadable cfg env io.reads s.world := hwp.symm
          rw [← hwr] at hread
          rcases hread with ⟨hup, hread⟩ | hread
          · exact writing_readOnly env s w h hread.readOnly hread.fd (fun hd => absurd hup hd)
          · exact absurd hread.closes (Nat.not_lt_of_le hcloses)
  | writable io =>
      rcases Option.map_eq_some_iff.mp hw with ⟨p, hp, hwp⟩
      cases p with
      | socketReadable => exact absurd hp hh.registered.writable
      | socketConnected =>
          have hnone : writeCall cfg env s.world (.writable io) = none := by
            refine if_neg (fun hc => ?_)
            rw [hp] at hc
            exact absurd hc.1 (by decide)
          rw [hnone]
          refine hconnected io (fun hup => hh.registered.connected hup hp)
            (hh.registered.fdOpen (Or.inr ?_)) hwp.symm
          rw [hp]
          exact Option.some_ne_none _
      | socketWriteable =>
          have hup : s.world.c.up := by
            by_contra hdown
            exact (h.down hdown).2.2 hp
          have hwr : w = socketWriteable cfg env io.write s.world := hwp.symm
          have hcall : (writeCall cfg env s.world (.writable io)).toList =
              if s.world.c.delayed = false then [(offered cfg env s.world, io.write)] else [] := by
            by_cases hd : s.world.c.delayed = false
            · simp only [writeCall, hp, hd, and_self, if_true, Option.toList_some]
            · simp only [writeCall, hd, Bool.true_eq_false, and_false, if_false, Option.toList_none]
          rw [hcall, hwr]
          refine writing_writeable cfg env s io.write hdyn h hup (fun hd hzero hr => ?_) ?_
          · simp [firstAccepted, hp, hd, hzero, hr] at hfirst
          · rw [hwr] at hcloses
            exact hcloses
  | timer i =>
      simp only [Wrk.step] at hw
      split_ifs at hw with hi
      rw [Option.some.injEq] at hw
      have hup : s.world.c.up := by
        by_contra hdown
        rw [(h.down hdown).2.1] at hi
        exact Nat.not_lt_zero _ hi
      have hread : ReadUp s.world w := by
        rw [← hw]
        unfold delayRequest
        refine readUp_trans _ _ _ ?_ (createWritable_readUp _ _)
        exact ⟨⟨rfl, [], rfl, fun _ ho => absurd ho List.not_mem_nil⟩, rfl, rfl⟩
      have hreg : w.c.up := by
        rw [← hw]
        unfold delayRequest Conn.up createWritable
        split_ifs
        · exact hup
        · exact hup
      exact writing_readOnly env s w h hread.readOnly hread.fd (fun hd => absurd hreg hd)

/-- Nothing that the script generates is dropped, in any run that refuses no
    first write of a batch, as long as the connection is not closed. -/
theorem dynamic_delivers (cfg : Config) (env : Env) (t : Thread) (hdyn : cfg.dynamic = true)
    (s : Trial)
    (hreach : Transition.Reaches (Transition.onlyIf firstAccepted (Trial.step cfg env))
      (Trial.start cfg env t) s)
    (herror : closes s.world.c.log = 0) : Delivers env s := by
  have hkeeps : Keeps cfg env (fun _ _ => True) (fun _ => True) := by
    constructor <;> intros <;> trivial
  -- The invariant is only claimed while no descriptor has been closed, and a step
  -- adds to what has been closed.
  have hinv : Holds cfg (fun _ _ => True) (fun _ => True) s.world ∧
      (closes s.world.c.log = 0 → Writing env s) := by
    refine Transition.reaches_invariant _ (fun u => Holds cfg (fun _ _ => True) (fun _ => True)
      u.world ∧ (closes u.world.c.log = 0 → Writing env u)) ?_ _ s
      ⟨threadMain_holds cfg env _ _ t trivial, fun _ => writing_start cfg env t⟩ hreach
    intro u a u' hu hs
    rcases Transition.onlyIf_some _ _ u u' a hs with ⟨hfirst, hstep⟩
    rcases Option.map_eq_some_iff.mp hstep with ⟨w, hw, hu'⟩
    have hworld : u'.world = w := by rw [← hu']
    rcases moves_log cfg env _ _ (step_moves cfg env _ _ u.world w a hu.1 hw) with ⟨pre, hpre⟩
    have hsum : closes w.c.log = closes pre + closes u.world.c.log := by
      rw [show w.c.log = pre ++ u.world.c.log from hpre]
      exact closes_append pre _
    refine ⟨?_, fun hzero => ?_⟩
    · rw [hworld]
      exact step_holds cfg env _ _ hkeeps u.world w a hu.1 hw
    · rw [hworld] at hzero
      refine writing_step cfg env u u' a hdyn hu.1 (hu.2 (by omega)) hfirst hstep ?_
      rw [hworld]
      omega
  exact (hinv.2 herror).delivers

/-- A script that numbers its requests. -/
def numbering : Env :=
  { Env.plain with request := fun n => bytes "GET /" ++ [48 + UInt8.ofNat n] ++ bytes " HTTP/1.1\r\n\r\n" }

def Config.scripted : Config := { Config.plain with dynamic := true }

/-- An event in which the transport refuses. -/
def Io.blocking : Io := ⟨.ok, .retry, []⟩

/-- A request is written in three pieces, the second of which is refused at
    first. -/
def steadyWrites : List Act :=
  [.writable (Io.serving 0 []), .writable (Io.serving 4 []), .writable Io.blocking,
    .writable (Io.serving 4 []), .writable (Io.serving 99 [])]

theorem dynamic_delivers_steady : ∃ s : Trial,
    Transition.Reaches (Transition.onlyIf firstAccepted (Trial.step Config.scripted numbering))
      (Trial.start Config.scripted numbering (Thread.zero 10)) s ∧
    wire s.world.c.fd s.world.c.log = bytes "GET /0 HTTP/1.1\r\n\r\n" ∧ Delivers numbering s := by
  have hrun : (Transition.run (Transition.onlyIf firstAccepted (Trial.step Config.scripted numbering))
      (Trial.start Config.scripted numbering (Thread.zero 10)) steadyWrites).map
        (fun s => (wire s.world.c.fd s.world.c.log, closes s.world.c.log)) =
      some (bytes "GET /0 HTTP/1.1\r\n\r\n", 0) := by
    decide +kernel
  rcases Option.map_eq_some_iff.mp hrun with ⟨s, hs, hpair⟩
  simp only [Prod.mk.injEq] at hpair
  have hreach : Transition.Reaches
      (Transition.onlyIf firstAccepted (Trial.step Config.scripted numbering))
      (Trial.start Config.scripted numbering (Thread.zero 10)) s := ⟨_, hs⟩
  exact ⟨s, hreach, hpair.1,
    dynamic_delivers Config.scripted numbering (Thread.zero 10) rfl s hreach hpair.2⟩

/-- When the first write is refused, the first request of the script is never
    written, and what is offered next is another. -/
theorem refused_drops : ∃ s : Trial,
    Transition.Reaches (Trial.step Config.scripted numbering)
      (Trial.start Config.scripted numbering (Thread.zero 10)) s ∧
    closes s.world.c.log = 0 ∧ wire s.world.c.fd s.world.c.log = bytes "GET /1 HTTP/1.1\r\n\r\n" ∧
    ¬ Delivers numbering s := by
  have hrun : (Transition.run (Trial.step Config.scripted numbering)
      (Trial.start Config.scripted numbering (Thread.zero 10))
      [.writable (Io.serving 0 []), .writable Io.blocking, .writable (Io.serving 99 [])]).map
        (fun s => (wire s.world.c.fd s.world.c.log, closes s.world.c.log, s.calls)) =
      some (bytes "GET /1 HTTP/1.1\r\n\r\n", 0,
        [(bytes "GET /1 HTTP/1.1\r\n\r\n", .ok 99), (bytes "GET /0 HTTP/1.1\r\n\r\n", .retry)]) := by
    decide +kernel
  rcases Option.map_eq_some_iff.mp hrun with ⟨s, hs, htriple⟩
  simp only [Prod.mk.injEq] at htriple
  refine ⟨s, ⟨_, hs⟩, htriple.2.1, htriple.1, fun h => ?_⟩
  have hre := h.reoffered
  rw [htriple.2.2] at hre
  exact absurd (hre.1 rfl) (by decide +kernel)

end Wrk
