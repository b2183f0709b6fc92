import Wrk.Connection.Writer

/-!
# The TLS Layer

The table of transport operations that `main` fills in, and the functions of
OpenSSL that a run calls with the handle of a connection. Every operation of
the handlers goes through the table. The one call that does not is in
`connect_socket`, after a `connect` that was not refused. The repository has a
second copy of the program in which that call is missing.

A plain run has no handle: `main` leaves the context of the configuration at
its null value, and so `thread_main` leaves that of every connection. Only the
direct call can then reach OpenSSL, with the null handle.

Of the calls during one event those for closed descriptors come last here,
whenever they were made.

## Main definitions

* `SslCall`: The functions that take the handle.
* `Sock`: The table.
* `mainSetup`: The table and the context for a scheme.
* `Copy`: The two copies of `connect_socket`.
* `entries`: What an event performs through the table.
* `Tls.step`: An event, with the calls it makes.
* `NoNullCall`: No function is called with the null handle.

## Theorems

* `keeps_options`: The direct call is made once for each attempt that is not
  refused.
* `noNullCall_iff`: A plain run keeps out of OpenSSL exactly while every
  attempt to connect is refused.
* `offload_noNullCall`: The second copy always does.
-/

namespace Wrk

open HttpParser

/-- The functions of OpenSSL that are called with the handle of a
    connection. -/
inductive SslCall where
  | setOptions
  | setFd
  | setTlsextHostName
  | connect
  | getError
  | shutdown
  | clear
  | read
  | write
  | pending
  deriving DecidableEq, Repr

/-- `struct sock`: the calls that each operation makes, for its result. -/
structure Sock where
  connect : SockStatus → List SslCall
  close : List SslCall
  read : ReadResult → List SslCall
  write : WriteResult → List SslCall
  readable : List SslCall

/-- The functions of `net.c`. -/
def Sock.plain : Sock :=
  { connect := fun _ => []
    close := []
    read := fun _ => []
    write := fun _ => []
    readable := [] }

/-- The functions of `ssl.c`. -/
def Sock.ssl : Sock :=
  { connect := fun r =>
      [.setFd, .setTlsextHostName, .connect] ++ if r = .ok then [] else [.getError]
    close := [.shutdown, .clear]
    read := fun r =>
      match r with
      | .ok _ => [.read]
      | _ => [.read, .getError]
    write := fun r =>
      match r with
      | .ok _ => [.write]
      | _ => [.write, .getError]
    readable := [.pending] }

/-- The table, and whether the connections have a handle. -/
structure Setup where
  sock : Sock
  handle : Bool

/-- `main`, for the scheme of the URL. It does not go on without a context
    that it needs, and `thread_main` makes handles when there is one. -/
def mainSetup (schema : Bytes) : Setup :=
  if (bytes "https").isPrefixOf schema then ⟨.ssl, true⟩ else ⟨.plain, false⟩

/-- The two copies of `connect_socket`. -/
inductive Copy where
  | src
  | offload
  deriving DecidableEq, Repr

/-- The calls of `SSL_set_options` for the attempts to connect that get so
    far. -/
def options : List Obs → Nat
  | [] => 0
  | .sslSetOptions :: log => options log + 1
  | _ :: log => options log

/-- What `socket_readable` performs through the table, but for closing. -/
def readEntries (cfg : Config) (env : Env) (sock : Sock) : List ReadStep → World → List SslCall
  | [], _ => sock.read .retry
  | r :: rs, w =>
      sock.read r.result ++
        match r.result with
        | .ok data =>
            let data := data.take recvBuf
            let r' := readChunk cfg env data w
            if r'.2 ≠ data.length || (data = [] && !httpBodyIsFinal r'.1.c.parser) then []
            else if data.length = recvBuf then
              sock.readable ++
                if r.more then readEntries cfg env sock rs (countBytes data.length r'.1) else []
            else []
        | _ => []

/-- What an event performs through the table, but for closing. -/
def entries (cfg : Config) (env : Env) (sock : Sock) (w : World) : Act → List SslCall
  | .readable io =>
      match w.c.readable with
      | some .socketConnected => sock.connect io.connect
      | some .socketReadable => readEntries cfg env sock io.reads w
      | _ => []
  | .writable io =>
      match w.c.writable with
      | some .socketConnected => sock.connect io.connect
      | some .socketWriteable => if w.c.delayed then [] else sock.write io.write
      | _ => []
  | .timer _ => []

/-- What is performed between two states. -/
def directCalls (copy : Copy) (before after : List Obs) : List SslCall :=
  match copy with
  | .src => List.replicate (options after - options before) .setOptions
  | .offload => []

def closeCalls (sock : Sock) (before after : List Obs) : List SslCall :=
  (List.replicate (closes after - closes before) sock.close).flatten

/-- A connection, and the calls made with its handle. -/
structure Tls where
  world : World
  calls : List SslCall

/-- One event, if it can occur. -/
def Tls.step (copy : Copy) (sock : Sock) (cfg : Config) (env : Env) (s : Tls) (a : Act) :
    Option Tls :=
  (Wrk.step cfg env s.world a).map (fun w =>
    { world := w
      calls :=
        s.calls ++ entries cfg env sock s.world a ++ directCalls copy s.world.c.log w.c.log ++
          closeCalls sock s.world.c.log w.c.log })

/-- The connection as `thread_main` leaves it. -/
def Tls.start (copy : Copy) (cfg : Config) (env : Env) (t : Thread) : Tls :=
  { world := threadMain cfg env t
    calls := directCalls copy [] (threadMain cfg env t).c.log }

/-- No function of OpenSSL is called with the null handle. -/
def NoNullCall (setup : Setup) (s : Tls) : Prop := setup.handle = false → s.calls = []

/-! ### Attempts to connect -/

/-- The attempts to connect, and the calls of `SSL_set_options` for them. -/
def World.attempts (w : World) : Nat × Nat := (w.c.connects, options w.c.log)

/-- The attempts that are not refused, of the first so many. -/
def Env.unrefused (env : Env) (n : Nat) : Nat :=
  (List.range n).countP (fun i => env.connect i ≠ .refused)

theorem unrefused_succ (env : Env) (n : Nat) :
    env.unrefused (n + 1) = env.unrefused n + if env.connect n ≠ .refused then 1 else 0 := by
  unfold Env.unrefused
  rw [List.range_succ, List.countP_append, List.countP_singleton]
  simp only [decide_eq_true_eq]

theorem unrefused_zero_iff (env : Env) (n : Nat) :
    env.unrefused n = 0 ↔ ∀ i < n, env.connect i = .refused := by
  unfold Env.unrefused
  rw [List.countP_eq_zero]
  simp only [List.mem_range, ne_eq, decide_not, Bool.not_eq_true', decide_eq_false_iff_not,
    Decidable.not_not]

/-- The direct call has been made once for each attempt that was not
    refused. -/
def OptionsSet (env : Env) (w : World) : Prop := w.attempts.2 = env.unrefused w.attempts.1

theorem optionsSet_of_eq (env : Env) (w w' : World) (h : OptionsSet env w)
    (heq : w'.attempts = w.attempts) : OptionsSet env w' := by
  unfold OptionsSet at h ⊢
  rw [heq]
  exact h

theorem connectSocket_options (env : Env) (w : World) (h : OptionsSet env w) :
    OptionsSet env (connectSocket env w) := by
  have hsucc := unrefused_succ env w.c.connects
  unfold OptionsSet World.attempts at h ⊢
  unfold connectSocket
  dsimp only at h ⊢
  cases hc : env.connect w.c.connects with
  | ok =>
      simp only [hc, ne_eq, reduceCtorEq, not_false_eq_true, if_true] at hsucc
      simp only [World.note, options, h, hsucc]
  | refused =>
      simp only [hc, ne_eq, not_true_eq_false, if_false, Nat.add_zero] at hsucc
      simp only [connectError, h, hsucc]
  | unregistered =>
      simp only [hc, ne_eq, reduceCtorEq, not_false_eq_true, if_true] at hsucc
      simp only [World.note, connectError, options, h, hsucc]

theorem reconnectSocket_options (env : Env) (w : World) (h : OptionsSet env w) :
    OptionsSet env (reconnectSocket env w) :=
  connectSocket_options env (closeSocket w) h

theorem createWritable_attempts (w : World) (p : Proc) :
    (createWritable w p).attempts = w.attempts :=
  createWritable_frame World.attempts w p rfl

theorem countResponse_attempts (cfg : Config) (env : Env) (status : Nat) (w : World) :
    (countResponse cfg env status w).attempts = w.attempts := by
  have htell : (tellScript status (countComplete status (timeUs env w).2)).attempts =
      w.attempts := tellScript_frame World.attempts status _ rfl
  unfold countResponse lastResponse
  split_ifs
  · unfold batchDone
    dsimp only
    rw [createWritable_attempts]
    exact htell
  · exact htell

theorem offering_attempts (cfg : Config) (env : Env) (w : World) :
    (offering cfg env w).attempts = w.attempts := by
  unfold offering startBatch
  by_cases hw : w.c.written = 0
  · rw [if_pos hw]
    by_cases hd : cfg.dynamic = true
    · rw [if_pos hd]
      rfl
    · rw [if_neg hd]
      rfl
  · rw [if_neg hw]

theorem socketWriteable_options (cfg : Config) (env : Env) (r : WriteResult) (w : World)
    (h : OptionsSet env w) : OptionsSet env (socketWriteable cfg env r w) := by
  have ho := optionsSet_of_eq env w _ h (offering_attempts cfg env w)
  rcases socketWriteable_cases cfg env r w with ⟨_, hw⟩ | ⟨_, ⟨_, hw⟩ | ⟨_, hw⟩ | ⟨more, _, hw⟩⟩
  · rw [hw]
    exact h
  · rw [hw]
    exact ho
  · rw [hw]
    exact reconnectSocket_options env _ ho
  · rw [hw]
    refine optionsSet_of_eq env _ _ ho ?_
    unfold acceptBytes
    dsimp only
    split_ifs
    · rfl
    · rfl

theorem socketConnected_attempts (env : Env) (w : World) :
    (socketConnected env .ok w).attempts = w.attempts := by
  unfold socketConnected createReadable createWritable
  by_cases hopen : w.c.fdOpen = true
  · simp only [World.setParser, hopen, if_true]
    rfl
  · simp only [World.setParser, hopen, if_false, Bool.false_eq_true]
    rfl

theorem keeps_options (cfg : Config) (env : Env) :
    Keeps cfg env (fun _ w => OptionsSet env w) (OptionsSet env) where
  counters _ _ _ _ _ h := h
  countersDown _ _ _ _ h := h
  parser _ _ _ h := h
  parserDown _ _ h := h
  field _ _ _ h := h
  value _ _ _ _ h := h
  body _ _ _ h := h
  complete _ status w _ _ _ h :=
    optionsSet_of_eq env w _ h (countResponse_attempts cfg env status w)
  close _ status w _ _ _ h :=
    reconnectSocket_options env _
      (optionsSet_of_eq env w _ h (countResponse_attempts cfg env status w))
  reconnect _ w _ h := reconnectSocket_options env w h
  reconnectDown w _ h := reconnectSocket_options env w h
  connect w _ _ h := optionsSet_of_eq env w _ h (socketConnected_attempts env w)
  write _ r w _ _ _ h _ := socketWriteable_options cfg env r w h
  writeError _ r w _ _ _ h _ := socketWriteable_options cfg env r w h
  writeDown r w _ _ _ h := socketWriteable_options cfg env r w h
  timer _ _ w _ _ _ h := optionsSet_of_eq env w _ h (createWritable_attempts _ _)
  timerDown _ w _ _ _ h := optionsSet_of_eq env w _ h (createWritable_attempts _ _)

/-! ### Plain runs -/

theorem options_append (pre log : List Obs) : options (pre ++ log) = options pre + options log := by
  induction pre with
  | nil => rw [List.nil_append, options, Nat.zero_add]
  | cons o pre ih =>
      cases o with
      | sslSetOptions =>
          simp only [List.cons_append, options, ih]
          omega
      | _ => exact ih

/-- Without a table only the direct call is left. -/
theorem entries_plain (cfg : Config) (env : Env) (w : World) (a : Act) :
    entries cfg env .plain w a = [] := by
  have hread : ∀ reads v, readEntries cfg env .plain reads v = [] := by
    intro reads
    induction reads with
    | nil => exact fun _ => rfl
    | cons r reads ih =>
        intro v
        unfold readEntries
        -- A plain socket never enters the library, whatever it returns.
        cases r.result with
        | ok data =>
            dsimp only [Sock.plain, List.nil_append]
            split_ifs
            · rfl
            · exact ih _
            · rfl
            · rfl
        | error => rfl
        | retry => rfl
  unfold entries
  cases a with
  | readable io =>
      cases w.c.readable with
      | none => rfl
      | some p =>
          cases p with
          | socketReadable => exact hread io.reads w
          | _ => rfl
  | writable io =>
      cases w.c.writable with
      | none => rfl
      | some p =>
          cases p with
          | socketWriteable => exact ite_self _
          | _ => rfl
  | timer i => rfl

theorem closeCalls_plain (before after : List Obs) : closeCalls .plain before after = [] := by
  unfold closeCalls Sock.plain
  rw [List.flatten_replicate_nil]

/-- An invariant of a plain run: what has been called, and how often. -/
structure PlainCalls (copy : Copy) (cfg : Config) (env : Env) (s : Tls) : Prop where
  holds : Holds cfg (fun _ w => OptionsSet env w) (OptionsSet env) s.world
  calls : s.calls = directCalls copy [] s.world.c.log

theorem directCalls_trans (copy : Copy) (pre log : List Obs) :
    directCalls copy [] log ++ directCalls copy log (pre ++ log) =
      directCalls copy [] (pre ++ log) := by
  cases copy with
  | src =>
      simp only [directCalls, options_append, options, Nat.sub_zero, Nat.add_sub_cancel]
      rw [← List.replicate_add, Nat.add_comm]
  | offload => rfl

theorem plainCalls_start (copy : Copy) (cfg : Config) (env : Env) (t : Thread) :
    PlainCalls copy cfg env (Tls.start copy cfg env t) := by
  refine ⟨threadMain_holds cfg env _ _ t ?_, rfl⟩
  exact connectSocket_options env _ rfl

theorem plainCalls_step (copy : Copy) (cfg : Config) (env : Env) (s s' : Tls) (a : Act)
    (h : PlainCalls copy cfg env s) (hs : s.step copy .plain cfg env a = some s') :
    PlainCalls copy cfg env s' := by
  rcases Option.map_eq_some_iff.mp hs with ⟨w, hw, rfl⟩
  have hmoves := step_moves cfg env _ _ s.world w a h.holds hw
  rcases moves_log cfg env _ _ hmoves with ⟨pre, hpre⟩
  have hlog : w.c.log = pre ++ s.world.c.log := hpre
  refine ⟨step_holds cfg env _ _ (keeps_options cfg env) s.world w a h.holds hw, ?_⟩
  dsimp only
  rw [entries_plain, closeCalls_plain, List.append_nil, List.append_nil, h.calls, hlog]
  exact directCalls_trans copy pre s.world.c.log

theorem plainCalls_reaches (copy : Copy) (cfg : Config) (env : Env) (t : Thread) (s : Tls)
    (hreach : Transition.Reaches (Tls.step copy .plain cfg env) (Tls.start copy cfg env t) s) :
    PlainCalls copy cfg env s :=
  Transition.reaches_invariant _ (PlainCalls copy cfg env)
    (fun u a u' hu hs => plainCalls_step copy cfg env u u' a hu hs) _ s
    (plainCalls_start copy cfg env t) hreach

/-- A run keeps the null handle out of OpenSSL exactly if it has handles, or
    if every attempt to connect so far has been refused. -/
theorem noNullCall_iff (cfg : Config) (env : Env) (t : Thread) (schema : Bytes) (s : Tls)
    (hreach : Transition.Reaches (Tls.step .src (mainSetup schema).sock cfg env)
      (Tls.start .src cfg env t) s) :
    NoNullCall (mainSetup schema) s ↔
      bytes "https" <+: schema ∨ ∀ i < s.world.c.connects, env.connect i = .refused := by
  unfold NoNullCall mainSetup at *
  by_cases hhttps : (bytes "https").isPrefixOf schema = true
  · rw [if_pos hhttps]
    have hprefix := List.isPrefixOf_iff_prefix.mp hhttps
    exact ⟨fun _ => Or.inl hprefix, fun _ h => absurd h.symm Bool.false_ne_true⟩
  · rw [if_neg hhttps] at hreach ⊢
    have hprefix : ¬ bytes "https" <+: schema :=
      fun h => hhttps (List.isPrefixOf_iff_prefix.mpr h)
    have hinv := plainCalls_reaches .src cfg env t s hreach
    have hset : OptionsSet env s.world := by
      by_cases hup : s.world.c.up
      · rcases hinv.holds.up hup with ⟨_, _, hset⟩
        exact hset
      · exact hinv.holds.down hup
    have hcount : options s.world.c.log = env.unrefused s.world.c.connects := hset
    rw [← unrefused_zero_iff, hinv.calls]
    simp only [directCalls, options, Nat.sub_zero, List.replicate_eq_nil_iff, hcount, hprefix,
      false_or, forall_const]

/-- A plain run of the other copy always does. -/
theorem offload_noNullCall (cfg : Config) (env : Env) (t : Thread) (setup : Setup) (s : Tls)
    (hreach : Transition.Reaches (Tls.step .offload .plain cfg env)
      (Tls.start .offload cfg env t) s) : NoNullCall setup s :=
  fun _ => (plainCalls_reaches .offload cfg env t s hreach).calls

/-- A request and its response. -/
def oneRequest : List Act :=
  [.writable (.serving 0 []), .writable (.serving 99 []),
    .readable (.serving 0 [bytes "HTTP/1.1 204 No Content\r\n\r\n"])]

/-- Over `https` every call is made with a handle. In a plain run whose first
    attempt to connect is refused none is made. -/
theorem noNullCall_request :
    (∃ s, Transition.run (Tls.step .src (mainSetup (bytes "https")).sock Config.plain Env.plain)
        (Tls.start .src Config.plain Env.plain (Thread.zero 10)) oneRequest = some s ∧
      s.calls = [.setOptions, .setFd, .setTlsextHostName, .connect, .write, .read] ∧
      NoNullCall (mainSetup (bytes "https")) s) ∧
      NoNullCall (mainSetup (bytes "http"))
        (Tls.start .src Config.plain { Env.plain with connect := fun _ => .refused }
          (Thread.zero 10)) := by
  constructor
  -- A table of `ssl.c`, with handles.
  · have h : (Transition.run (Tls.step .src (mainSetup (bytes "https")).sock Config.plain Env.plain)
        (Tls.start .src Config.plain Env.plain (Thread.zero 10)) oneRequest).map Tls.calls =
        some [.setOptions, .setFd, .setTlsextHostName, .connect, .write, .read] := by
      decide +kernel
    rcases Option.map_eq_some_iff.mp h with ⟨s, hs, hcalls⟩
    exact ⟨s, hs, hcalls, (noNullCall_iff Config.plain Env.plain (Thread.zero 10) (bytes "https") s
      ⟨oneRequest, hs⟩).mpr (Or.inl (List.prefix_refl _))⟩
  · refine (noNullCall_iff Config.plain { Env.plain with connect := fun _ => .refused }
      (Thread.zero 10) (bytes "http") _ (Transition.reaches_refl _ _)).mpr (Or.inr ?_)
    exact fun _ _ => rfl

/-- The first descriptor of a plain run is enough to call `SSL_set_options`
    with the null handle. -/
theorem connect_nullCall :
    ¬ NoNullCall (mainSetup (bytes "http"))
      (Tls.start .src Config.plain Env.plain (Thread.zero 10)) := by
  intro h
  exact absurd (h (by decide)) (by decide)

end Wrk
