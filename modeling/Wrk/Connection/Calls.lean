import Wrk.Connection.Descriptors
import Wrk.Connection.Writer

/-!
# The Calls of a Connection

The handlers of one connection, as `World` has them, make the calls that
`Descriptor` gives them. What a handler has met is read off the results of the
transport and the entries that it has left in the record. A connection on its
own numbers its descriptors so that none is used twice, and an attempt to
connect is one call; answered that way, the calls of a handler do to the
registration of the connection what the handler does.

## Main definitions

* `View`: What the event loop has for a connection.
* `outcome`: What a handler has met.
* `answer`: One call.
* `replies`, `answers`: The calls of a handler.

## Theorems

* `socketReadable_calls`, `socketWriteable_calls`: The calls of a handler.
* `step_calls`, `run_calls`: Every event makes the calls of a handler that is
  registered for it.
-/

namespace Wrk

/-- What the event loop has for the descriptor of a connection, and the number
    of attempts to connect. -/
structure View where
  fdOpen : Bool
  readable : Option Proc
  writable : Option Proc
  connects : Nat

def Conn.view (c : Conn) : View := ⟨c.fdOpen, c.readable, c.writable, c.connects⟩

namespace Descriptor

open HttpParser (Agrees)

/-- One call. Nothing can be registered for a descriptor that is not open. The
    last three calls of `connect_socket` are answered with the first. -/
def answer (env : Env) (v : View) : Task → View
  | .create _ true proc => if v.fdOpen then { v with readable := some proc } else v
  | .create _ false proc => if v.fdOpen then { v with writable := some proc } else v
  | .createOwn => if v.fdOpen then { v with writable := some .socketWriteable } else v
  | .delete _ => { v with writable := none }
  | .deleteOwn => { v with readable := none, writable := none }
  | .closeOwn => { v with fdOpen := false }
  | .socket =>
      match env.connect v.connects with
      | .ok => ⟨true, some .socketConnected, some .socketConnected, v.connects + 1⟩
      | _ => { v with connects := v.connects + 1 }
  | _ => v

/-- Several calls. -/
def replies (env : Env) (v : View) (tasks : List Task) : View := tasks.foldl (answer env) v

/-- The calls of a handler. -/
def answers (env : Env) (v : View) (calls : List (Unit × Task)) : View :=
  replies env v (mine () calls)

/-- What a handler that reads has done, by an entry of the record: the last
    pending response has completed, or the descriptor is replaced. -/
def responseOf : Obs → Option Response
  | .recorded _ _ => some ⟨true, true⟩
  | .closed _ _ _ _ _ => some ⟨false, false⟩
  | _ => none

/-- The same, of several entries, the newest first. -/
def responsesOf (new : List Obs) : List Response := new.reverse.filterMap responseOf

/-- How `socket_writeable` has ended. -/
def writeEnd (r : WriteResult) (delayed : Bool) (new : List Obs) : WriteEnd :=
  if delayed then .delayed
  else
    match r with
    | .retry => .retry
    | .error => .error
    | .ok _ =>
        match new with
        | .finished _ _ _ :: _ => .finished
        | _ => .partly

/-- The entries that have been added to a record. -/
def added (c c' : Conn) : List Obs := c'.log.take (c'.log.length - c.log.length)

/-- What a handler has met, by the connection before and after it. -/
def outcome (io : Io) (c c' : Conn) : Outcome :=
  { connect := io.connect
    write := writeEnd io.write c.delayed (added c c')
    responses := responsesOf (added c c')
    error := false }

theorem added_append (c c' : Conn) (new : List Obs) (h : c'.log = new ++ c.log) :
    added c c' = new := by
  unfold added
  rw [h, List.length_append, Nat.add_sub_cancel, List.take_left]

theorem responsesOf_append (new old : List Obs) :
    responsesOf (new ++ old) = responsesOf old ++ responsesOf new := by
  unfold responsesOf
  rw [List.reverse_append, List.filterMap_append]

/-- What was heard is no response. -/
theorem responsesOf_heard (told : List Obs) (h : ∀ o ∈ told, o.heard = true) :
    responsesOf told = [] := by
  refine List.filterMap_eq_nil_iff.mpr fun o ho => ?_
  have hheard := h o (List.mem_reverse.mp ho)
  cases o with
  | recorded | closed => cases hheard
  | _ => rfl

theorem answers_append (env : Env) (v : View) (calls calls' : List (Unit × Task)) :
    answers env v (calls ++ calls') = answers env (answers env v calls) calls' := by
  unfold answers replies
  rw [mine_append, List.foldl_append]

theorem connectSocket_calls (env : Env) (w : World) :
    (Wrk.connectSocket env w).c.view = answers env w.c.view (connectSocket ()) := by
  unfold Wrk.connectSocket
  dsimp only
  change _ = answer env w.c.view .socket
  simp only [answer, Conn.view]
  cases env.connect w.c.connects with
  | ok => rfl
  | refused => rfl
  | unregistered => rfl

theorem reconnectSocket_calls (env : Env) (w : World) :
    (Wrk.reconnectSocket env w).c.view = answers env w.c.view (reconnectSocket ()) :=
  connectSocket_calls env (closeSocket w)

theorem createWritable_calls (env : Env) (w : World) :
    (createWritable w .socketWriteable).c.view = answers env w.c.view (delayRequest ()) := by
  change _ = answer env w.c.view .createOwn
  unfold createWritable
  by_cases hopen : w.c.fdOpen = true
  · simp only [hopen, if_true, answer, Conn.view]
  · simp only [hopen, if_false, answer, Conn.view, Bool.false_eq_true]

theorem tellScript_view (status : Nat) (w : World) : (tellScript status w).c.view = w.c.view :=
  tellScript_frame (fun v => v.c.view) status w rfl

/-- An attempt to connect leaves no response in the record. -/
theorem connectSocket_log (env : Env) (w : World) :
    ∃ new, (Wrk.connectSocket env w).c.log = new ++ w.c.log ∧ responsesOf new = [] := by
  rcases connectSocket_cases env w with ⟨_, h⟩ | ⟨_, pre, hpre, h⟩
  · exact ⟨[.opened w.c.connects, .sslSetOptions], by rw [h]; rfl, rfl⟩
  · refine ⟨pre, by rw [h], responsesOf_heard pre fun o ho => ?_⟩
    rw [hpre o ho]
    rfl

/-- A handler that reads has made the calls of the responses that it has
    recorded since. -/
def Since (env : Env) (w v : World) : Prop :=
  ∃ new, v.c.log = new ++ w.c.log ∧
    v.c.view = answers env w.c.view ((responsesOf new).flatMap (responseComplete ()))

theorem since_append (env : Env) (w v v' : World) (new : List Obs) (h : Since env w v)
    (hlog : v'.c.log = new ++ v.c.log)
    (hview : v'.c.view = answers env v.c.view ((responsesOf new).flatMap (responseComplete ()))) :
    Since env w v' := by
  rcases h with ⟨old, hold, h⟩
  refine ⟨new ++ old, by rw [hlog, hold, List.append_assoc], ?_⟩
  rw [hview, h, responsesOf_append, List.flatMap_append, answers_append]

/-- A data callback, which is no response. -/
theorem since_data (env : Env) (w v v' : World) (o : Obs) (h : Since env w v)
    (ho : responseOf o = none) (hlog : v'.c.log = o :: v.c.log)
    (hview : v'.c.view = v.c.view) : Since env w v' := by
  refine since_append env w v v' [o] h hlog ?_
  rw [hview, responsesOf, List.reverse_singleton, List.filterMap_cons, ho]
  rfl

theorem since_reconnect (env : Env) (w v : World) (h : Since env w v) :
    Since env w (Wrk.reconnectSocket env v) := by
  rcases connectSocket_log env (closeSocket v) with ⟨new, hlog, hnone⟩
  refine since_append env w v _ (new ++ [_]) h (hlog.trans (List.append_cons new _ _)) ?_
  rw [responsesOf_append, hnone, List.append_nil]
  exact reconnectSocket_calls env v

/-- A response that completes is recorded if it is the last, and then writing
    is armed. -/
theorem since_complete (cfg : Config) (env : Env) (w v : World) (status : Nat) (hup : v.c.up)
    (hreg : Wrk.Registered v.c) (h : Since env w v) :
    Since env w (countResponse cfg env status v) := by
  have htell := tellScript_view status (countComplete status (timeUs env v).2)
  rcases countResponse_writer cfg env status v hup hreg with
    ⟨told, latency, accepted, htold, hwriter⟩
  have hlog := congrArg Writer.log hwriter
  rcases tellScript_writer status (countComplete status (timeUs env v).2) with ⟨_, _, hbefore⟩
  have hpending := congrArg Writer.pending hbefore
  rw [countComplete_writer] at hpending
  have hheard := responsesOf_heard told htold
  unfold countResponse lastResponse at hlog ⊢
  -- Only the last pending response is recorded, and arms writing.
  by_cases hlast : sub64 v.c.pending 1 = 0
  · have hdrop : (dropPending (tellScript status (countComplete status (timeUs env v).2))).c.pending
        = 0 := (congrArg (sub64 · 1) hpending).trans hlast
    rw [if_pos hlast] at hlog
    refine since_append env w v _ (.recorded latency accepted :: told ++ [_]) h
      (hlog.trans (congrArg _ (List.append_cons told _ _))) ?_
    rw [if_pos hdrop, List.cons_append, ← List.singleton_append, responsesOf_append,
      responsesOf_append, hheard]
    unfold batchDone
    dsimp only
    rw [createWritable_calls env]
    exact congrArg (fun v => answers env v (delayRequest ())) htell
  · have hdrop : (dropPending (tellScript status (countComplete status (timeUs env v).2))).c.pending
        ≠ 0 := fun hzero => hlast ((congrArg (sub64 · 1) hpending).symm.trans hzero)
    rw [if_neg hlast] at hlog
    refine since_append env w v _ (told ++ [_]) h (hlog.trans (List.append_cons _ _ _)) ?_
    rw [if_neg hdrop, responsesOf_append, hheard]
    exact htell

theorem readKeeps_since (cfg : Config) (env : Env) (w : World) :
    ReadKeeps cfg env (fun _ v => Since env w v) (fun v => Since env w v) where
  counters _ _ _ _ _ h := h
  countersDown _ _ _ _ h := h
  parser _ _ _ h := h
  parserDown _ _ h := h
  field _ d v h := since_data env w v _ (.headerField d) h rfl rfl rfl
  value _ d v _ h := since_data env w v _ (.headerValue d) h rfl rfl rfl
  body _ d v h := since_data env w v _ (.body d) h rfl rfl rfl
  complete _ status v _ hup hreg h := since_complete cfg env w v status hup hreg h
  close _ status v _ hup hreg h :=
    since_reconnect env w _ (since_complete cfg env w v status hup hreg h)
  reconnect _ v _ h := since_reconnect env w v h
  reconnectDown v _ h := since_reconnect env w v h

/-- `socket_readable`. Where it takes its error branch after the responses, the
    last of them is one after which nothing is registered. -/
theorem socketReadable_calls (cfg : Config) (env : Env) (io : Io) (w : World)
    (hup : w.c.up) (hreg : Wrk.Registered w.c) (hagrees : ∃ ph, Agrees w.c.parser ph) :
    (Wrk.socketReadable cfg env io.reads w).c.view =
      answers env w.c.view (socketReadable ()
        (outcome io w.c (Wrk.socketReadable cfg env io.reads w).c).responses false) := by
  rcases hagrees with ⟨ph, hph⟩
  have h := socketReadable_holds cfg env _ _ (readKeeps_since cfg env w) io.reads w
    (Or.inl ⟨ph, hph, hup, hreg, [], rfl, rfl⟩)
  -- Up or down, the handler has made the calls of its record.
  have hsince : Since env w (Wrk.socketReadable cfg env io.reads w) := by
    by_cases hup' : (Wrk.socketReadable cfg env io.reads w).c.up
    · rcases h.up hup' with ⟨_, _, hs⟩
      exact hs
    · exact h.down hup'
  rcases hsince with ⟨new, hlog, hview⟩
  rw [hview, outcome, added_append _ _ new hlog]
  exact congrArg (answers env w.c.view) (List.append_nil _).symm

/-- `socket_connected`. -/
theorem socketConnected_calls (env : Env) (r : SockStatus) (w : World) (fd : Nat) :
    (Wrk.socketConnected env r w).c.view = answers env w.c.view (socketConnected () fd r) := by
  cases r with
  | retry => rfl
  | error => exact reconnectSocket_calls env (connectError w)
  | ok =>
      unfold Wrk.socketConnected createReadable createWritable
      change _ = answer env (answer env w.c.view (.create fd true .socketReadable))
        (.create fd false .socketWriteable)
      by_cases hopen : w.c.fdOpen = true
      · simp only [World.setParser, hopen, if_true, World.note, Conn.view, answer]
      · simp only [World.setParser, hopen, if_false, World.note, Conn.view, answer,
          Bool.false_eq_true]

/-- `socket_writeable`. -/
theorem socketWriteable_calls (cfg : Config) (env : Env) (io : Io) (w : World) (fd : Nat) :
    (Wrk.socketWriteable cfg env io.write w).c.view =
      answers env w.c.view (socketWriteable () fd
        (outcome io w.c (Wrk.socketWriteable cfg env io.write w).c).write) := by
  -- Starting a batch makes no calls.
  have hoffer : (offering cfg env w).c.view = w.c.view ∧
      ∃ new, (offering cfg env w).c.log = new ++ w.c.log := by
    unfold offering startBatch
    split_ifs
    · exact ⟨rfl, [_], rfl⟩
    · exact ⟨rfl, [_], rfl⟩
    · exact ⟨rfl, [], rfl⟩
  rcases hoffer with ⟨hview, new, hlog⟩
  unfold outcome writeEnd
  dsimp only
  rcases socketWriteable_cases cfg env io.write w with
    ⟨hd, h⟩ | ⟨hd, ⟨hr, h⟩ | ⟨hr, h⟩ | ⟨more, hr, h⟩⟩
  · rw [h, if_pos hd]
    rfl
  · rw [h, if_neg (Bool.eq_false_iff.mp hd), hr]
    exact hview
  · rw [h, if_neg (Bool.eq_false_iff.mp hd), hr, reconnectSocket_calls]
    exact congrArg (fun v => answers env v (reconnectSocket ())) hview
  · rw [h, if_neg (Bool.eq_false_iff.mp hd), hr]
    rcases acceptBytes_cases
        (min (more + 1) ((offering cfg env w).c.request.length - (offering cfg env w).c.written))
        (offering cfg env w) with ⟨_, _, hc⟩ | ⟨_, _, hc⟩
    · rw [hc, added_append w.c _ (_ :: _ :: new)
        (congrArg (fun l => _ :: _ :: l) hlog), ← hview]
      rfl
    · rw [hc, added_append w.c _ (_ :: new) (congrArg (fun l => _ :: l) hlog)]
      exact hview

/-- The handler that an event calls, and its calls. -/
inductive Called (w w' : World) (fd : Nat) : Wrk.Act → List (Unit × Task) → Prop
  | readable (io : Io) (proc : Proc) : w.c.readable = some proc →
      Called w w' fd (.readable io) (runProc (outcome io w.c w'.c) () fd proc)
  | writable (io : Io) (proc : Proc) : w.c.writable = some proc →
      Called w w' fd (.writable io) (runProc (outcome io w.c w'.c) () fd proc)
  | timer (i : Nat) : i < w.c.timers.length → Called w w' fd (.timer i) (delayRequest ())

/-- A handler makes its calls. -/
theorem runProc_calls (cfg : Config) (env : Env) (io : Io) (w : World) (proc : Proc) (fd : Nat)
    (hreg : Wrk.Registered w.c) (hup : w.c.up → ∃ ph, Agrees w.c.parser ph)
    (hread : proc = .socketReadable → w.c.up) :
    (Wrk.runProc cfg env io w proc).c.view =
      answers env w.c.view
        (runProc (outcome io w.c (Wrk.runProc cfg env io w proc).c) () fd proc) := by
  cases proc with
  | socketConnected => exact socketConnected_calls env io.connect w fd
  | socketWriteable => exact socketWriteable_calls cfg env io w fd
  | socketReadable =>
      exact socketReadable_calls cfg env io w (hread rfl) hreg (hup (hread rfl))

/-- Every event makes the calls of the handler that it calls. -/
theorem step_calls (cfg : Config) (env : Env) (w w' : World) (a : Wrk.Act) (fd : Nat)
    (hreg : Wrk.Registered w.c) (hup : w.c.up → ∃ ph, Agrees w.c.parser ph)
    (hs : Wrk.step cfg env w a = some w') :
    ∃ calls, Called w w' fd a calls ∧ w'.c.view = answers env w.c.view calls := by
  cases a with
  | readable io =>
      rcases Option.map_eq_some_iff.mp hs with ⟨proc, hproc, rfl⟩
      exact ⟨_, .readable io proc hproc, runProc_calls cfg env io w proc fd hreg hup
        (fun heq => heq ▸ hproc : proc = .socketReadable → w.c.readable = some .socketReadable)⟩
  | writable io =>
      rcases Option.map_eq_some_iff.mp hs with ⟨proc, hproc, rfl⟩
      exact ⟨_, .writable io proc hproc, runProc_calls cfg env io w proc fd hreg hup
        (fun heq => absurd (heq ▸ hproc) hreg.writable)⟩
  | timer i =>
      simp only [Wrk.step] at hs
      split_ifs at hs with hi
      rw [← Option.some.inj hs]
      exact ⟨_, .timer i hi, createWritable_calls env _⟩

/-- The same in every run. -/
theorem run_calls (cfg : Config) (env : Env) (t : Thread) (as : List Wrk.Act) (w w' : World)
    (a : Wrk.Act) (fd : Nat)
    (hrun : Transition.run (Wrk.step cfg env) (threadMain cfg env t) as = some w)
    (hs : Wrk.step cfg env w a = some w') :
    ∃ calls, Called w w' fd a calls ∧ w'.c.view = answers env w.c.view calls := by
  have h := run_holds cfg env (fun _ _ => True) (fun _ => True)
    (by constructor <;> intros <;> trivial) t trivial as w hrun
  refine step_calls cfg env w w' a fd h.registered (fun hup => ?_) hs
  rcases h.up hup with ⟨ph, hagrees, _⟩
  exact ⟨ph, hagrees⟩

end Descriptor

end Wrk
