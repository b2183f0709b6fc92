import Wrk.Connection.Attempts

/-!
# All Connections of a Process

The connections with everything that they have: buffers, parsers, counters and
timers as in `World`, and the descriptors that they share with each other and
with the rest of the process as in `Descriptor`. A handler runs on its
connection at once and leaves the calls that concern descriptors to its
thread, which makes them one by one while other threads run. The event loops
call handlers by their tables, in which a number may be another's by now.

## Main definitions

* `Fleet`: The state.
* `Fleet.step`: One step.
* `Fleet.apart`: No connection acts on a descriptor that something else holds.
* `Fleet.Inv`: The connections are as their handlers have left them.

## Theorems

* `step_process`: A step of the fleet is one of the process.
* `step_inv`: A step keeps what the handlers keep.
* `fleet_inv`: The same of every run.
* `fleet_moves`: Every connection is reached by moves of its writing side.
* `idle_entry`: A connection that is up has an entry in the loop.
-/

namespace Wrk

open HttpParser Transition Descriptor

/-- The descriptors, the counters of the threads, the connections, and how many
    attempts to connect of each are over. -/
structure Fleet (T C : Type) where
  process : Descriptor.Process T C
  thread : T → Thread
  conn : C → Conn
  tried : C → Nat

namespace Fleet

/-- What can happen: an event fires in a loop for a descriptor, with what the
    transport answers, or a timer of a connection; a thread makes its next call;
    something else opens or closes a descriptor. -/
inductive Act (T C : Type) where
  | readable (j : T) (fd : Nat) (io : Io)
  | writable (j : T) (fd : Nat) (io : Io)
  | timer (c : C) (i : Nat)
  | call (j : T) (ok : Bool)
  | otherOpens
  | otherCloses (fd : Nat)

variable {T C : Type}

/-- A connection and its thread. -/
def world (p : Descriptor.Setup T C) (s : Fleet T C) (c : C) : World :=
  ⟨s.thread (p.thread c), s.conn c⟩

/-- No call acts on a descriptor that is held by another than its
    connection. -/
def apart [DecidableEq C] (s : Fleet T C) : Act T C → Bool
  | .call j _ => s.process.apart j
  | _ => true

variable [DecidableEq T] [DecidableEq C]

/-- A handler has run on a connection. -/
def put (p : Descriptor.Setup T C) (s : Fleet T C) (c : C) (w : World)
    (q : Descriptor.Process T C) : Fleet T C :=
  { s with
    process := q
    thread := Function.update s.thread (p.thread c) w.thread
    conn := Function.update s.conn c w.c }

/-- Call a handler. The process is told what it has met. -/
def handle (cfg : Config) (env : C → Env) (p : Descriptor.Setup T C) (s : Fleet T C) (io : Io)
    (c : C) (proc : Proc) (act : Outcome → Descriptor.Act T C) : Option (Fleet T C) :=
  -- The handler runs to its end; its calls are made afterwards.
  let w := Wrk.runProc cfg (env c) io (s.world p c) proc
  (Descriptor.step p s.process (act (outcome io (s.conn c) w.c))).map (s.put p c w)

/-- The attempts that are over after a call. -/
def triedAfter (p : Descriptor.Setup T C) (s : Fleet T C) (c : C) (ok : Bool) (t : Task) :
    C → Nat :=
  Function.update s.tried c (if ends p ok t then s.tried c + 1 else s.tried c)

/-- One step, if it can occur. -/
def step (cfg : Config) (env : C → Env) (p : Descriptor.Setup T C) (s : Fleet T C) :
    Act T C → Option (Fleet T C)
  | .readable j fd io =>
      (s.process.loop j fd).bind fun r =>
        r.readable.bind fun proc => s.handle cfg env p io r.client proc (.readable j fd)
  | .writable j fd io =>
      (s.process.loop j fd).bind fun r =>
        r.writable.bind fun proc => s.handle cfg env p io r.client proc (.writable j fd)
  | .timer c i =>
      if i < (s.conn c).timers.length then
        (Descriptor.step p s.process (.timer c)).map
          (s.put p c (Wrk.delayRequest (s.world p c) i))
      else none
  | .call j ok =>
      match s.process.work j with
      | [] => none
      | (c, t) :: _ =>
          if s.process.admits p ((env c).connect (s.tried c)) c ok t then
            (Descriptor.step p s.process (.call j ok)).map fun q =>
              { s with process := q, tried := s.triedAfter p c ok t }
          else none
  | .otherOpens =>
      (Descriptor.step p s.process .otherOpens).map fun q => { s with process := q }
  | .otherCloses fd =>
      (Descriptor.step p s.process (.otherCloses fd)).map fun q => { s with process := q }

omit [DecidableEq T] [DecidableEq C] in
/-- `thread_main` of every thread. -/
def start (cfg : Config) (env : C → Env) (p : Descriptor.Setup T C) (M open_ : Nat) : Fleet T C :=
  { process := Descriptor.start p open_
    thread := fun j =>
      (p.connections j).foldl (fun t c => (threadMain cfg (env c) t).thread) (.zero M)
    conn := fun c => (threadMain cfg (env c) (.zero M)).c
    tried := fun _ => 0 }

/-- A step of the fleet is one of the process. -/
theorem step_process (cfg : Config) (env : C → Env) (p : Descriptor.Setup T C) (s s' : Fleet T C)
    (a : Act T C) (hs : s.step cfg env p a = some s') :
    ∃ b, Descriptor.step p s.process b = some s'.process := by
  have hmap : ∀ (b : Descriptor.Act T C) (f : Descriptor.Process T C → Fleet T C),
      (∀ q, (f q).process = q) → (Descriptor.step p s.process b).map f = some s' →
        ∃ b, Descriptor.step p s.process b = some s'.process := by
    intro b f hf hmap
    rcases Option.map_eq_some_iff.mp hmap with ⟨q, hq, rfl⟩
    exact ⟨b, hq.trans (congrArg some (hf q).symm)⟩
  cases a with
  | readable j fd io =>
      rcases Option.bind_eq_some_iff.mp hs with ⟨r, _, hs⟩
      rcases Option.bind_eq_some_iff.mp hs with ⟨proc, _, hs⟩
      exact hmap _ _ (fun _ => rfl) hs
  | writable j fd io =>
      rcases Option.bind_eq_some_iff.mp hs with ⟨r, _, hs⟩
      rcases Option.bind_eq_some_iff.mp hs with ⟨proc, _, hs⟩
      exact hmap _ _ (fun _ => rfl) hs
  | timer c i =>
      simp only [step] at hs
      split_ifs at hs
      exact hmap _ _ (fun _ => rfl) hs
  | call j ok =>
      simp only [step] at hs
      split at hs
      · cases hs
      · split_ifs at hs
        exact hmap _ _ (fun _ => rfl) hs
  | otherOpens | otherCloses =>
      simp only [step] at hs
      exact hmap _ _ (fun _ => rfl) hs

/-! ### What the handlers leave -/

omit [DecidableEq T] [DecidableEq C] in
theorem reconnectSocket_timers (env : Env) (w : World) :
    (Wrk.reconnectSocket env w).c.timers = w.c.timers := by
  unfold Wrk.reconnectSocket
  rcases connectSocket_cases env (closeSocket w) with ⟨_, h⟩ | ⟨_, _, _, h⟩
  · rw [h]
    rfl
  · rw [h]
    rfl

omit [DecidableEq T] [DecidableEq C] in
theorem countResponse_timers (cfg : Config) (env : Env) (status : Nat) (w : World) :
    (countResponse cfg env status w).c.timers = w.c.timers := by
  have htell := tellScript_frame (fun v => v.c.timers) status
    (countComplete status (timeUs env w).2) rfl
  unfold countResponse lastResponse
  split_ifs
  · unfold batchDone
    dsimp only
    exact (createWritable_frame (fun v => v.c.timers) _ _ rfl).trans htell
  · exact htell

omit [DecidableEq T] [DecidableEq C] in
/-- Reading leaves the timers alone. -/
theorem readKeeps_timers (cfg : Config) (env : Env) (timers : List Nat) :
    ReadKeeps cfg env (fun _ w => w.c.timers = timers) (fun w => w.c.timers = timers) where
  counters _ _ _ _ _ h := h
  countersDown _ _ _ _ h := h
  parser _ _ _ h := h
  parserDown _ _ h := h
  field _ _ _ h := h
  value _ _ _ _ h := h
  body _ _ _ h := h
  complete _ status w _ _ _ h := (countResponse_timers cfg env status w).trans h
  close _ status w _ _ _ h :=
    (reconnectSocket_timers env _).trans ((countResponse_timers cfg env status w).trans h)
  reconnect _ w _ h := (reconnectSocket_timers env w).trans h
  reconnectDown w _ h := (reconnectSocket_timers env w).trans h

omit [DecidableEq T] [DecidableEq C] in
theorem writeEnd_delayed_iff (r : WriteResult) (delayed : Bool) (new : List Obs) :
    writeEnd r delayed new = .delayed ↔ delayed = true := by
  unfold writeEnd
  cases delayed with
  | true => exact ⟨fun _ => rfl, fun _ => rfl⟩
  | false =>
      rw [if_neg Bool.false_ne_true]
      refine ⟨fun h => ?_, fun h => absurd h Bool.false_ne_true⟩
      cases r with
      | ok more =>
          dsimp only at h
          split at h <;> cases h
      | error | retry => cases h

omit [DecidableEq T] [DecidableEq C] in
/-- A handler creates a timer if it is told to delay, and touches no other. -/
theorem runProc_timers (cfg : Config) (env : Env) (io : Io) (w : World) (proc : Proc)
    (hreg : Wrk.Registered w.c) (hagrees : w.c.up → ∃ ph, Agrees w.c.parser ph)
    (hread : proc = .socketReadable → w.c.up) :
    (Wrk.runProc cfg env io w proc).c.timers.length =
      if proc = .socketWriteable ∧
          (outcome io w.c (Wrk.runProc cfg env io w proc).c).write = .delayed then
        w.c.timers.length + 1
      else w.c.timers.length := by
  cases proc with
  | socketConnected =>
      rw [if_neg (fun h => Proc.noConfusion h.1)]
      -- Whatever the handshake says, no timer is concerned.
      refine congrArg List.length ?_
      change (Wrk.socketConnected env io.connect w).c.timers = _
      cases io.connect with
      | retry => rfl
      | error => exact reconnectSocket_timers env (connectError w)
      | ok =>
          unfold Wrk.socketConnected
          exact (createWritable_frame (fun v => v.c.timers) _ _ rfl).trans (by
            unfold createReadable
            split_ifs <;> rfl)
  | socketReadable =>
      rw [if_neg (fun h => Proc.noConfusion h.1)]
      rcases hagrees (hread rfl) with ⟨ph, hph⟩
      have h := socketReadable_holds cfg env _ _ (readKeeps_timers cfg env w.c.timers) io.reads w
        (Or.inl ⟨ph, hph, hread rfl, hreg, rfl⟩)
      refine congrArg List.length ?_
      by_cases hup : (Wrk.socketReadable cfg env io.reads w).c.up
      · rcases h.up hup with ⟨_, _, hs⟩
        exact hs
      · exact h.down hup
  | socketWriteable =>
      -- Only the delayed branch creates a timer.
      have hoffer : (offering cfg env w).c.timers = w.c.timers := by
        unfold offering startBatch
        split_ifs <;> rfl
      have hwrite : (outcome io w.c (Wrk.runProc cfg env io w .socketWriteable).c).write = .delayed ↔
          w.c.delayed = true := writeEnd_delayed_iff io.write w.c.delayed _
      have hrun : Wrk.runProc cfg env io w .socketWriteable =
          Wrk.socketWriteable cfg env io.write w := rfl
      rcases socketWriteable_cases cfg env io.write w with
        ⟨hd, h⟩ | ⟨hd, ⟨hr, h⟩ | ⟨hr, h⟩ | ⟨more, hr, h⟩⟩
      · rw [if_pos ⟨rfl, hwrite.mpr hd⟩, hrun, h]
        exact List.length_append
      all_goals
        rw [if_neg (fun hand => Bool.false_ne_true (hd.symm.trans (hwrite.mp hand.2))), hrun, h]
      · rw [hoffer]
      · rw [reconnectSocket_timers]
        exact congrArg List.length hoffer
      · rcases acceptBytes_cases
            (min (more + 1) ((offering cfg env w).c.request.length - (offering cfg env w).c.written))
            (offering cfg env w) with ⟨_, _, hc⟩ | ⟨_, _, hc⟩
        · rw [hc, ← hoffer]
        · rw [hc, ← hoffer]

/-! ### Every run -/

section Rule

variable (cfg : Config) (env : C → Env) (p : Descriptor.Setup T C) (J : C → Phase → Conn → Prop)
  (K : C → Conn → Prop)

omit [DecidableEq T] in
/-- The event loops will have for every connection what its handlers have left
    it, and every connection has what they keep. -/
structure Inv (s : Fleet T C) : Prop where
  settled : Settled p env s.process s.tried fun c => (s.conn c).view
  timers : ∀ c, s.process.timers c = (s.conn c).timers.length
  holds : ∀ c, Holds cfg (fun ph w => J c ph w.c) (fun w => K c w.c) (s.world p c)

/-- A handler has run on one connection. -/
theorem put_inv (s : Fleet T C) (c : C) (w : World) (q : Descriptor.Process T C)
    (h : Inv cfg env p J K s)
    (hsettled : Settled p env q s.tried
      (Function.update (fun d => (s.conn d).view) c w.c.view))
    (htimers : ∀ d, q.timers d = if d = c then w.c.timers.length else s.process.timers d)
    (hw : Holds cfg (fun ph w => J c ph w.c) (fun w => K c w.c) w) :
    Inv cfg env p J K (s.put p c w q) where
  settled := by
    have hviews : (fun d => ((s.put p c w q).conn d).view) =
        Function.update (fun d => (s.conn d).view) c w.c.view := by
      funext d
      change (Function.update s.conn c w.c d).view = _
      by_cases hd : d = c
      · rw [hd, Function.update_self, Function.update_self]
      · rw [Function.update_of_ne hd, Function.update_of_ne hd]
    rw [hviews]
    exact hsettled
  timers d := by
    change q.timers d = (Function.update s.conn c w.c d).timers.length
    rw [htimers]
    by_cases hd : d = c
    · rw [if_pos hd, hd, Function.update_self]
    · rw [if_neg hd, Function.update_of_ne hd]
      exact h.timers d
  holds d := by
    by_cases hd : d = c
    · have hworld : (s.put p c w q).world p c = w := by
        unfold world put
        simp only [Function.update_self]
      rw [hd, hworld]
      exact hw
    · -- Another connection may at most have another thread.
      have hold := h.holds d
      have hconn : Function.update s.conn c w.c d = s.conn d := by rw [Function.update_of_ne hd]
      unfold world put
      dsimp only
      rw [hconn]
      exact ⟨hold.registered, hold.up, hold.down⟩

/-- The event loop calls the handler that its connection has registered. -/
theorem event_inv (hk : ∀ c, Keeps cfg (env c) (fun ph w => J c ph w.c) (fun w => K c w.c))
    (s : Fleet T C) (j : T) (fd : Nat) (io : Io) (r : Registration C) (proc : Proc)
    (h : Inv cfg env p J K s) (hr : s.process.loop j fd = some r) (hidle : s.process.work j = [])
    (hproc : r.readable = some proc ∨ r.writable = some proc) :
    let w := Wrk.runProc cfg (env r.client) io (s.world p r.client) proc
    Inv cfg env p J K (s.put p r.client w
      (s.process.handle j fd (outcome io (s.conn r.client) w.c) r.client proc)) := by
  intro w
  -- The entry is that of its connection: the number is not another's.
  rcases entry_view p env s.process s.tried _ h.settled j fd r hr with ⟨hj, hfd, _, hshown⟩
  have hview := hshown hidle
  subst hj
  have hreg := (h.holds r.client).registered
  have hagrees : (s.conn r.client).up → ∃ ph, Agrees (s.conn r.client).parser ph := by
    intro hup
    rcases (h.holds r.client).up hup with ⟨ph, hagrees, _⟩
    exact ⟨ph, hagrees⟩
  have hreadable : (s.conn r.client).readable = r.readable := congrArg View.readable hview
  have hwritable : (s.conn r.client).writable = r.writable := congrArg View.writable hview
  have hread : proc = .socketReadable → (s.conn r.client).up := by
    intro heq
    rcases hproc with hproc | hproc
    · exact hreadable.trans (hproc.trans (congrArg some heq))
    · exact absurd (hwritable.trans (hproc.trans (congrArg some heq))) hreg.writable
  -- The event is one of the connection's own.
  have hstep : ∃ a, Wrk.step cfg (env r.client) (s.world p r.client) a = some w := by
    rcases hproc with hproc | hproc
    · exact ⟨.readable io, Option.map_eq_some_iff.mpr ⟨proc, hreadable.trans hproc, rfl⟩⟩
    · exact ⟨.writable io, Option.map_eq_some_iff.mpr ⟨proc, hwritable.trans hproc, rfl⟩⟩
  rcases hstep with ⟨a, ha⟩
  have hcalls := runProc_calls cfg (env r.client) io (s.world p r.client) proc fd hreg hagrees hread
  have hfollows := follows_runProc (outcome io (s.conn r.client) w.c) r.client fd proc
  refine put_inv cfg env p J K s r.client w _ h ?_ (fun d => ?_)
    (step_holds cfg (env r.client) _ _ (hk r.client) _ w a (h.holds r.client) ha)
  -- The calls of the handler, and then its timers.
  · refine begin_settled p env s.process s.tried _ r.client _ _ w.c.view h.settled hidle
      (runProc_client _ r.client fd proc) (hfd.symm ▸ hfollows)
      (fun hno => absurd rfl (hno _ fd r hr)) ?_
    rw [mine_runProc]
    exact hcalls.symm
  · have htimers := runProc_timers cfg (env r.client) io (s.world p r.client) proc hreg hagrees hread
    change (if _ then Function.update _ _ _ else _ : C → Nat) d = _
    by_cases hdelay : proc = .socketWriteable ∧
        (outcome io (s.conn r.client) w.c).write = .delayed
    · rw [if_pos hdelay]
      by_cases hd : d = r.client
      · rw [if_pos hd, hd, Function.update_self, h.timers]
        exact (htimers.trans (if_pos hdelay)).symm
      · rw [if_neg hd, Function.update_of_ne hd]
    · rw [if_neg hdelay]
      by_cases hd : d = r.client
      · rw [if_pos hd, hd, h.timers]
        exact (htimers.trans (if_neg hdelay)).symm
      · rw [if_neg hd]

/-- A timer of a connection fires. -/
theorem timer_inv (hk : ∀ c, Keeps cfg (env c) (fun ph w => J c ph w.c) (fun w => K c w.c))
    (s : Fleet T C) (c : C) (i : Nat) (h : Inv cfg env p J K s)
    (hidle : s.process.work (p.thread c) = []) (hi : i < (s.conn c).timers.length) :
    Inv cfg env p J K (s.put p c (Wrk.delayRequest (s.world p c) i)
      { s.process with
        work := Function.update s.process.work (p.thread c) (Descriptor.delayRequest c)
        timers := Function.update s.process.timers c (s.process.timers c - 1) }) := by
  have hfollows : ∀ g, Follows g (mine c (Descriptor.delayRequest c)) := by
    intro g
    unfold Descriptor.delayRequest
    rw [mine_cons_self]
    exact .createOwn g _ (.nil g)
  refine put_inv cfg env p J K s c _ _ h ?_ (fun d => ?_)
    (delayRequest_holds cfg (env c) _ _ (hk c) i _ hi (h.holds c))
  · refine begin_settled p env s.process s.tried _ c _ _ _ h.settled hidle (fun t ht => ?_)
      (hfollows _) (fun _ => hfollows) ?_
    · rw [List.mem_singleton.mp ht]
    · have hcalls := createWritable_calls (env c)
        { s.world p c with
          c := { s.conn c with delayed := false, timers := (s.conn c).timers.eraseIdx i } }
      unfold Descriptor.delayRequest
      rw [mine_cons_self]
      exact hcalls.symm
  · have htimers : (Wrk.delayRequest (s.world p c) i).c.timers = (s.conn c).timers.eraseIdx i :=
      createWritable_frame (fun v => v.c.timers) _ _ rfl
    change Function.update s.process.timers c (s.process.timers c - 1) d = _
    by_cases hd : d = c
    · rw [if_pos hd, hd, Function.update_self, htimers, List.length_eraseIdx_of_lt hi, h.timers]
    · rw [if_neg hd, Function.update_of_ne hd]

/-- A step keeps what the handlers keep, if it acts on nothing of another's. -/
theorem step_inv (hk : ∀ c, Keeps cfg (env c) (fun ph w => J c ph w.c) (fun w => K c w.c))
    (s s' : Fleet T C) (a : Act T C) (h : Inv cfg env p J K s) (hapart : s.apart a = true)
    (hs : s.step cfg env p a = some s') : Inv cfg env p J K s' := by
  cases a with
  | readable j fd io =>
      rcases Option.bind_eq_some_iff.mp hs with ⟨r, hr, hs⟩
      rcases Option.bind_eq_some_iff.mp hs with ⟨proc, hproc, hs⟩
      rcases Option.map_eq_some_iff.mp hs with ⟨q, hq, rfl⟩
      simp only [Descriptor.step, hr, Option.bind_some, hproc, Option.map_some] at hq
      split_ifs at hq with hidle
      rw [← Option.some.inj hq]
      exact event_inv cfg env p J K hk s j fd io r proc h hr hidle (Or.inl hproc)
  | writable j fd io =>
      rcases Option.bind_eq_some_iff.mp hs with ⟨r, hr, hs⟩
      rcases Option.bind_eq_some_iff.mp hs with ⟨proc, hproc, hs⟩
      rcases Option.map_eq_some_iff.mp hs with ⟨q, hq, rfl⟩
      simp only [Descriptor.step, hr, Option.bind_some, hproc, Option.map_some] at hq
      split_ifs at hq with hidle
      rw [← Option.some.inj hq]
      exact event_inv cfg env p J K hk s j fd io r proc h hr hidle (Or.inr hproc)
  | timer c i =>
      simp only [step] at hs
      split_ifs at hs with hi
      rcases Option.map_eq_some_iff.mp hs with ⟨q, hq, rfl⟩
      simp only [Descriptor.step] at hq
      split_ifs at hq with hidle
      rw [← Option.some.inj hq]
      exact timer_inv cfg env p J K hk s c i h hidle.1 hi
  | call j ok =>
      simp only [step] at hs
      cases hwork : s.process.work j with
      | nil =>
          rw [hwork] at hs
          cases hs
      | cons t rest =>
          rw [hwork] at hs
          simp only at hs
          split_ifs at hs with hok
          rcases Option.map_eq_some_iff.mp hs with ⟨q, hq, rfl⟩
          simp only [Descriptor.step, hwork] at hq
          rw [← Option.some.inj hq]
          -- The one step for which the condition is needed.
          have hsettled := call_settled p env s.process s.tried _ j t.1 t.2 rest ok h.settled hwork
            hok hapart
          exact ⟨hsettled, fun c => (runTask_timers p s.process j t.1 rest ok t.2 c).trans
            (h.timers c), h.holds⟩
  | otherOpens =>
      simp only [step] at hs
      rcases Option.map_eq_some_iff.mp hs with ⟨q, hq, rfl⟩
      rw [← Option.some.inj hq]
      refine ⟨table_settled p env s.process s.tried _ _ h.settled fun g c => ?_, h.timers, h.holds⟩
      refine holder_openFd_other s.process.table .other (.conn c) g fun hc => ?_
      cases hc
  | otherCloses fd =>
      simp only [step] at hs
      rcases Option.map_eq_some_iff.mp hs with ⟨q, hq, rfl⟩
      simp only [Descriptor.step] at hq
      split_ifs at hq with hother
      rw [← Option.some.inj hq]
      refine ⟨table_settled p env s.process s.tried _ _ h.settled fun g c => ?_, h.timers, h.holds⟩
      refine holder_closeFd_other s.process.table fd g (.conn c) fun hg => ?_
      rw [hother] at hg
      cases hg

omit [DecidableEq T] in
theorem start_inv (M open_ : Nat) (h0 : ∀ c, K c (threadMain cfg (env c) (.zero M)).c) :
    Inv cfg env p J K (start cfg env p M open_) where
  settled :=
    { stands := fun c => by
        have hmem : c ∈ p.connections (p.thread c) := (p.mem_iff _ c).mpr rfl
        have hnobody : ∀ g, holder (start cfg env p M open_).process.table g ≠ some (.conn c) := by
          intro g hg
          change holder (List.replicate open_ (some .other)) g = _ at hg
          unfold holder at hg
          rw [List.getElem?_replicate] at hg
          split_ifs at hg <;> cases hg
        change Stands p _ _ c _ _ (mine c ((p.connections (p.thread c)).flatMap Descriptor.connectSocket))
        rw [mine_start c _ (p.nodup _), if_pos hmem]
        -- Nothing is open for the connection, and its first attempt is still to be made.
        refine .closed _ hnobody (fun _ _ _ hr => absurd hr.symm (Option.some_ne_none _))
          (.socket [] .nil) ?_
        exact (connectSocket_calls (env c) { thread := .zero M, c := Conn.zero cfg }).symm
      loops := fun _ _ _ hr => absurd hr.symm (Option.some_ne_none _)
      threads := (Descriptor.start_inv p open_).threads }
  timers c := by
    change 0 = (threadMain cfg (env c) (.zero M)).c.timers.length
    unfold threadMain
    rcases connectSocket_cases (env c) { thread := .zero M, c := Conn.zero cfg } with
      ⟨_, h⟩ | ⟨_, _, _, h⟩
    · rw [h]
      rfl
    · rw [h]
      rfl
  holds c := by
    have h := threadMain_holds cfg (env c) (fun ph w => J c ph w.c) (fun w => K c w.c) (.zero M)
      (h0 c)
    exact ⟨h.registered, h.up, h.down⟩

/-- What the handlers keep holds of every connection in every run in which no
    call acts on a descriptor of another's. -/
theorem fleet_inv (hk : ∀ c, Keeps cfg (env c) (fun ph w => J c ph w.c) (fun w => K c w.c))
    (M open_ : Nat) (h0 : ∀ c, K c (threadMain cfg (env c) (.zero M)).c) (s : Fleet T C)
    (hr : Reaches (onlyIf apart (step cfg env p)) (start cfg env p M open_) s) :
    Inv cfg env p J K s :=
  reaches_invariant _ (Inv cfg env p J K) (fun u a u' hu hs => by
    rcases onlyIf_some _ _ _ _ _ hs with ⟨hapart, hs⟩
    exact step_inv cfg env p J K hk u u' a hu hapart hs)
    _ s (start_inv cfg env p J K M open_ h0) hr

/-- Every connection is reached by moves. -/
theorem fleet_moves (M open_ : Nat) (s : Fleet T C)
    (hr : Reaches (onlyIf apart (step cfg env p)) (start cfg env p M open_) s) (c : C) :
    Moves cfg (env c) (Writer.zero cfg) (s.conn c).writer := by
  have h := (fleet_inv cfg env p (fun c _ d => Moves cfg (env c) (Writer.zero cfg) d.writer)
    (fun c d => Moves cfg (env c) (Writer.zero cfg) d.writer)
    (fun c => keeps_moves cfg (env c) (Writer.zero cfg)) M open_
    (fun c => connectSocket_moves cfg (env c) { thread := .zero M, c := Conn.zero cfg } rfl)
    s hr).holds c
  -- The rule speaks of connections with and without a descriptor.
  by_cases hup : (s.conn c).up
  · rcases h.up hup with ⟨_, _, hm⟩
    exact hm
  · exact h.down hup

omit [DecidableEq T] in
/-- Between events a connection that is up has an entry in the loop of its
    thread, with the handlers that it has registered. -/
theorem idle_entry (s : Fleet T C) (c : C) (h : Inv cfg env p J K s)
    (hidle : s.process.work (p.thread c) = []) (hup : (s.conn c).up) :
    ∃ r, s.process.loop (p.thread c) (s.process.fd c) = some r ∧ r.client = c ∧
      r.readable = (s.conn c).readable ∧ r.writable = (s.conn c).writable := by
  have hstands := h.settled.stands c
  rw [hidle] at hstands
  generalize hview : (s.conn c).view = v at hstands
  cases hstands with
  | registered _ r _ hr hclient _ _ _ hv =>
      have hshown := hv.trans hview.symm
      exact ⟨r, hr, hclient, congrArg View.readable hshown, congrArg View.writable hshown⟩
  | closed _ _ _ _ hv =>
      have hnone : none = (s.conn c).readable := congrArg View.readable (hv.trans hview.symm)
      exact absurd (hnone.trans hup) (Option.some_ne_none _).symm

end Rule

end Fleet

end Wrk
