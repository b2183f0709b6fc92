import Wrk.Connection.Pending
import Wrk.Core.Interleave
import Mathlib.Algebra.Order.BigOperators.Group.Finset

/-!
# The Connections of a Thread

A worker thread has several connections, which share its counters and nothing
else. Its event loop handles one event of one of them at a time, in any
order: the thread is the memory of an interleaving, and a connection with the
events still to come is the local state.

What a run of one connection shows, it shows here, since the counters of the
thread never reach a connection. The number of completed responses is the
sum over the connections, and so is the bound on it.

## Main definitions

* `Local`: A connection, its environment and the events to come.
* `worker`: The thread after every connection has been set up.

## Theorems

* `worker_holds`: What the handlers keep, every connection has.
* `worker_complete_le`: The responses counted are no more than completed.
* `worker_pending`: The number pending wraps, or too many complete, exactly
  if some connection is not paced.
-/

namespace Wrk

open HttpParser Transition Interleave

/-- A connection, its environment, and the events that are to come. -/
structure Local where
  env : Env
  c : Conn
  acts : List Act

/-- The next event of one connection. -/
def localStep (cfg : Config) (t : Thread) (l : Local) : Option (Thread × Local) :=
  match l.acts with
  | [] => none
  | a :: acts =>
      (step cfg l.env ⟨t, l.c⟩ a).map (fun w => (w.thread, { l with c := w.c, acts := acts }))

/-- `thread_main`: the connections are set up one after another. -/
def worker (cfg : Config) {n : Nat} (envs : Fin n → Env) (acts : Fin n → List Act) (M : Nat) :
    Interleave.Config Thread Local n :=
  { mem := (List.finRange n).foldl (fun t i => (threadMain cfg (envs i) t).thread) (.zero M)
    thread := fun i =>
      { env := envs i, c := (threadMain cfg (envs i) (.zero M)).c, acts := acts i } }

theorem localStep_cases (cfg : Config) (t t' : Thread) (l l' : Local)
    (h : localStep cfg t l = some (t', l')) :
    ∃ a, step cfg l.env ⟨t, l.c⟩ a = some ⟨t', l'.c⟩ ∧ l'.env = l.env := by
  unfold localStep at h
  cases hacts : l.acts with
  | nil =>
      simp only [hacts, reduceCtorEq] at h
  | cons a acts =>
      rw [hacts] at h
      simp only [Option.map_eq_some_iff, Prod.mk.injEq] at h
      rcases h with ⟨w, hw, rfl, rfl⟩
      exact ⟨a, hw, rfl⟩

/-- What is kept by the handlers and does not depend on the thread holds of
    every connection. -/
theorem worker_holds (cfg : Config) {n : Nat} (envs : Fin n → Env) (acts : Fin n → List Act)
    (M : Nat) (J : Fin n → Phase → Conn → Prop) (K : Fin n → Conn → Prop)
    (hk : ∀ i, Keeps cfg (envs i) (fun ph w => J i ph w.c) (fun w => K i w.c))
    (h0 : ∀ i, K i (threadMain cfg (envs i) (.zero M)).c) (s : Interleave.Config Thread Local n)
    (hr : Reaches (stepThread (localStep cfg)) (worker cfg envs acts M) s) :
    ∀ i, (s.thread i).env = envs i ∧
      Holds cfg (fun ph w => J i ph w.c) (fun w => K i w.c) ⟨s.mem, (s.thread i).c⟩ := by
  refine assertion_of_reaches (localStep cfg) (fun _ _ => True)
    (fun i t l => l.env = envs i ∧
      Holds cfg (fun ph w => J i ph w.c) (fun w => K i w.c) ⟨t, l.c⟩)
    (fun _ _ _ _ _ => trivial) ?_ ?_ (worker cfg envs acts M) s ?_ hr
  · -- Another connection changes only the thread.
    rintro i t t' l ⟨henv, hreg, hup, hdown⟩ _
    exact ⟨henv, hreg, hup, hdown⟩
  · rintro i t l t' l' ⟨henv, hl⟩ hstep
    rcases localStep_cases cfg t t' l l' hstep with ⟨a, ha, henv'⟩
    rw [henv] at ha
    exact ⟨henv'.trans henv, step_holds cfg (envs i) _ _ (hk i) _ _ a hl ha⟩
  · intro i
    have h := threadMain_holds cfg (envs i) (fun ph w => J i ph w.c) (fun w => K i w.c)
      (.zero M) (h0 i)
    exact ⟨rfl, h.registered, h.up, h.down⟩

/-- Every connection of the thread is reached by moves. -/
theorem worker_moves (cfg : Config) {n : Nat} (envs : Fin n → Env) (acts : Fin n → List Act)
    (M : Nat) (s : Interleave.Config Thread Local n)
    (hr : Reaches (stepThread (localStep cfg)) (worker cfg envs acts M) s) (i : Fin n) :
    Moves cfg (envs i) (Writer.zero cfg) (s.thread i).c.writer := by
  have h := (worker_holds cfg envs acts M
    (fun i _ c => Moves cfg (envs i) (Writer.zero cfg) c.writer)
    (fun i c => Moves cfg (envs i) (Writer.zero cfg) c.writer)
    (fun i => keeps_moves cfg (envs i) (Writer.zero cfg))
    (fun i => connectSocket_moves cfg (envs i) { thread := .zero M, c := Conn.zero cfg } rfl)
    s hr i).2
  by_cases hup : (s.thread i).c.up
  · rcases h.up hup with ⟨_, _, hm⟩
    exact hm
  · exact h.down hup

/-! ### Counting completed responses -/

/-- The responses counted by the thread and recorded by the connection. -/
def World.tally (w : World) : Nat × Nat := (w.thread.complete, completes w.c.log)

theorem createWritable_tally (w : World) (p : Proc) : (createWritable w p).tally = w.tally :=
  createWritable_frame World.tally w p rfl

theorem connectSocket_tally (env : Env) (w : World) : (connectSocket env w).tally = w.tally := by
  unfold connectSocket
  dsimp only
  cases env.connect w.c.connects with
  | ok => rfl
  | refused => rfl
  | unregistered => rfl

theorem reconnectSocket_tally (env : Env) (w : World) :
    (reconnectSocket env w).tally = w.tally :=
  (connectSocket_tally env (closeSocket w)).trans rfl

theorem offering_tally (cfg : Config) (env : Env) (w : World) :
    (offering cfg env w).tally = w.tally := by
  unfold offering startBatch
  by_cases hw : w.c.written = 0
  · rw [if_pos hw]
    by_cases hd : cfg.dynamic = true
    · rw [if_pos hd]
      rfl
    · rw [if_neg hd]
      rfl
  · rw [if_neg hw]

theorem socketWriteable_tally (cfg : Config) (env : Env) (r : WriteResult) (w : World) :
    (socketWriteable cfg env r w).tally = w.tally := by
  have ho := offering_tally cfg env w
  rcases socketWriteable_cases cfg env r w with ⟨_, h⟩ | ⟨_, ⟨_, h⟩ | ⟨_, h⟩ | ⟨more, _, h⟩⟩
  · rw [h]
    rfl
  · rw [h, ho]
  · rw [h, reconnectSocket_tally]
    exact ho
  · rw [h, ← ho]
    unfold acceptBytes
    dsimp only
    split_ifs
    · rfl
    · rfl

theorem socketConnected_tally (env : Env) (w : World) :
    (socketConnected env .ok w).tally = w.tally := by
  unfold socketConnected createReadable createWritable
  by_cases hopen : w.c.fdOpen = true
  · simp only [World.setParser, hopen, if_true]
    rfl
  · simp only [World.setParser, hopen, if_false, Bool.false_eq_true]
    rfl

theorem tellScript_tally (status : Nat) (w : World) : (tellScript status w).tally = w.tally :=
  tellScript_frame World.tally status w rfl

/-- A response is counted once by the thread and once by the record. -/
theorem countResponse_tally (cfg : Config) (env : Env) (status : Nat) (w : World) :
    (countResponse cfg env status w).tally =
      (wrap64 (w.thread.complete + 1), completes w.c.log + 1) := by
  have htell := tellScript_tally status (countComplete status (timeUs env w).2)
  unfold countResponse lastResponse
  split_ifs
  · unfold batchDone
    dsimp only
    rw [createWritable_tally]
    exact htell
  · exact htell

/-- The thread counts no more than is recorded after this state. -/
def Tallied (w v : World) : Prop := v.tally.1 + w.tally.2 ≤ w.tally.1 + v.tally.2

theorem tallied_of_eq (w v v' : World) (h : Tallied w v) (heq : v'.tally = v.tally) :
    Tallied w v' := by
  unfold Tallied at h ⊢
  rw [heq]
  exact h

theorem tallied_countResponse (cfg : Config) (env : Env) (status : Nat) (w v : World)
    (h : Tallied w v) : Tallied w (countResponse cfg env status v) := by
  have hcount := countResponse_tally cfg env status v
  have hwrap := wrap64_le (v.thread.complete + 1)
  unfold Tallied at h ⊢
  rw [hcount]
  simp only [World.tally] at h ⊢
  omega

theorem keeps_tallied (cfg : Config) (env : Env) (w : World) :
    Keeps cfg env (fun _ v => Tallied w v) (fun v => Tallied w v) where
  counters _ _ _ _ _ h := h
  countersDown _ _ _ _ h := h
  parser _ _ _ h := h
  parserDown _ _ h := h
  field _ _ _ h := h
  value _ _ _ _ h := h
  body _ _ _ h := h
  complete _ status v _ _ _ h := tallied_countResponse cfg env status w v h
  close _ status v _ _ _ h :=
    tallied_of_eq w _ _ (tallied_countResponse cfg env status w v h) (reconnectSocket_tally env _)
  reconnect _ v _ h := tallied_of_eq w v _ h (reconnectSocket_tally env v)
  reconnectDown v _ h := tallied_of_eq w v _ h (reconnectSocket_tally env v)
  connect v _ _ h := tallied_of_eq w v _ h (socketConnected_tally env v)
  write _ r v _ _ _ h _ := tallied_of_eq w v _ h (socketWriteable_tally cfg env r v)
  writeError _ r v _ _ _ h _ := tallied_of_eq w v _ h (socketWriteable_tally cfg env r v)
  writeDown r v _ _ _ h := tallied_of_eq w v _ h (socketWriteable_tally cfg env r v)
  timer _ _ v _ _ _ h := tallied_of_eq w v _ h (createWritable_tally _ _)
  timerDown _ v _ _ _ h := tallied_of_eq w v _ h (createWritable_tally _ _)

/-- One event of a connection, whatever else is known of it. -/
theorem step_tallied (cfg : Config) (env : Env) (J : Phase → World → Prop) (K : World → Prop)
    (w w' : World) (a : Act) (h : Holds cfg J K w) (hs : step cfg env w a = some w') :
    Tallied w w' := by
  have hself : Tallied w w := Nat.le_refl _
  have hw : Holds cfg (fun _ v => Tallied w v) (fun v => Tallied w v) w := by
    refine ⟨h.registered, fun hup => ?_, fun _ => hself⟩
    rcases h.up hup with ⟨ph, hagrees, _⟩
    exact ⟨ph, hagrees, hself⟩
  have hw' := step_holds cfg env _ _ (keeps_tallied cfg env w) w w' a hw hs
  by_cases hup : w'.c.up
  · rcases hw'.up hup with ⟨_, _, ht⟩
    exact ht
  · exact hw'.down hup

theorem worker_zero (cfg : Config) {n : Nat} (envs : Fin n → Env) (acts : Fin n → List Act)
    (M : Nat) : (worker cfg envs acts M).mem.complete = 0 := by
  have hfold : ∀ (l : List (Fin n)) (t : Thread), t.complete = 0 →
      (l.foldl (fun t i => (threadMain cfg (envs i) t).thread) t).complete = 0 := by
    intro l
    induction l with
    | nil => exact fun _ ht => ht
    | cons i l ih =>
        intro t ht
        refine ih _ ?_
        have hc := connectSocket_tally (envs i) { thread := t, c := Conn.zero cfg }
        exact (congrArg Prod.fst hc).trans ht
  exact hfold _ (.zero M) rfl

/-- The responses counted by the thread are no more than its connections have
    recorded. -/
theorem worker_complete_le (cfg : Config) {n : Nat} (envs : Fin n → Env)
    (acts : Fin n → List Act) (M : Nat) (s : Interleave.Config Thread Local n)
    (hr : Reaches (stepThread (localStep cfg)) (worker cfg envs acts M) s) :
    s.mem.complete ≤ ∑ i, completes (s.thread i).c.log := by
  refine counter_le_sum (localStep cfg)
    (fun i t l => l.env = envs i ∧ Holds cfg (fun _ _ => True) (fun _ => True) ⟨t, l.c⟩)
    Thread.complete (fun l => completes l.c.log) ?_ (worker cfg envs acts M) s ?_ ?_ hr
  · rintro i t l t' l' ⟨_, hl⟩ hstep
    rcases localStep_cases cfg t t' l l' hstep with ⟨a, ha, _⟩
    exact step_tallied cfg l.env _ _ _ _ a hl ha
  · intro d hd
    exact worker_holds cfg envs acts M (fun _ _ _ => True) (fun _ _ => True)
      (fun i => by constructor <;> intros <;> trivial) (fun _ => trivial) d hd
  · rw [worker_zero]
    exact Nat.zero_le _

/-- No response of a thread completes while nothing is pending on its
    connection, and no more complete than the batches started ask for, exactly
    if every connection is paced. -/
theorem worker_pending (cfg : Config) {n : Nat} (envs : Fin n → Env) (acts : Fin n → List Act)
    (M : Nat) (s : Interleave.Config Thread Local n)
    (hr : Reaches (stepThread (localStep cfg)) (worker cfg envs acts M) s) :
    ((∀ i, NeverZero (s.thread i).c.log) ∧
        s.mem.complete ≤ cfg.pipeline * ∑ i, batches (s.thread i).c.log) ↔
      ∀ i, Paced cfg.pipeline (s.thread i).c.log := by
  have hpacing : ∀ i, Pacing cfg.pipeline (s.thread i).c.writer := by
    intro i
    -- The pace of a thread is an invariant of its own writer.
    exact (moves_invariant cfg (envs i) (Pacing cfg.pipeline) (pacing_zero cfg)
      (fun wr wr' _ => pacing_move cfg (envs i) wr wr') _ (worker_moves cfg envs acts M s hr i)).2
  constructor
  · intro h i
    exact (hpacing i).iff.mp (h.1 i)
  · intro h
    refine ⟨fun i => (hpacing i).iff.mpr (h i), ?_⟩
    calc s.mem.complete ≤ ∑ i, completes (s.thread i).c.log :=
          worker_complete_le cfg envs acts M s hr
      _ ≤ ∑ i, cfg.pipeline * batches (s.thread i).c.log :=
          Finset.sum_le_sum (fun i _ => Nat.le_trans (Nat.le_add_right _ _)
            (completes_le cfg.pipeline (s.thread i).c.log (h i)))
      _ = cfg.pipeline * ∑ i, batches (s.thread i).c.log := (Finset.mul_sum _ _ _).symm

/-- A thread with one connection that writes its request at once and reads
    this answer. -/
def answeredBy (answer : Bytes) : Interleave.Config Thread Local 1 :=
  worker .plain (fun _ => .plain)
    (fun _ => [.writable (.serving 0 []), .writable (.serving 99 []),
      .readable (.serving 0 [answer])]) 10

theorem worker_pending_answered :
    ∃ s, run (stepThread (localStep .plain))
        (answeredBy (bytes "HTTP/1.1 200 OK\r\nContent-Length: 0\r\n\r\n")) [0, 0, 0] = some s ∧
      s.mem.complete = 1 ∧
      (((∀ i, NeverZero (s.thread i).c.log) ∧
          s.mem.complete ≤ Config.plain.pipeline * ∑ i, batches (s.thread i).c.log) ↔
        ∀ i, Paced Config.plain.pipeline (s.thread i).c.log) := by
  have h : (run (stepThread (localStep .plain))
      (answeredBy (bytes "HTTP/1.1 200 OK\r\nContent-Length: 0\r\n\r\n")) [0, 0, 0]).map
        (fun s => s.mem.complete) = some 1 := by decide +kernel
  rcases Option.map_eq_some_iff.mp h with ⟨s, hs, hcomplete⟩
  exact ⟨s, hs, hcomplete, worker_pending .plain _ _ 10 s ⟨[0, 0, 0], hs⟩⟩

/-- An interim response uses up the one that is due: the response itself finds
    nothing pending, and is one too many. -/
theorem interim_wraps :
    ∃ s, run (stepThread (localStep .plain))
        (answeredBy (bytes
          "HTTP/1.1 100 Continue\r\n\r\nHTTP/1.1 200 OK\r\nContent-Length: 0\r\n\r\n"))
        [0, 0, 0] = some s ∧
      ¬ NeverZero (s.thread 0).c.log ∧ (s.thread 0).c.pending = uint64Max ∧
      Config.plain.pipeline * ∑ i, batches (s.thread i).c.log < s.mem.complete := by
  have h : (run (stepThread (localStep .plain))
      (answeredBy (bytes
        "HTTP/1.1 100 Continue\r\n\r\nHTTP/1.1 200 OK\r\nContent-Length: 0\r\n\r\n"))
      [0, 0, 0]).map (fun s => ((s.thread 0).c.log.take 1, (s.thread 0).c.pending,
        decide (Config.plain.pipeline * ∑ i, batches (s.thread i).c.log < s.mem.complete))) =
          some ([.complete 0 200 0 0], uint64Max, true) := by decide +kernel
  rcases Option.map_eq_some_iff.mp h with ⟨s, hs, hend⟩
  simp only [Prod.mk.injEq] at hend
  rcases hend with ⟨hlog, hpending, hmore⟩
  refine ⟨s, hs, fun hz => ?_, hpending, of_decide_eq_true hmore⟩
  rw [← List.take_append_drop 1 (s.thread 0).c.log, hlog] at hz
  exact Nat.lt_irrefl 0 hz.1

end Wrk
