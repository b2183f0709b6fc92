import Wrk.Connection.World
import Wrk.Core.Transition
import Mathlib.Logic.Function.Basic

/-!
# Descriptors of a Process

All threads of the process share one table of descriptors, in which the lowest
free number is taken first. Each has an event loop of its own, with a table of
registrations indexed by descriptor. Between any two calls of one thread the
others may run, so that a number that one of them closes can be taken by
another before it opens the next.

Here a handler is the list of the calls it makes that concern descriptors, each
a task of its thread. What the transport and the parser answer is left open;
what the calls answer comes with each step. The counters and buffers are in
the model of one connection.

`connect_socket` closes a descriptor that it cannot use, but leaves the number
of the one before in the connection. Whatever the connection does next it does
to that number, which may be another's by then.

## Main definitions

* `Process`: The table, the loops, and what each thread has still to do.
* `socketConnected`, `socketWriteable`, `socketReadable`: The calls of the
  handlers.
* `runTask`: One call.
* `step`: One step of the process.
* `actsOn`: The descriptor that the next call of a thread acts on.
* `Owns`, `Live`: What is asked of it, and of a thread that waits for events.
* `Standing`, `Inv`: Where a connection stands between its calls.

## Theorems

* `call_inv`: A call keeps the invariant, unless it fails to connect.
* `follows_runProc`: What the calls of a handler act on.
* `descriptors_owned`: If no attempt to connect fails, every call acts on a
  descriptor of its connection, and none is lost.
-/

namespace Wrk

namespace Descriptor

open Transition

/-- Who opened a descriptor: a connection, or something else in the process. -/
inductive Holder (C : Type) where
  | conn (c : C)
  | other
  deriving DecidableEq

/-- An entry of a loop: the handlers of its mask, and the connection. -/
structure Registration (C : Type) where
  readable : Option Proc
  writable : Option Proc
  client : C

/-- A call that concerns a descriptor. Those marked `Own` use the number in the
    connection, the others one that they were given. -/
inductive Task where
  /-- `aeCreateFileEvent`, for reading or for writing. -/
  | create (fd : Nat) (readable : Bool) (proc : Proc)
  | createOwn
  /-- `aeDeleteFileEvent` for writing, and for both. -/
  | delete (fd : Nat)
  | deleteOwn
  /-- `close`. -/
  | closeOwn
  | closeNew (fd : Nat)
  /-- The rest of `connect_socket`. -/
  | socket
  | connect (fd : Nat)
  | register (fd : Nat)
  deriving DecidableEq

/-- The threads, their connections, and the size of the loops. -/
structure Setup (T C : Type) where
  thread : C → T
  connections : T → List C
  mem_iff : ∀ j c, c ∈ connections j ↔ thread c = j
  nodup : ∀ j, (connections j).Nodup
  setsize : Nat

/-- The process. A number that is not open is not in the table, or its entry is
    empty. -/
structure Process (T C : Type) where
  table : List (Option (Holder C))
  loop : T → Nat → Option (Registration C)
  fd : C → Nat
  timers : C → Nat
  work : T → List (C × Task)

variable {T C : Type}

/-! ### The table -/

/-- Who holds a descriptor. -/
def holder (table : List (Option (Holder C))) (fd : Nat) : Option (Holder C) :=
  (table[fd]?).join

/-- The lowest free number. -/
def lowest (table : List (Option (Holder C))) : Nat := table.findIdx Option.isNone

/-- Take the lowest free number. -/
def openFd (table : List (Option (Holder C))) (h : Holder C) : List (Option (Holder C)) :=
  if lowest table < table.length then table.set (lowest table) (some h) else table ++ [some h]

/-- `close`. -/
def closeFd (table : List (Option (Holder C))) (fd : Nat) : List (Option (Holder C)) :=
  table.set fd none

theorem holder_lowest (table : List (Option (Holder C))) : holder table (lowest table) = none := by
  unfold holder lowest
  by_cases h : table.findIdx Option.isNone < table.length
  · have hnone := List.findIdx_getElem (w := h)
    rw [List.getElem?_eq_getElem h, Option.isNone_iff_eq_none.mp hnone]
    rfl
  · rw [List.getElem?_eq_none (Nat.not_lt.mp h)]
    rfl

theorem holder_openFd (table : List (Option (Holder C))) (h : Holder C) (g : Nat) :
    holder (openFd table h) g = if g = lowest table then some h else holder table g := by
  unfold holder openFd
  by_cases hlow : lowest table < table.length
  · rw [if_pos hlow, List.getElem?_set]
    by_cases hg : g = lowest table
    · rw [if_pos hg, if_pos hg.symm, if_pos (hg ▸ hlow)]
      rfl
    · rw [if_neg hg, if_neg (fun h => hg h.symm)]
  · have hlen : lowest table = table.length :=
      Nat.le_antisymm List.findIdx_le_length (Nat.not_lt.mp hlow)
    rw [if_neg hlow, hlen]
    by_cases hg : g = table.length
    · rw [if_pos hg, hg, List.getElem?_concat_length]
      rfl
    · rw [if_neg hg]
      rcases Nat.lt_or_ge g table.length with hlt | hge
      · rw [List.getElem?_append_left hlt]
      · rw [List.getElem?_eq_none (by rw [List.length_append, List.length_singleton]; omega),
          List.getElem?_eq_none hge]

theorem holder_closeFd (table : List (Option (Holder C))) (f g : Nat) :
    holder (closeFd table f) g = if g = f then none else holder table g := by
  unfold holder closeFd
  rw [List.getElem?_set]
  by_cases hg : g = f
  · rw [if_pos hg, if_pos hg.symm]
    split_ifs
    · rfl
    · rfl
  · rw [if_neg hg, if_neg (fun h => hg h.symm)]

/-- What one holder opens or closes, another holds no more and no less. -/
theorem holder_openFd_other (table : List (Option (Holder C))) (h h' : Holder C) (g : Nat)
    (hne : h ≠ h') : holder table g = some h' ↔ holder (openFd table h) g = some h' := by
  rw [holder_openFd]
  by_cases hg : g = lowest table
  · rw [if_pos hg, hg, holder_lowest]
    constructor
    · intro heq
      cases heq
    · exact fun heq => absurd (Option.some.inj heq) hne
  · rw [if_neg hg]

theorem holder_closeFd_other (table : List (Option (Holder C))) (f g : Nat) (h' : Holder C)
    (hne : holder table f ≠ some h') :
    holder table g = some h' ↔ holder (closeFd table f) g = some h' := by
  rw [holder_closeFd]
  by_cases hg : g = f
  · rw [if_pos hg, hg]
    constructor
    · exact fun heq => absurd heq hne
    · intro heq
      cases heq
  · rw [if_neg hg]

/-! ### The handlers -/

/-- `connect_socket`. -/
def connectSocket (c : C) : List (C × Task) := [(c, .socket)]

/-- `reconnect_socket`. -/
def reconnectSocket (c : C) : List (C × Task) :=
  [(c, .deleteOwn), (c, .closeOwn)] ++ connectSocket c

/-- `socket_connected`. -/
def socketConnected (c : C) (fd : Nat) : SockStatus → List (C × Task)
  | .ok => [(c, .create fd true .socketReadable), (c, .create fd false .socketWriteable)]
  | .error => reconnectSocket c
  | .retry => []

/-- How `socket_writeable` ends: a timer is created, the transport accepts
    nothing, fails, or accepts some or the last bytes of a batch. -/
inductive WriteEnd where
  | delayed
  | retry
  | error
  | partly
  | finished
  deriving DecidableEq

/-- `socket_writeable`. -/
def socketWriteable (c : C) (fd : Nat) : WriteEnd → List (C × Task)
  | .delayed => [(c, .delete fd)]
  | .retry => []
  | .error => reconnectSocket c
  | .partly => []
  | .finished => [(c, .delete fd)]

/-- A response in `response_complete`: whether it is the last that is pending,
    and whether the connection is kept. -/
structure Response where
  last : Bool
  keep : Bool

/-- `response_complete`. -/
def responseComplete (c : C) (r : Response) : List (C × Task) :=
  (if r.last then [(c, .createOwn)] else []) ++ if r.keep then [] else reconnectSocket c

/-- `socket_readable`: the responses that the parser completes, and whether the
    handler takes its error branch. -/
def socketReadable (c : C) (responses : List Response) (error : Bool) : List (C × Task) :=
  responses.flatMap (responseComplete c) ++ if error then reconnectSocket c else []

/-- `delay_request`. -/
def delayRequest (c : C) : List (C × Task) := [(c, .createOwn)]

/-- What a handler meets. Each uses what concerns it. -/
structure Outcome where
  connect : SockStatus
  write : WriteEnd
  responses : List Response
  error : Bool

/-- Call a handler. -/
def runProc (o : Outcome) (c : C) (fd : Nat) : Proc → List (C × Task)
  | .socketConnected => socketConnected c fd o.connect
  | .socketWriteable => socketWriteable c fd o.write
  | .socketReadable => socketReadable c o.responses o.error

/-! ### The calls -/

variable [DecidableEq T] [DecidableEq C]

/-- Set an entry of a loop. -/
def Process.setLoop (s : Process T C) (j : T) (fd : Nat) (r : Option (Registration C)) :
    Process T C :=
  { s with loop := Function.update s.loop j (Function.update (s.loop j) fd r) }

/-- `aeCreateFileEvent` with one handler for the given bits of the mask. It
    fails beyond the size of the loop, and when `epoll_ctl` does. -/
def createFileEvent (p : Setup T C) (s : Process T C) (j : T) (fd : Nat) (r w : Bool)
    (proc : Proc) (c : C) (ok : Bool) : Option (Process T C) :=
  if fd < p.setsize ∧ ok = true then
    some (s.setLoop j fd (some
      { readable := if r then some proc else (s.loop j fd).bind (·.readable)
        writable := if w then some proc else (s.loop j fd).bind (·.writable)
        client := c }))
  else none

/-- `aeDeleteFileEvent`. -/
def deleteFileEvent (p : Setup T C) (s : Process T C) (j : T) (fd : Nat) (r w : Bool) :
    Process T C :=
  if p.setsize ≤ fd then s
  else
    match s.loop j fd with
    | none => s
    | some reg =>
        let readable := if r then none else reg.readable
        let writable := if w then none else reg.writable
        s.setLoop j fd
          (if readable = none ∧ writable = none then none
          else some { reg with readable := readable, writable := writable })

/-- One call of a thread, with what is still to be done after it and what the
    call answers. -/
def runTask (p : Setup T C) (s : Process T C) (j : T) (c : C) (rest : List (C × Task))
    (ok : Bool) : Task → Process T C
  | .create fd r proc =>
      let s := { s with work := Function.update s.work j rest }
      (createFileEvent p s j fd r (!r) proc c ok).getD s
  | .createOwn =>
      let s := { s with work := Function.update s.work j rest }
      (createFileEvent p s j (s.fd c) false true .socketWriteable c ok).getD s
  | .delete fd => deleteFileEvent p { s with work := Function.update s.work j rest } j fd false true
  | .deleteOwn =>
      deleteFileEvent p { s with work := Function.update s.work j rest } j (s.fd c) true true
  | .closeOwn =>
      { s with
        work := Function.update s.work j rest
        table := closeFd s.table (s.fd c) }
  | .closeNew fd =>
      { s with work := Function.update s.work j rest, table := closeFd s.table fd }
  | .socket =>
      if ok then
        { s with
          work := Function.update s.work j ((c, .connect (lowest s.table)) :: rest)
          table := openFd s.table (.conn c) }
      -- What follows on a descriptor of -1 fails and has no effect.
      else { s with work := Function.update s.work j rest }
  | .connect fd =>
      { s with
        work := Function.update s.work j
          ((c, if ok then .register fd else .closeNew fd) :: rest) }
  | .register fd =>
      match createFileEvent p { s with work := Function.update s.work j rest } j fd true true
        .socketConnected c ok with
      | some s => { s with fd := Function.update s.fd c fd }
      | none => { s with work := Function.update s.work j ((c, .closeNew fd) :: rest) }

/-- What can happen in the process: an event fires in a loop, or a timer; a
    thread makes its next call; something else opens a descriptor, or closes
    one of its own. An event fires only when the thread has nothing left to
    do. -/
inductive Act (T C : Type) where
  | readable (j : T) (fd : Nat) (o : Outcome)
  | writable (j : T) (fd : Nat) (o : Outcome)
  | timer (c : C)
  | call (j : T) (ok : Bool)
  | otherOpens
  | otherCloses (fd : Nat)

/-- A handler is called: its calls are the work of the thread. -/
def Process.handle (s : Process T C) (j : T) (fd : Nat) (o : Outcome) (c : C) (proc : Proc) :
    Process T C :=
  { s with
    work := Function.update s.work j (runProc o c fd proc)
    timers :=
      if proc = .socketWriteable ∧ o.write = .delayed then
        Function.update s.timers c (s.timers c + 1)
      else s.timers }

/-- One step. -/
def step (p : Setup T C) (s : Process T C) : Act T C → Option (Process T C)
  | .readable j fd o =>
      if s.work j = [] then
        (s.loop j fd).bind (fun r => r.readable.map (s.handle j fd o r.client))
      else none
  | .writable j fd o =>
      if s.work j = [] then
        (s.loop j fd).bind (fun r => r.writable.map (s.handle j fd o r.client))
      else none
  | .timer c =>
      if s.work (p.thread c) = [] ∧ s.timers c ≠ 0 then
        some
          { s with
            work := Function.update s.work (p.thread c) (delayRequest c)
            timers := Function.update s.timers c (s.timers c - 1) }
      else none
  | .call j ok =>
      match s.work j with
      | [] => none
      | (c, t) :: rest => some (runTask p s j c rest ok t)
  | .otherOpens => some { s with table := openFd s.table .other }
  | .otherCloses fd =>
      if holder s.table fd = some .other then some { s with table := closeFd s.table fd } else none

/-- `thread_main` of every thread: a zeroed connection connects, one after
    another. Other descriptors are open already. -/
def start (p : Setup T C) (open_ : Nat) : Process T C :=
  { table := List.replicate open_ (some .other)
    loop := fun _ _ => none
    fd := fun _ => 0
    timers := fun _ => 0
    work := fun j => (p.connections j).flatMap connectSocket }

/-! ### What is asked of the process -/

/-- The connection and the descriptor of a call that registers, unregisters or
    closes. -/
def actsOn (s : Process T C) : C × Task → Option (C × Nat)
  | (c, .create fd _ _) => some (c, fd)
  | (c, .createOwn) => some (c, s.fd c)
  | (c, .delete fd) => some (c, fd)
  | (c, .deleteOwn) => some (c, s.fd c)
  | (c, .closeOwn) => some (c, s.fd c)
  | (c, .register fd) => some (c, fd)
  | _ => none

/-- The next call of every thread acts on a descriptor that its connection has
    opened and that is open still. -/
def Owns (s : Process T C) : Prop :=
  ∀ j t rest c fd, s.work j = t :: rest → actsOn s t = some (c, fd) →
    holder s.table fd = some (.conn c)

/-- Every connection of a thread that waits for events has an open descriptor
    that is registered in the loop of the thread. -/
def Live (p : Setup T C) (s : Process T C) : Prop :=
  ∀ c, s.work (p.thread c) = [] → holder s.table (s.fd c) = some (.conn c) ∧
    ∃ r, s.loop (p.thread c) (s.fd c) = some r ∧ r.client = c

/-- No attempt to connect fails in this step. -/
def connects (p : Setup T C) (s : Process T C) : Act T C → Bool
  | .call j ok =>
      match s.work j with
      | (_, .socket) :: _ => ok
      | (_, .connect _) :: _ => ok
      | (_, .register fd) :: _ => ok && decide (fd < p.setsize)
      | _ => true
  | _ => true

/-! ### The calls of one connection -/

/-- The calls that are still to be made for a connection. -/
def mine (c : C) (work : List (C × Task)) : List Task :=
  (work.filter (fun t => decide (t.1 = c))).map Prod.snd

theorem mine_cons_self (c : C) (t : Task) (work : List (C × Task)) :
    mine c ((c, t) :: work) = t :: mine c work := by
  unfold mine
  rw [List.filter_cons, if_pos (decide_eq_true rfl), List.map_cons]

theorem mine_cons_other (c d : C) (t : Task) (work : List (C × Task)) (h : d ≠ c) :
    mine c ((d, t) :: work) = mine c work := by
  unfold mine
  rw [List.filter_cons, if_neg (fun hd => h (of_decide_eq_true hd))]

theorem mine_append (c : C) (work work' : List (C × Task)) :
    mine c (work ++ work') = mine c work ++ mine c work' := by
  unfold mine
  rw [List.filter_append, List.map_append]

/-- The calls that may follow while a connection has this descriptor: they act
    on it, up to the next `reconnect_socket`. -/
inductive Follows : Nat → List Task → Prop
  | nil (f : Nat) : Follows f []
  | create (f : Nat) (r : Bool) (proc : Proc) (rest : List Task) :
      Follows f rest → Follows f (.create f r proc :: rest)
  | createOwn (f : Nat) (rest : List Task) : Follows f rest → Follows f (.createOwn :: rest)
  | delete (f : Nat) (rest : List Task) : Follows f rest → Follows f (.delete f :: rest)
  | reconnect (f : Nat) (rest : List Task) :
      (∀ g, Follows g rest) → Follows f (.deleteOwn :: .closeOwn :: .socket :: rest)

/-- A connection has opened this descriptor, and the loop of its thread calls
    it for reading. -/
structure Registered (p : Setup T C) (s : Process T C) (c : C) (f : Nat) : Prop where
  held : holder s.table f = some (.conn c)
  entry : ∃ r, s.loop (p.thread c) f = some r ∧ r.client = c ∧ r.readable ≠ none
  small : f < p.setsize

/-- No entry of a loop is for this connection. -/
def NoEntry (s : Process T C) (c : C) : Prop := ∀ j g r, s.loop j g = some r → r.client ≠ c

/-- Where a connection stands, by the calls that are still to be made. -/
inductive Standing (p : Setup T C) (s : Process T C) (c : C) : List Task → Prop
  | registered (tasks : List Task) :
      Registered p s c (s.fd c) → Follows (s.fd c) tasks → Standing p s c tasks
  | deleted (rest : List Task) :
      holder s.table (s.fd c) = some (.conn c) → NoEntry s c → (∀ g, Follows g rest) →
        Standing p s c (.closeOwn :: .socket :: rest)
  | closed (rest : List Task) :
      NoEntry s c → (∀ g, Follows g rest) → Standing p s c (.socket :: rest)
  | opened (f : Nat) (rest : List Task) :
      holder s.table f = some (.conn c) → NoEntry s c → (∀ g, Follows g rest) →
        Standing p s c (.connect f :: rest)
  | connected (f : Nat) (rest : List Task) :
      holder s.table f = some (.conn c) → NoEntry s c → (∀ g, Follows g rest) →
        Standing p s c (.register f :: rest)

/-- What holds in every state as long as no attempt to connect fails. -/
structure Inv (p : Setup T C) (s : Process T C) : Prop where
  standing : ∀ c, Standing p s c (mine c (s.work (p.thread c)))
  loops : ∀ j f r, s.loop j f = some r → p.thread r.client = j ∧ s.fd r.client = f
  threads : ∀ j t, t ∈ s.work j → p.thread t.1 = j

omit [DecidableEq T] [DecidableEq C] in
/-- A connection stands where it stood if what it holds is still held and
    registered. -/
theorem standing_frame (p : Setup T C) (s s' : Process T C) (d : C) (tasks : List Task)
    (hheld : ∀ g, holder s.table g = some (.conn d) → holder s'.table g = some (.conn d))
    (hfd : s'.fd d = s.fd d)
    (hloop : ∀ g, holder s.table g = some (.conn d) →
      s'.loop (p.thread d) g = s.loop (p.thread d) g)
    (hno : NoEntry s d → NoEntry s' d) (h : Standing p s d tasks) : Standing p s' d tasks := by
  cases h with
  | registered _ hreg hfollows =>
      refine .registered tasks ⟨?_, ?_, ?_⟩ (hfd ▸ hfollows)
      · rw [hfd]
        exact hheld _ hreg.held
      · rw [hfd, hloop _ hreg.held]
        exact hreg.entry
      · rw [hfd]
        exact hreg.small
  | deleted rest hheld' hentry hrest =>
      exact .deleted rest (by rw [hfd]; exact hheld _ hheld') (hno hentry) hrest
  | closed rest hentry hrest => exact .closed rest (hno hentry) hrest
  | opened f rest hheld' hentry hrest => exact .opened f rest (hheld f hheld') (hno hentry) hrest
  | connected f rest hheld' hentry hrest =>
      exact .connected f rest (hheld f hheld') (hno hentry) hrest

/-! ### One call -/

omit [DecidableEq C] in
theorem setLoop_loop (s : Process T C) (j k : T) (f g : Nat) (r : Option (Registration C)) :
    (s.setLoop j f r).loop k g = if k = j ∧ g = f then r else s.loop k g := by
  unfold Process.setLoop
  by_cases hk : k = j
  · rw [hk]
    simp only [Function.update_self, true_and]
    by_cases hg : g = f
    · rw [hg, Function.update_self, if_pos rfl]
    · rw [Function.update_of_ne hg, if_neg hg]
  · simp only [Function.update_of_ne hk, hk, false_and, if_false]

/-- A change for one connection leaves the others what they hold, and their
    calls. -/
structure Spares (p : Setup T C) (s s' : Process T C) (c : C) : Prop where
  held : ∀ d g, d ≠ c →
    (holder s.table g = some (.conn d) ↔ holder s'.table g = some (.conn d))
  fd : ∀ d, d ≠ c → s'.fd d = s.fd d
  loop : ∀ d k g, d ≠ c → holder s.table g = some (.conn d) → s'.loop k g = s.loop k g
  entry : ∀ k g r, s'.loop k g = some r → r.client = c ∨ s.loop k g = some r
  mine : ∀ d, d ≠ c → mine d (s'.work (p.thread d)) = mine d (s.work (p.thread d))

omit [DecidableEq T] in
/-- The invariant is kept if it is for the connection that is concerned. -/
theorem inv_of_spares (p : Setup T C) (s s' : Process T C) (c : C) (h : Inv p s)
    (hspares : Spares p s s' c)
    (hstanding : Standing p s' c (mine c (s'.work (p.thread c))))
    (hclient : ∀ k g r, s'.loop k g = some r → r.client = c → p.thread c = k ∧ s'.fd c = g)
    (hthreads : ∀ k t, t ∈ s'.work k → p.thread t.1 = k) : Inv p s' where
  standing d := by
    by_cases hd : d = c
    · rw [hd]
      exact hstanding
    · rw [hspares.mine d hd]
      refine standing_frame p s s' d _ (fun g => (hspares.held d g hd).mp) (hspares.fd d hd)
        (fun g => hspares.loop d _ g hd) (fun hno k g r hr => ?_) (h.standing d)
      rcases hspares.entry k g r hr with hc | hold
      · rw [hc]
        exact fun h => hd h.symm
      · exact hno k g r hold
  loops k g r hr := by
    by_cases hd : r.client = c
    · rw [hd]
      exact hclient k g r hr hd
    · rcases hspares.entry k g r hr with hc | hold
      · exact absurd hc hd
      · rw [hspares.fd _ hd]
        exact h.loops k g r hold
  threads := hthreads

/-- The work of one thread is replaced. -/
theorem mine_update (p : Setup T C) (s : Process T C) (c : C) (t : Task)
    (rest new : List (C × Task)) (hwork : s.work (p.thread c) = (c, t) :: rest)
    (hnew : ∀ d, d ≠ c → mine d new = mine d rest) (d : C) (hd : d ≠ c) :
    mine d (Function.update s.work (p.thread c) new (p.thread d)) =
      mine d (s.work (p.thread d)) := by
  by_cases hk : p.thread d = p.thread c
  · rw [hk, Function.update_self, hnew d hd, hwork, mine_cons_other d c t rest (fun h => hd h.symm)]
  · rw [Function.update_of_ne hk]

omit [DecidableEq C] in
theorem threads_update (p : Setup T C) (s : Process T C)
    (h : ∀ j t, t ∈ s.work j → p.thread t.1 = j) (j : T) (new : List (C × Task))
    (hnew : ∀ t ∈ new, p.thread t.1 = j) (k : T) (t : C × Task)
    (ht : t ∈ Function.update s.work j new k) : p.thread t.1 = k := by
  by_cases hk : k = j
  · rw [hk, Function.update_self] at ht
    rw [hk]
    exact hnew t ht
  · rw [Function.update_of_ne hk] at ht
    exact h k t ht

/-- An entry for the descriptor of a connection is replaced by another for the
    same connection, or removed. -/
theorem inv_setLoop (p : Setup T C) (s : Process T C) (c : C) (t : Task) (rest : List (C × Task))
    (h : Inv p s) (hwork : s.work (p.thread c) = (c, t) :: rest)
    (hheld : holder s.table (s.fd c) = some (.conn c)) (r : Option (Registration C))
    (hr : ∀ x, r = some x → x.client = c)
    (hstanding : Standing p
      ({ s with work := Function.update s.work (p.thread c) rest }.setLoop (p.thread c) (s.fd c) r)
      c (mine c rest)) :
    Inv p ({ s with work := Function.update s.work (p.thread c) rest }.setLoop
      (p.thread c) (s.fd c) r) := by
  have hget := setLoop_loop { s with work := Function.update s.work (p.thread c) rest }
    (p.thread c)
  refine inv_of_spares p s _ c h ⟨fun _ _ _ => Iff.rfl, fun _ _ => rfl, ?_, ?_, ?_⟩ ?_ ?_ ?_
  · intro d k g hd hg
    rw [hget k, if_neg]
    -- The slot that is written is that of a descriptor of this connection.
    rintro ⟨_, rfl⟩
    rw [hheld] at hg
    exact hd (Holder.conn.inj (Option.some.inj hg)).symm
  · intro k g x hx
    rw [hget k] at hx
    split_ifs at hx with heq
    · exact Or.inl (hr x hx)
    · exact Or.inr hx
  · exact fun d hd => mine_update p s c t rest rest hwork (fun _ _ => rfl) d hd
  · change Standing p _ c (mine c (Function.update s.work (p.thread c) rest (p.thread c)))
    rw [Function.update_self]
    exact hstanding
  · intro k g x hx hclient
    rw [hget k] at hx
    split_ifs at hx with heq
    · exact ⟨heq.1.symm, heq.2.symm⟩
    · have hold := h.loops k g x hx
      rw [hclient] at hold
      exact hold
  · intro k u hu
    refine threads_update p s h.threads (p.thread c) rest (fun v hv => ?_) k u hu
    exact h.threads _ v (hwork ▸ List.mem_cons_of_mem _ hv)

/-- The other changes: of the work, the table and the number of a connection,
    but not of the loops. -/
theorem inv_change (p : Setup T C) (s : Process T C) (c : C) (t : Task)
    (rest new : List (C × Task)) (table : List (Option (Holder C))) (h : Inv p s)
    (hwork : s.work (p.thread c) = (c, t) :: rest)
    (hnew : ∀ d, d ≠ c → mine d new = mine d rest) (hthreads : ∀ u ∈ new, p.thread u.1 = p.thread c)
    (hheld : ∀ d g, d ≠ c →
      (holder s.table g = some (.conn d) ↔ holder table g = some (.conn d)))
    (hstanding : Standing p
      { s with work := Function.update s.work (p.thread c) new, table := table } c (mine c new)) :
    Inv p { s with work := Function.update s.work (p.thread c) new, table := table } := by
  refine inv_of_spares p s _ c h
    ⟨hheld, fun _ _ => rfl, fun _ _ _ _ _ => rfl, fun _ _ _ hr => Or.inr hr, ?_⟩ ?_ ?_ ?_
  · exact fun d hd => mine_update p s c t rest new hwork hnew d hd
  · change Standing p _ c (mine c (Function.update s.work (p.thread c) new (p.thread c)))
    rw [Function.update_self]
    exact hstanding
  · intro k g r hr hclient
    have hold := h.loops k g r hr
    rwa [hclient] at hold
  · exact fun k u hu => threads_update p s h.threads (p.thread c) new hthreads k u hu

omit [DecidableEq T] [DecidableEq C] in
theorem rest_threads (p : Setup T C) (s : Process T C) (c : C) (t : Task)
    (rest : List (C × Task)) (h : ∀ j t, t ∈ s.work j → p.thread t.1 = j)
    (hwork : s.work (p.thread c) = (c, t) :: rest) :
    ∀ u ∈ rest, p.thread u.1 = p.thread c :=
  fun u hu => h _ u (hwork ▸ List.mem_cons_of_mem _ hu)

/-- `aeCreateFileEvent` on the descriptor of a registered connection. -/
theorem create_inv (p : Setup T C) (s : Process T C) (c : C) (t : Task) (rest : List (C × Task))
    (h : Inv p s) (hwork : s.work (p.thread c) = (c, t) :: rest)
    (hreg : Registered p s c (s.fd c)) (hfollows : Follows (s.fd c) (mine c rest)) (r : Bool)
    (proc : Proc) (ok : Bool) :
    Inv p ((createFileEvent p { s with work := Function.update s.work (p.thread c) rest }
      (p.thread c) (s.fd c) r (!r) proc c ok).getD
        { s with work := Function.update s.work (p.thread c) rest }) := by
  unfold createFileEvent
  by_cases hok : s.fd c < p.setsize ∧ ok = true
  · rw [if_pos hok, Option.getD_some]
    let entry : Registration C :=
      { readable := if r then some proc else (s.loop (p.thread c) (s.fd c)).bind (·.readable)
        writable := if !r then some proc else (s.loop (p.thread c) (s.fd c)).bind (·.writable)
        client := c }
    -- The connection stays registered for reading, whichever event is created.
    have hreadable : entry.readable ≠ none := by
      rcases hreg.entry with ⟨x, hx, _, hx'⟩
      change (if r then some proc else (s.loop (p.thread c) (s.fd c)).bind (·.readable)) ≠ none
      rw [hx]
      split_ifs
      · exact Option.some_ne_none proc
      · exact hx'
    refine inv_setLoop p s c t rest h hwork hreg.held (some entry) (fun x hx => ?_)
      (.registered _ ⟨hreg.held, ⟨entry, ?_, rfl, hreadable⟩, hreg.small⟩ hfollows)
    · rw [← Option.some.inj hx]
    · rw [setLoop_loop, if_pos ⟨rfl, rfl⟩]
  · -- A failed call leaves the table of the loop as it is.
    rw [if_neg hok, Option.getD_none]
    exact inv_change p s c t rest rest s.table h hwork (fun _ _ => rfl)
      (rest_threads p s c t rest h.threads hwork) (fun _ _ _ => Iff.rfl)
      (.registered _ ⟨hreg.held, hreg.entry, hreg.small⟩ hfollows)

/-- `aeDeleteFileEvent` for writing: the registration for reading remains. -/
theorem delete_inv (p : Setup T C) (s : Process T C) (c : C) (t : Task) (rest : List (C × Task))
    (h : Inv p s) (hwork : s.work (p.thread c) = (c, t) :: rest)
    (hreg : Registered p s c (s.fd c)) (hfollows : Follows (s.fd c) (mine c rest)) :
    Inv p (deleteFileEvent p { s with work := Function.update s.work (p.thread c) rest }
      (p.thread c) (s.fd c) false true) := by
  rcases hreg.entry with ⟨x, hx, hclient, hreadable⟩
  unfold deleteFileEvent
  rw [if_neg (Nat.not_le.mpr hreg.small)]
  simp only [hx, Bool.false_eq_true, if_false, if_true, and_true, hreadable]
  refine inv_setLoop p s c t rest h hwork hreg.held _ (fun y hy => ?_)
    (.registered _ ⟨hreg.held, ⟨{ x with writable := none }, ?_, hclient, hreadable⟩, hreg.small⟩
      hfollows)
  · rw [← Option.some.inj hy]
    exact hclient
  · rw [setLoop_loop, if_pos ⟨rfl, rfl⟩]

/-- `aeDeleteFileEvent` in `reconnect_socket`: no entry for the connection is
    left, since there was none but this. -/
theorem deleteOwn_inv (p : Setup T C) (s : Process T C) (c : C) (t : Task) (rest : List (C × Task))
    (after : List Task) (h : Inv p s) (hwork : s.work (p.thread c) = (c, t) :: rest)
    (hreg : Registered p s c (s.fd c)) (hmine : mine c rest = .closeOwn :: .socket :: after)
    (hafter : ∀ g, Follows g after) :
    Inv p (deleteFileEvent p { s with work := Function.update s.work (p.thread c) rest }
      (p.thread c) (s.fd c) true true) := by
  rcases hreg.entry with ⟨x, hx, _, _⟩
  unfold deleteFileEvent
  rw [if_neg (Nat.not_le.mpr hreg.small)]
  simp only [hx, if_true, and_true]
  refine inv_setLoop p s c t rest h hwork hreg.held none
    (fun y hy => absurd hy.symm (Option.some_ne_none y)) ?_
  rw [hmine]
  refine .deleted after hreg.held (fun k g r hr hc => ?_) hafter
  rw [setLoop_loop] at hr
  split_ifs at hr with heq
  have hold := h.loops k g r hr
  rw [hc] at hold
  exact heq ⟨hold.1.symm, hold.2.symm⟩

/-- The last call of `connect_socket`: the connection has a registered
    descriptor again. -/
theorem register_inv (p : Setup T C) (s : Process T C) (c : C) (f : Nat) (rest : List (C × Task))
    (h : Inv p s) (hwork : s.work (p.thread c) = (c, .register f) :: rest)
    (hheld : holder s.table f = some (.conn c)) (hno : NoEntry s c)
    (hafter : ∀ g, Follows g (mine c rest)) (hsmall : f < p.setsize) (r : Registration C)
    (hclient : r.client = c) (hreadable : r.readable ≠ none) :
    Inv p { ({ s with work := Function.update s.work (p.thread c) rest }.setLoop (p.thread c) f
      (some r)) with fd := Function.update s.fd c f } := by
  have hget := setLoop_loop { s with work := Function.update s.work (p.thread c) rest }
    (p.thread c)
  refine inv_of_spares p s _ c h ⟨fun _ _ _ => Iff.rfl, fun d hd => ?_, ?_, ?_, ?_⟩ ?_ ?_ ?_
  · exact Function.update_of_ne hd _ _
  · intro d k g hd hg
    refine (hget k f g _).trans (if_neg ?_)
    rintro ⟨_, rfl⟩
    rw [hheld] at hg
    exact hd (Holder.conn.inj (Option.some.inj hg)).symm
  · intro k g x hx
    have hx' := (hget k f g (some r)).symm.trans hx
    split_ifs at hx' with heq
    · rw [← Option.some.inj hx']
      exact Or.inl hclient
    · exact Or.inr hx'
  · exact fun d hd => mine_update p s c _ rest rest hwork (fun _ _ => rfl) d hd
  · -- The new descriptor is the connection's, and it is registered for reading.
    change Standing p _ c (mine c (Function.update s.work (p.thread c) rest (p.thread c)))
    rw [Function.update_self]
    refine .registered _ ?_ ?_
    · change Registered p _ c (Function.update s.fd c f c)
      rw [Function.update_self]
      exact ⟨hheld, ⟨r, (hget _ f f _).trans (if_pos ⟨rfl, rfl⟩), hclient, hreadable⟩, hsmall⟩
    · exact hafter _
  · intro k g x hx hc
    have hx' := (hget k f g (some r)).symm.trans hx
    change p.thread c = k ∧ Function.update s.fd c f c = g
    rw [Function.update_self]
    split_ifs at hx' with heq
    · exact ⟨heq.1.symm, heq.2.symm⟩
    · exact absurd hc (hno k g x hx')
  · exact fun k u hu => threads_update p s h.threads (p.thread c) rest
      (rest_threads p s c _ rest h.threads hwork) k u hu

/-- Every call keeps the invariant, unless it is an attempt to connect that
    fails. The cases are those of where the connection stands. -/
theorem call_inv (p : Setup T C) (s : Process T C) (j : T) (c : C) (t : Task)
    (rest : List (C × Task)) (ok : Bool) (h : Inv p s) (hwork : s.work j = (c, t) :: rest)
    (hok : connects p s (.call j ok) = true) : Inv p (runTask p s j c rest ok t) := by
  have hj : p.thread c = j := h.threads j (c, t) (hwork ▸ List.mem_cons_self)
  subst hj
  have hstanding := h.standing c
  rw [hwork, mine_cons_self] at hstanding
  simp only [connects, hwork] at hok
  generalize hmine : mine c rest = after at hstanding
  have hrest := rest_threads p s c t rest h.threads hwork
  have hcons : ∀ u : Task, ∀ d, d ≠ c → mine d ((c, u) :: rest) = mine d rest :=
    fun u d hd => mine_cons_other d c u rest (fun heq => hd heq.symm)
  have hthreads : ∀ u : Task, ∀ v ∈ (c, u) :: rest, p.thread v.1 = p.thread c := by
    intro u v hv
    rcases List.mem_cons.mp hv with rfl | hv
    · rfl
    · exact hrest v hv
  cases hstanding with
  | registered _ hreg hfollows =>
      cases hfollows with
      | create _ r proc _ hfollows =>
          exact create_inv p s c _ rest h hwork hreg (hmine ▸ hfollows) r proc ok
      | createOwn _ _ hfollows =>
          exact create_inv p s c _ rest h hwork hreg (hmine ▸ hfollows) false .socketWriteable ok
      | delete _ _ hfollows => exact delete_inv p s c _ rest h hwork hreg (hmine ▸ hfollows)
      | reconnect _ after' hafter => exact deleteOwn_inv p s c _ rest after' h hwork hreg hmine hafter
  | deleted after' hheld hno hafter =>
      -- Another connection has another descriptor, which stays open.
      refine inv_change p s c _ rest rest _ h hwork (fun _ _ => rfl) hrest (fun d g hd => ?_) ?_
      · refine holder_closeFd_other s.table (s.fd c) g (.conn d) fun hg => ?_
        rw [hheld] at hg
        exact hd (Holder.conn.inj (Option.some.inj hg)).symm
      · rw [hmine]
        exact .closed after' hno hafter
  | closed _ hno hafter =>
      rw [runTask, if_pos hok]
      refine inv_change p s c _ rest _ _ h hwork (hcons _) (hthreads _) (fun d g hd => ?_) ?_
      · exact holder_openFd_other s.table (.conn c) (.conn d) g fun hc => hd (Holder.conn.inj hc).symm
      · rw [mine_cons_self, hmine]
        refine .opened _ after ?_ hno hafter
        rw [holder_openFd, if_pos rfl]
  | opened f _ hheld hno hafter =>
      rw [runTask, if_pos hok]
      refine inv_change p s c _ rest _ s.table h hwork (hcons _) (hthreads _) (fun _ _ _ => Iff.rfl) ?_
      rw [mine_cons_self, hmine]
      exact .connected f after hheld hno hafter
  | connected f _ hheld hno hafter =>
      rw [Bool.and_eq_true, decide_eq_true_eq] at hok
      rw [runTask, createFileEvent, if_pos ⟨hok.2, hok.1⟩]
      exact register_inv p s c f rest h hwork hheld hno (hmine ▸ hafter) hok.2 _ rfl
        (Option.some_ne_none _)

/-! ### The handlers -/

theorem mine_reconnect (c : C) : mine c (reconnectSocket c) = [.deleteOwn, .closeOwn, .socket] := by
  unfold reconnectSocket connectSocket
  simp only [List.cons_append, List.nil_append, mine_cons_self]
  rfl

theorem follows_append (f : Nat) (tasks tasks' : List Task) (h : Follows f tasks)
    (h' : ∀ g, Follows g tasks') : Follows f (tasks ++ tasks') := by
  induction h with
  | nil f => exact h' f
  | create f r proc rest _ ih => exact .create f r proc _ ih
  | createOwn f rest _ ih => exact .createOwn f _ ih
  | delete f rest _ ih => exact .delete f _ ih
  | reconnect f rest _ ih => exact .reconnect f _ ih

theorem follows_reconnect (c : C) (f : Nat) : Follows f (mine c (reconnectSocket c)) := by
  rw [mine_reconnect]
  exact .reconnect f [] .nil

theorem follows_responseComplete (c : C) (r : Response) (f : Nat) :
    Follows f (mine c (responseComplete c r)) := by
  unfold responseComplete
  rw [mine_append]
  refine follows_append f _ _ ?_ (fun g => ?_)
  · split_ifs
    · rw [mine_cons_self]
      exact .createOwn f _ (.nil f)
    · exact .nil f
  · split_ifs
    · exact .nil g
    · exact follows_reconnect c g

theorem follows_socketReadable (c : C) (responses : List Response) (error : Bool) (f : Nat) :
    Follows f (mine c (socketReadable c responses error)) := by
  have hrest : ∀ g, Follows g (mine c (if error then reconnectSocket c else [])) := by
    intro g
    split_ifs
    · exact follows_reconnect c g
    · exact .nil g
  unfold socketReadable
  rw [mine_append]
  refine follows_append f _ _ ?_ hrest
  induction responses generalizing f with
  | nil => exact .nil f
  | cons r responses ih =>
      rw [List.flatMap_cons, mine_append]
      exact follows_append f _ _ (follows_responseComplete c r f) ih

/-- The calls of every handler act on the descriptor that it was called for. -/
theorem follows_runProc (o : Outcome) (c : C) (f : Nat) (proc : Proc) :
    Follows f (mine c (runProc o c f proc)) := by
  cases proc with
  | socketConnected =>
      change Follows f (mine c (socketConnected c f o.connect))
      cases o.connect with
      | ok =>
          simp only [socketConnected, mine_cons_self]
          exact .create f _ _ _ (.create f _ _ _ (.nil f))
      | error => exact follows_reconnect c f
      | retry => exact .nil f
  | socketWriteable =>
      change Follows f (mine c (socketWriteable c f o.write))
      cases o.write with
      | delayed =>
          simp only [socketWriteable, mine_cons_self]
          exact .delete f _ (.nil f)
      | retry => exact .nil f
      | error => exact follows_reconnect c f
      | partly => exact .nil f
      | finished =>
          -- Writing is taken back, and the descriptor stays.
          simp only [socketWriteable, mine_cons_self]
          exact .delete f _ (.nil f)
  | socketReadable => exact follows_socketReadable c o.responses o.error f

omit [DecidableEq C] in
theorem runProc_client (o : Outcome) (c : C) (f : Nat) (proc : Proc) :
    ∀ t ∈ runProc o c f proc, t.1 = c := by
  have hreconnect : ∀ t ∈ reconnectSocket c, t.1 = c := by
    intro t ht
    simp only [reconnectSocket, connectSocket, List.cons_append, List.nil_append, List.mem_cons,
      List.not_mem_nil, or_false] at ht
    rcases ht with rfl | rfl | rfl <;> rfl
  intro t ht
  cases proc with
  | socketConnected =>
      simp only [runProc] at ht
      cases hr : o.connect with
      | ok =>
          simp only [hr, socketConnected, List.mem_cons, List.not_mem_nil, or_false] at ht
          rcases ht with rfl | rfl <;> rfl
      | error =>
          rw [hr] at ht
          exact hreconnect t ht
      | retry =>
          rw [hr] at ht
          exact absurd ht List.not_mem_nil
  | socketWriteable =>
      simp only [runProc] at ht
      cases hr : o.write with
      | delayed | finished =>
          simp only [hr, socketWriteable, List.mem_cons, List.not_mem_nil, or_false] at ht
          rw [ht]
      | error =>
          rw [hr] at ht
          exact hreconnect t ht
      | retry | partly =>
          rw [hr] at ht
          exact absurd ht List.not_mem_nil
  | socketReadable =>
      simp only [runProc, socketReadable] at ht
      rcases List.mem_append.mp ht with ht | ht
      · -- A completed response arms writing or reconnects, both for the connection itself.
        rcases List.mem_flatMap.mp ht with ⟨r, _, hr⟩
        unfold responseComplete at hr
        rcases List.mem_append.mp hr with hr | hr
        · split_ifs at hr
          · rw [List.mem_singleton.mp hr]
          · exact absurd hr List.not_mem_nil
        · split_ifs at hr
          · exact absurd hr List.not_mem_nil
          · exact hreconnect t hr
      · split_ifs at ht
        · exact hreconnect t ht
        · exact absurd ht List.not_mem_nil

theorem mine_of_client (c d : C) (work : List (C × Task)) (h : ∀ t ∈ work, t.1 = c)
    (hd : d ≠ c) : mine d work = [] := by
  unfold mine
  rw [List.map_eq_nil_iff, List.filter_eq_nil_iff]
  intro t ht htd
  exact hd ((of_decide_eq_true htd).symm.trans (h t ht))

/-- A thread that waited for events has work for one of its connections. -/
theorem begin_inv (p : Setup T C) (s : Process T C) (c : C) (new : List (C × Task))
    (timers : C → Nat) (h : Inv p s) (hidle : s.work (p.thread c) = [])
    (hnew : ∀ t ∈ new, t.1 = c) (hfollows : Follows (s.fd c) (mine c new)) :
    Inv p { s with work := Function.update s.work (p.thread c) new, timers := timers } := by
  have hstanding := h.standing c
  rw [hidle] at hstanding
  -- Between events a connection is registered: it has no calls left to make.
  have hreg : Registered p s c (s.fd c) := by
    cases hstanding with
    | registered _ hreg _ => exact hreg
  refine inv_of_spares p s _ c h ⟨fun _ _ _ => Iff.rfl, fun _ _ => rfl, fun _ _ _ _ _ => rfl,
    fun _ _ _ hr => Or.inr hr, fun d hd => ?_⟩ ?_ ?_ ?_
  · change mine d (Function.update s.work (p.thread c) new (p.thread d)) = _
    by_cases hk : p.thread d = p.thread c
    · rw [hk, Function.update_self, mine_of_client c d new hnew hd, hidle]
      rfl
    · rw [Function.update_of_ne hk]
  · change Standing p _ c (mine c (Function.update s.work (p.thread c) new (p.thread c)))
    rw [Function.update_self]
    exact .registered _ ⟨hreg.held, hreg.entry, hreg.small⟩ hfollows
  · intro k g r hr hclient
    have hold := h.loops k g r hr
    rwa [hclient] at hold
  · exact fun k u hu => threads_update p s h.threads (p.thread c) new
      (fun v hv => congrArg p.thread (hnew v hv)) k u hu

/-- A handler is called for the descriptor of its connection. -/
theorem handle_inv (p : Setup T C) (s : Process T C) (j : T) (f : Nat) (o : Outcome)
    (r : Registration C) (proc : Proc) (h : Inv p s) (hidle : s.work j = [])
    (hr : s.loop j f = some r) : Inv p (s.handle j f o r.client proc) := by
  rcases h.loops j f r hr with ⟨hj, hf⟩
  subst hj
  subst hf
  exact begin_inv p s r.client _ _ h hidle (runProc_client o r.client _ proc)
    (follows_runProc o r.client _ proc)

omit [DecidableEq T] in
/-- Something else in the process opens or closes a descriptor. -/
theorem table_inv (p : Setup T C) (s : Process T C) (table : List (Option (Holder C)))
    (h : Inv p s) (hheld : ∀ g c, holder s.table g = some (.conn c) →
      holder table g = some (.conn c)) : Inv p { s with table := table } where
  standing c :=
    standing_frame p s _ c _ (fun g hg => hheld g c hg) rfl (fun _ _ => rfl) id (h.standing c)
  loops := h.loops
  threads := h.threads

theorem step_inv (p : Setup T C) (s s' : Process T C) (a : Act T C) (h : Inv p s)
    (hok : connects p s a = true) (hs : step p s a = some s') : Inv p s' := by
  cases a with
  | readable j f o =>
      simp only [step] at hs
      split_ifs at hs with hidle
      rcases Option.bind_eq_some_iff.mp hs with ⟨r, hr, hs⟩
      rcases Option.map_eq_some_iff.mp hs with ⟨proc, _, rfl⟩
      exact handle_inv p s j f o r proc h hidle hr
  | writable j f o =>
      simp only [step] at hs
      split_ifs at hs with hidle
      rcases Option.bind_eq_some_iff.mp hs with ⟨r, hr, hs⟩
      rcases Option.map_eq_some_iff.mp hs with ⟨proc, _, rfl⟩
      exact handle_inv p s j f o r proc h hidle hr
  | timer c =>
      simp only [step] at hs
      split_ifs at hs with hidle
      rw [← Option.some.inj hs]
      refine begin_inv p s c (delayRequest c) _ h hidle.1 (fun t ht => ?_) ?_
      · rw [List.mem_singleton.mp ht]
      · unfold delayRequest
        rw [mine_cons_self]
        exact .createOwn _ _ (.nil _)
  | call j ok =>
      -- A single call of a handler under way.
      simp only [step] at hs
      cases hwork : s.work j with
      | nil =>
          rw [hwork] at hs
          exact absurd hs.symm (Option.some_ne_none s')
      | cons t rest =>
          rw [hwork] at hs
          rw [← Option.some.inj hs]
          exact call_inv p s j t.1 t.2 rest ok h hwork hok
  | otherOpens =>
      -- What other code opens is a number that nobody held.
      rw [← Option.some.inj hs]
      exact table_inv p s _ h fun g c =>
        (holder_openFd_other s.table .other (.conn c) g fun hc => nomatch hc).mp
  | otherCloses f =>
      -- What it closes is its own.
      simp only [step] at hs
      split_ifs at hs with hother
      rw [← Option.some.inj hs]
      refine table_inv p s _ h fun g c => (holder_closeFd_other s.table f g (.conn c) fun hg => ?_).mp
      rw [hother] at hg
      cases hg

theorem mine_start (c : C) (l : List C) (hl : l.Nodup) :
    mine c (l.flatMap connectSocket) = if c ∈ l then [.socket] else [] := by
  induction l with
  | nil => rfl
  | cons d l ih =>
      have hnodup := List.nodup_cons.mp hl
      rw [List.flatMap_cons, mine_append, ih hnodup.2]
      by_cases hd : d = c
      · rw [if_neg (hd ▸ hnodup.1), if_pos (hd ▸ List.mem_cons_self), hd]
        unfold connectSocket
        rw [mine_cons_self]
        rfl
      · unfold connectSocket
        rw [mine_cons_other c d _ _ hd]
        have hne : ¬ c = d := fun h => hd h.symm
        simp only [List.mem_cons, hne, false_or]
        rfl

omit [DecidableEq T] in
theorem start_inv (p : Setup T C) (open_ : Nat) : Inv p (start p open_) where
  standing c := by
    have hmem : c ∈ p.connections (p.thread c) := (p.mem_iff _ c).mpr rfl
    change Standing p _ c (mine c ((p.connections (p.thread c)).flatMap connectSocket))
    rw [mine_start c _ (p.nodup _), if_pos hmem]
    exact .closed [] (fun _ _ _ hr => absurd hr.symm (Option.some_ne_none _)) .nil
  loops _ _ _ hr := absurd hr.symm (Option.some_ne_none _)
  threads j t ht := by
    rcases List.mem_flatMap.mp ht with ⟨c, hc, hct⟩
    rw [List.mem_singleton.mp hct]
    exact (p.mem_iff j c).mp hc

omit [DecidableEq T] in
theorem owns_of_inv (p : Setup T C) (s : Process T C) (h : Inv p s) : Owns s := by
  intro j t rest c f hwork hacts
  rcases t with ⟨d, task⟩
  have hj : p.thread d = j := h.threads j (d, task) (hwork ▸ List.mem_cons_self)
  have hstanding := h.standing d
  rw [hj, hwork, mine_cons_self] at hstanding
  generalize mine d rest = after at hstanding
  cases hstanding with
  | registered _ hreg hfollows =>
      -- While it is registered a connection acts on its own descriptor.
      cases hfollows with
      | create _ r proc _ _ | createOwn _ _ _ | delete _ _ _ | reconnect _ _ _ =>
          simp only [actsOn, Option.some.injEq, Prod.mk.injEq] at hacts
          rw [← hacts.1, ← hacts.2]
          exact hreg.held
  | deleted _ hheld _ _ =>
      -- The descriptor is open until it is closed.
      simp only [actsOn, Option.some.injEq, Prod.mk.injEq] at hacts
      rw [← hacts.1, ← hacts.2]
      exact hheld
  -- Neither of these has a descriptor to act on.
  | closed => cases hacts
  | opened => cases hacts
  | connected g _ hheld _ _ =>
      simp only [actsOn, Option.some.injEq, Prod.mk.injEq] at hacts
      rw [← hacts.1, ← hacts.2]
      exact hheld

omit [DecidableEq T] in
theorem live_of_inv (p : Setup T C) (s : Process T C) (h : Inv p s) : Live p s := by
  intro c hidle
  have hstanding := h.standing c
  rw [hidle] at hstanding
  cases hstanding with
  | registered _ hreg _ =>
      rcases hreg.entry with ⟨r, hr, hclient, _⟩
      exact ⟨hreg.held, r, hr, hclient⟩

/-- In every run in which no attempt to connect fails, every call acts on a
    descriptor of its connection, and no connection is lost. -/
theorem descriptors_owned (p : Setup T C) (open_ : Nat) (s : Process T C)
    (hr : Reaches (onlyIf (connects p) (step p)) (start p open_) s) : Owns s ∧ Live p s := by
  have hinv : Inv p s := by
    refine reaches_invariant _ (Inv p) (fun u a u' hu hs => ?_) _ s (start_inv p open_) hr
    rcases onlyIf_some _ _ _ _ _ hs with ⟨hok, hs⟩
    exact step_inv p u u' a hu hok hs
  exact ⟨owns_of_inv p s hinv, live_of_inv p s hinv⟩

/-! ### Two threads with a connection each -/

/-- Two threads, and loops for sixteen descriptors. -/
def pair : Setup (Fin 2) (Fin 2) :=
  { thread := id
    connections := fun j => [j]
    mem_iff := by decide
    nodup := by decide
    setsize := 16 }

/-- The calls of `connect_socket`. -/
def connecting (j : Fin 2) : List (Act (Fin 2) (Fin 2)) :=
  [.call j true, .call j true, .call j true]

theorem descriptors_owned_pair :
    ∃ s, run (onlyIf (connects pair) (step pair)) (start pair 3) (connecting 0 ++ connecting 1) =
        some s ∧ s.fd 0 = 3 ∧ s.fd 1 = 4 ∧ Owns s ∧ Live pair s := by
  have h : (run (onlyIf (connects pair) (step pair)) (start pair 3)
      (connecting 0 ++ connecting 1)).map (fun s => (s.fd 0, s.fd 1)) = some (3, 4) := by
    decide +kernel
  rcases Option.map_eq_some_iff.mp h with ⟨s, hs, hfds⟩
  rcases Prod.mk.inj hfds with ⟨hfd, hfd'⟩
  exact ⟨s, hs, hfd, hfd', descriptors_owned pair 3 s ⟨_, hs⟩⟩

/-- The end of the stream completes a response of one connection, which
    reconnects twice. The first attempt fails, and the other connection takes
    the number. -/
def overtaken (a b : Fin 2) : List (Act (Fin 2) (Fin 2)) :=
  connecting a ++ connecting b ++
    [.readable a 3 ⟨.ok, .retry, [], false⟩, .call a true, .call a true,
      .readable a 3 ⟨.ok, .retry, [⟨true, false⟩], true⟩, .call a true, .call a true,
      .call a true, .call a true, .call a false, .call a true,
      .readable b 4 ⟨.error, .retry, [], false⟩, .call b true, .call b true] ++
    connecting b ++ [.call a true]

/-- The first connection is about to close the descriptor of the second, which
    is then without one. -/
theorem other_closed :
    ∃ s s', run (step pair) (start pair 3) (overtaken 0 1) = some s ∧
      step pair s (.call 0 true) = some s' ∧ ¬ Owns s ∧ ¬ Live pair s' := by
  have h : (run (step pair) (start pair 3) (overtaken 0 1)).map (fun s =>
      (s.work 0, s.fd 0, holder s.table 3, decide ((step pair s (.call 0 true)).map
        (fun s' => (s'.work 1, s'.fd 1, holder s'.table 3)) = some ([], 3, none)))) =
      some ([(0, .closeOwn), (0, .socket)], 3, some (.conn 1), true) := by
    decide +kernel
  rcases Option.map_eq_some_iff.mp h with ⟨s, hs, hend⟩
  simp only [Prod.mk.injEq] at hend
  rcases hend with ⟨hwork, hfd, hheld, hnext⟩
  rcases Option.map_eq_some_iff.mp (of_decide_eq_true hnext) with ⟨s', hs', hend'⟩
  simp only [Prod.mk.injEq] at hend'
  rcases hend' with ⟨hidle, hfd', hfree⟩
  refine ⟨s, s', hs, hs', fun howns => ?_, fun hlive => ?_⟩
  · have hown := howns 0 _ _ 0 3 hwork (congrArg (fun f => some ((0 : Fin 2), f)) hfd)
    rw [hheld] at hown
    exact absurd hown (by decide)
  · have hheld' := (hlive 1 hidle).1
    rw [hfd', hfree] at hheld'
    exact absurd hheld' (by decide)

end Descriptor

end Wrk
