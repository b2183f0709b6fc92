import Wrk.Ae.Interest
import Wrk.Connection.Descriptors

/-!
# The Event Loops of a Process

The process with what its threads really have: an event loop of `ae.c` each,
over an instance of `epoll` that knows descriptors by their numbers. The calls
of the handlers are the same; `aeCreateFileEvent` and `aeDeleteFileEvent` are
those of the event loop, and a descriptor that one thread closes is forgotten
by the instances of all.

What the process answers for `aeCreateFileEvent` is therefore no longer open.
`epoll_ctl` fails, for reasons other than the kernel's own, exactly where the
loop still has a number in its table that has been closed meanwhile, so that
it asks to modify what is no longer there.

## Main definitions

* `Machine`: The process with its event loops.
* `Machine.process`: The process that it shows.
* `Machine.step`: One step.
* `Answered`: An act, with what the kernel answers to it.
* `WatchesOwn`: The interest sets are those of the connections.

## Theorems

* `step_process`: A step of the machine is one of the process.
* `machine_refines`: The same of every run.
* `step_inStep`: The kernel and the loops stay in step.
* `machine_watches`: If no attempt to connect fails, the kernel refuses
  nothing that it would not refuse anyway, and watches only descriptors of
  connections.
-/

namespace Wrk

namespace Descriptor

open Transition

open Ae (Mask aeNone aeCreateFileEvent aeDeleteFileEvent closeDescriptor aeCreateEventLoop)

/-! ### The machine -/

/-- The process, with the event loops of its threads. -/
structure Machine (T C : Type) where
  table : List (Option (Holder C))
  loops : T → Ae.State Proc C
  fd : C → Nat
  timers : C → Nat
  work : T → List (C × Task)

variable {T C : Type}

/-- What is on the agenda for a descriptor, as an entry of a loop. -/
def Registration.ofAgenda (r : Ae.Registration Proc C) : Registration C :=
  ⟨r.reader, r.writer, r.client⟩

/-- The process that a machine shows. -/
def Machine.process (m : Machine T C) : Process T C :=
  { table := m.table
    loop := fun j fd => ((m.loops j).loop.events fd).registration.map Registration.ofAgenda
    fd := m.fd
    timers := m.timers
    work := m.work }

/-- `close`. Every instance of `epoll` forgets the descriptor. -/
def Machine.close (m : Machine T C) (fd : Nat) : Machine T C :=
  { m with
    table := closeFd m.table fd
    loops := fun j => closeDescriptor (m.loops j) fd }

/-- What a call registers. -/
def Machine.registers (m : Machine T C) (c : C) : Task → Option (Nat × Mask × Proc)
  | .create fd r proc => some (fd, ⟨r, !r⟩, proc)
  | .createOwn => some (m.fd c, ⟨false, true⟩, .socketWriteable)
  | .register fd => some (fd, ⟨true, true⟩, .socketConnected)
  | _ => none

/-- What a call closes. -/
def Machine.closes (m : Machine T C) (c : C) : Task → Option Nat
  | .closeOwn => some (m.fd c)
  | .closeNew fd => some fd
  | _ => none

/-- What holds of the event loops of a machine. -/
structure Machine.Sound (p : Setup T C) (m : Machine T C) : Prop where
  loops : ∀ j, Ae.Sound (m.loops j)
  setsize : ∀ j, (m.loops j).loop.setsize = p.setsize
  kernel : ∀ j fd, Ae.InStep fd (m.loops j)
  known : ∀ j fd, Ae.Known fd (m.loops j)
  filled : ∀ j, ∀ l ∈ (m.loops j).log, l.filled = true

/-- An act of the process for one of the machine. The process is told the same,
    unless the call registers a descriptor that was closed while the loop had
    it: that fails, although the kernel has nothing against it. -/
inductive Answered (m : Machine T C) : Act T C → Act T C → Prop
  | same (a : Act T C) : Answered m a a
  | refused (j : T) (c : C) (t : Task) (rest : List (C × Task)) (fd : Nat) (mask : Mask)
      (proc : Proc) (hwork : m.work j = (c, t) :: rest)
      (hregisters : m.registers c t = some (fd, mask, proc))
      (hforgotten : Ae.Forgotten (m.loops j) fd) : Answered m (.call j true) (.call j false)

variable [DecidableEq T]

def Machine.setWork (m : Machine T C) (j : T) (work : List (C × Task)) : Machine T C :=
  { m with work := Function.update m.work j work }

def Machine.setLoop (m : Machine T C) (j : T) (l : Ae.State Proc C) : Machine T C :=
  { m with loops := Function.update m.loops j l }

/-- `aeCreateFileEvent`, and whether it returns `AE_OK`. -/
def Machine.create (m : Machine T C) (j : T) (fd : Nat) (mask : Mask) (proc : Proc) (c : C)
    (ok : Bool) : Machine T C × Bool :=
  let r := aeCreateFileEvent (m.loops j) fd mask proc c ok
  (m.setLoop j r.1, r.2)

/-- `aeDeleteFileEvent`. -/
def Machine.delete (m : Machine T C) (j : T) (fd : Nat) (mask : Mask) : Machine T C :=
  m.setLoop j (aeDeleteFileEvent (m.loops j) fd mask)

variable [DecidableEq C]

/-- One call of a thread. Where it registers a descriptor, `ok` says that the
    kernel has nothing against it for reasons of its own. -/
def Machine.runTask (m : Machine T C) (j : T) (c : C) (rest : List (C × Task)) (ok : Bool) :
    Task → Machine T C
  | .create fd r proc => ((m.setWork j rest).create j fd ⟨r, !r⟩ proc c ok).1
  | .createOwn => ((m.setWork j rest).create j (m.fd c) ⟨false, true⟩ .socketWriteable c ok).1
  | .delete fd => (m.setWork j rest).delete j fd ⟨false, true⟩
  | .deleteOwn => (m.setWork j rest).delete j (m.fd c) ⟨true, true⟩
  | .closeOwn => (m.setWork j rest).close (m.fd c)
  | .closeNew fd => (m.setWork j rest).close fd
  | .socket =>
      if ok then
        { m.setWork j ((c, .connect (lowest m.table)) :: rest) with
          table := openFd m.table (.conn c) }
      else m.setWork j rest
  | .connect fd => m.setWork j ((c, if ok then .register fd else .closeNew fd) :: rest)
  | .register fd =>
      let r := (m.setWork j rest).create j fd ⟨true, true⟩ .socketConnected c ok
      if r.2 then { r.1 with fd := Function.update m.fd c fd }
      else r.1.setWork j ((c, .closeNew fd) :: rest)

/-- A handler is called: its calls are the work of the thread. -/
def Machine.handle (m : Machine T C) (j : T) (fd : Nat) (o : Outcome) (c : C) (proc : Proc) :
    Machine T C :=
  { m with
    work := Function.update m.work j (runProc o c fd proc)
    timers :=
      if proc = .socketWriteable ∧ o.write = .delayed then
        Function.update m.timers c (m.timers c + 1)
      else m.timers }

/-- A file event fires: the handler is called that `aeProcessEvents` finds in
    the table, if the mask has it. -/
def Machine.fire (m : Machine T C) (j : T) (fd : Nat) (o : Outcome) (used : Bool)
    (proc : Option Proc) : Option (Machine T C) :=
  if m.work j = [] ∧ used = true then
    ((m.loops j).loop.events fd).clientData.bind fun c => proc.map (m.handle j fd o c)
  else none

/-- One step. -/
def Machine.step (p : Setup T C) (m : Machine T C) : Act T C → Option (Machine T C)
  | .readable j fd o =>
      m.fire j fd o ((m.loops j).loop.events fd).mask.readable
        ((m.loops j).loop.events fd).rfileProc
  | .writable j fd o =>
      m.fire j fd o ((m.loops j).loop.events fd).mask.writable
        ((m.loops j).loop.events fd).wfileProc
  | .timer c =>
      if m.work (p.thread c) = [] ∧ m.timers c ≠ 0 then
        some
          { m with
            work := Function.update m.work (p.thread c) (delayRequest c)
            timers := Function.update m.timers c (m.timers c - 1) }
      else none
  | .call j ok =>
      match m.work j with
      | [] => none
      | (c, t) :: rest => some (m.runTask j c rest ok t)
  | .otherOpens => some { m with table := openFd m.table .other }
  | .otherCloses fd => if holder m.table fd = some .other then some (m.close fd) else none

/-- `main` makes the event loops, and the threads start. -/
def Machine.start (p : Setup T C) (env : T → Ae.Env Proc C) (open_ : Nat) : Machine T C :=
  { table := List.replicate open_ (some .other)
    loops := fun j => aeCreateEventLoop (env j) p.setsize
    fd := fun _ => 0
    timers := fun _ => 0
    work := fun j => (p.connections j).flatMap connectSocket }

/-! ### What a machine shows -/

omit [DecidableEq T] [DecidableEq C] in
/-- A handler is added to an entry. -/
theorem ofAgenda_register (old : Option (Ae.Registration Proc C)) (mask : Mask) (proc : Proc)
    (c : C) (hmask : mask ≠ aeNone) :
    (Ae.register old mask proc c).map Registration.ofAgenda =
      some
        { readable :=
            if mask.readable then some proc
            else (old.map Registration.ofAgenda).bind (·.readable)
          writable :=
            if mask.writable then some proc
            else (old.map Registration.ofAgenda).bind (·.writable)
          client := c } := by
  have hold : (old.map Registration.ofAgenda).bind (·.readable) = old.bind (·.reader) ∧
      (old.map Registration.ofAgenda).bind (·.writable) = old.bind (·.writer) := by
    cases old <;> exact ⟨rfl, rfl⟩
  have hused : (if mask.readable then some proc else old.bind (·.reader)).isSome = true ∨
      (if mask.writable then some proc else old.bind (·.writer)).isSome = true := by
    by_cases hr : mask.readable = true
    · exact Or.inl (by rw [if_pos hr]; rfl)
    · by_cases hw : mask.writable = true
      · exact Or.inr (by rw [if_pos hw]; rfl)
      · exact absurd (Ae.mask_eq_none mask hr hw) hmask
  unfold Ae.register Ae.Registration.of
  rw [dif_pos hused, hold.1, hold.2]
  rfl

omit [DecidableEq T] [DecidableEq C] in
/-- Handlers are removed from an entry. -/
theorem ofAgenda_unregister (r : Ae.Registration Proc C) (mask : Mask) :
    (Ae.unregister (some r) mask).map Registration.ofAgenda =
      if (if mask.readable then none else r.reader) = none ∧
          (if mask.writable then none else r.writer) = none then none
      else some
        { Registration.ofAgenda r with
          readable := if mask.readable then none else r.reader
          writable := if mask.writable then none else r.writer } := by
  unfold Ae.unregister Ae.Registration.of
  rw [Option.bind_some]
  by_cases hused : (if mask.readable then none else r.reader).isSome = true ∨
      (if mask.writable then none else r.writer).isSome = true
  · have hsome : ¬((if mask.readable then none else r.reader) = none ∧
        (if mask.writable then none else r.writer) = none) := by
      rintro ⟨hr, hw⟩
      exact hused.elim (fun h => nomatch (congrArg Option.isSome hr).symm.trans h)
        (fun h => nomatch (congrArg Option.isSome hw).symm.trans h)
    rw [dif_pos hused, if_neg hsome]
    rfl
  · rw [dif_neg hused, if_pos]
    · rfl
    · rw [not_or, Bool.not_eq_true, Bool.not_eq_true, Option.isSome_eq_false_iff,
        Option.isSome_eq_false_iff, Option.isNone_iff_eq_none, Option.isNone_iff_eq_none] at hused
      exact hused

omit [DecidableEq C] in
theorem setLoop_process (m : Machine T C) (j : T) (l : Ae.State Proc C) (fd : Nat)
    (fe : Ae.FileEvent Proc C)
    (hevents : l.loop.events = Function.update (m.loops j).loop.events fd fe) :
    (m.setLoop j l).process =
      m.process.setLoop j fd (fe.registration.map Registration.ofAgenda) := by
  have hloop : (m.setLoop j l).process.loop =
      (m.process.setLoop j fd (fe.registration.map Registration.ofAgenda)).loop := by
    funext k g
    rw [setLoop_loop]
    change Option.map _ (((Function.update m.loops j l k).loop.events g).registration) = _
    by_cases hk : k = j
    · rw [hk, Function.update_self, hevents]
      by_cases hg : g = fd
      · rw [hg, Function.update_self, if_pos ⟨rfl, rfl⟩]
      · rw [Function.update_of_ne hg, if_neg fun h => hg h.2]
        rfl
    · rw [Function.update_of_ne hk, if_neg fun h => hk h.1]
      rfl
  exact congrArg (fun loop => { m.process with loop := loop }) hloop

omit [DecidableEq C] in
/-- `aeCreateFileEvent`, whatever the answer stands for. -/
theorem create_process (p : Setup T C) (m : Machine T C) (h : m.Sound p) (j : T) (fd : Nat)
    (mask : Mask) (proc : Proc) (c : C) (ok ok' : Bool) (hmask : mask ≠ aeNone)
    (hok : (m.create j fd mask proc c ok).2 = (decide (fd < p.setsize) && ok')) :
    createFileEvent p m.process j fd mask.readable mask.writable proc c ok' =
      if (m.create j fd mask proc c ok).2 then some (m.create j fd mask proc c ok).1.process
      else none := by
  have hiff : (fd < p.setsize ∧ ok' = true) ↔ (m.create j fd mask proc c ok).2 = true := by
    rw [hok, Bool.and_eq_true, decide_eq_true_eq]
  unfold createFileEvent
  by_cases hres : (m.create j fd mask proc c ok).2 = true
  · rw [if_pos (hiff.mpr hres), if_pos hres]
    rcases Ae.aeCreateFileEvent_cases (m.loops j) fd mask proc c ok with heq | ⟨_, _, _, _, hevents⟩
    · have hfalse : (aeCreateFileEvent (m.loops j) fd mask proc c ok).2 = false := by rw [heq]
      exact absurd (hfalse.symm.trans hres) Bool.false_ne_true
    · have hview := setLoop_process m j (aeCreateFileEvent (m.loops j) fd mask proc c ok).1 fd _
        hevents
      rw [Ae.create_registration _ mask proc c ((h.loops j).files fd),
        ofAgenda_register _ mask proc c hmask] at hview
      exact congrArg some hview.symm
  · rw [if_neg (fun hand => hres (hiff.mp hand)), if_neg hres]

omit [DecidableEq C] in
/-- A call that fails changes nothing. -/
theorem create_failed (m : Machine T C) (j : T) (fd : Nat) (mask : Mask) (proc : Proc) (c : C)
    (ok : Bool) (h : (m.create j fd mask proc c ok).2 = false) :
    (m.create j fd mask proc c ok).1 = m := by
  rcases Ae.aeCreateFileEvent_cases (m.loops j) fd mask proc c ok with heq | ⟨_, _, htrue, _⟩
  · unfold Machine.create Machine.setLoop
    simp only [heq, Function.update_eq_self]
  · exact absurd (h.symm.trans htrue) Bool.false_ne_true

omit [DecidableEq C] in
/-- `aeDeleteFileEvent`. -/
theorem delete_process (p : Setup T C) (m : Machine T C) (h : m.Sound p) (j : T) (fd : Nat)
    (mask : Mask) :
    (m.delete j fd mask).process =
      deleteFileEvent p m.process j fd mask.readable mask.writable := by
  have hsame : ∀ l : Ae.State Proc C, l = m.loops j → (m.setLoop j l).process = m.process := by
    intro l hl
    unfold Machine.setLoop
    rw [hl, Function.update_eq_self]
  unfold deleteFileEvent
  by_cases hfd : p.setsize ≤ fd
  · rw [if_pos hfd]
    refine hsame _ ?_
    unfold aeDeleteFileEvent
    rw [if_pos ((h.setsize j).symm ▸ hfd)]
  · rw [if_neg hfd]
    by_cases hmask : ((m.loops j).loop.events fd).mask = aeNone
    · have hnone : m.process.loop j fd = none := by
        change Option.map _ _ = _
        rw [Ae.registration_none _ hmask, Option.map_none]
      rw [hnone]
      refine hsame _ ?_
      unfold aeDeleteFileEvent
      rw [if_neg ((h.setsize j).symm ▸ hfd), if_pos hmask]
    · rcases Ae.registration_some _ ((h.loops j).files fd) hmask with ⟨r, hr, _⟩
      have hsome : m.process.loop j fd = some (Registration.ofAgenda r) := by
        change Option.map _ _ = _
        rw [hr, Option.map_some]
      have hevents : (aeDeleteFileEvent (m.loops j) fd mask).loop.events =
          Function.update (m.loops j).loop.events fd
            { (m.loops j).loop.events fd with
              mask := ((m.loops j).loop.events fd).mask.without mask } := by
        unfold aeDeleteFileEvent
        rw [if_neg ((h.setsize j).symm ▸ hfd), if_neg hmask]
        rfl
      have hview := setLoop_process m j _ fd _ hevents
      rw [Ae.without_registration _ mask ((h.loops j).files fd) hmask, hr,
        ofAgenda_unregister] at hview
      rw [hsome]
      exact hview

omit [DecidableEq C] in
theorem create_getD (p : Setup T C) (m : Machine T C) (h : m.Sound p) (j : T) (fd : Nat)
    (mask : Mask) (proc : Proc) (c : C) (ok ok' : Bool) (hmask : mask ≠ aeNone)
    (hok : (m.create j fd mask proc c ok).2 = (decide (fd < p.setsize) && ok')) :
    (m.create j fd mask proc c ok).1.process =
      (createFileEvent p m.process j fd mask.readable mask.writable proc c ok').getD m.process := by
  rw [create_process p m h j fd mask proc c ok ok' hmask hok]
  by_cases hres : (m.create j fd mask proc c ok).2 = true
  · rw [if_pos hres, Option.getD_some]
  · rw [if_neg hres, Option.getD_none, create_failed m j fd mask proc c ok
      (Bool.not_eq_true _ ▸ hres)]

/-! ### One step -/

omit [DecidableEq T] [DecidableEq C] in
theorem registers_mask (m : Machine T C) (c : C) (t : Task) (fd : Nat) (mask : Mask) (proc : Proc)
    (h : m.registers c t = some (fd, mask, proc)) : mask ≠ aeNone := by
  cases t with
  | create g r proc' =>
      rw [← (Prod.mk.inj (Prod.mk.inj (Option.some.inj h)).2).1]
      cases r <;> decide
  | createOwn | register =>
      rw [← (Prod.mk.inj (Prod.mk.inj (Option.some.inj h)).2).1]
      decide
  | delete | deleteOwn | closeOwn | closeNew | socket | connect => cases h

/-- The process is to be told the second where the machine is told the first:
    a call that registers fails if the event loop says so. -/
def Machine.Answers (p : Setup T C) (m : Machine T C) (j : T) (c : C) (t : Task)
    (ok ok' : Bool) : Prop :=
  (m.registers c t = none → ok' = ok) ∧
    ∀ fd mask proc, m.registers c t = some (fd, mask, proc) →
      (m.create j fd mask proc c ok).2 = (decide (fd < p.setsize) && ok')

/-- A call of the machine is one of the process. -/
theorem runTask_process (p : Setup T C) (m : Machine T C) (h : m.Sound p) (j : T) (c : C)
    (rest : List (C × Task)) (ok ok' : Bool) (t : Task) (hans : m.Answers p j c t ok ok') :
    (m.runTask j c rest ok t).process = runTask p m.process j c rest ok' t := by
  have hwork : ∀ work, (m.setWork j work).Sound p := fun _ =>
    ⟨h.loops, h.setsize, h.kernel, h.known, h.filled⟩
  cases t with
  | create fd r proc =>
      exact create_getD p (m.setWork j rest) (hwork rest) j fd ⟨r, !r⟩ proc c ok ok'
        (registers_mask m c (.create fd r proc) fd _ proc rfl) (hans.2 fd _ proc rfl)
  | createOwn =>
      exact create_getD p (m.setWork j rest) (hwork rest) j (m.fd c) ⟨false, true⟩
        .socketWriteable c ok ok' (registers_mask m c .createOwn _ _ _ rfl) (hans.2 _ _ _ rfl)
  | delete fd => exact delete_process p (m.setWork j rest) (hwork rest) j fd ⟨false, true⟩
  | deleteOwn => exact delete_process p (m.setWork j rest) (hwork rest) j (m.fd c) ⟨true, true⟩
  | closeOwn => rfl
  | closeNew fd => rfl
  | socket =>
      rw [hans.1 rfl]
      cases ok <;> rfl
  | connect fd =>
      rw [hans.1 rfl]
      rfl
  | register fd =>
      have hcreate := create_process p (m.setWork j rest) (hwork rest) j fd ⟨true, true⟩
        .socketConnected c ok ok' (registers_mask m c (.register fd) fd _ _ rfl) (hans.2 fd _ _ rfl)
      have hcreate' : createFileEvent p
          { m.process with work := Function.update m.process.work j rest } j fd true true
          .socketConnected c ok' = _ := hcreate
      simp only [Machine.runTask, runTask, hcreate']
      by_cases hres : ((m.setWork j rest).create j fd ⟨true, true⟩ .socketConnected c ok).2 = true
      · simp only [if_pos hres]
        rfl
      · simp only [if_neg hres]
        rw [create_failed _ j fd ⟨true, true⟩ .socketConnected c ok (Bool.not_eq_true _ ▸ hres)]
        unfold Machine.setWork Machine.process
        simp only [Function.update_idem]

omit [DecidableEq T] [DecidableEq C] in
/-- What a machine finds in a mask, the process has an entry for. -/
theorem entry_process (p : Setup T C) (m : Machine T C) (h : m.Sound p) (j : T) (fd : Nat)
    (hmask : ((m.loops j).loop.events fd).mask ≠ aeNone) :
    ∃ r : Registration C, m.process.loop j fd = some r ∧
      r.readable = (if ((m.loops j).loop.events fd).mask.readable then
        ((m.loops j).loop.events fd).rfileProc else none) ∧
      r.writable = (if ((m.loops j).loop.events fd).mask.writable then
        ((m.loops j).loop.events fd).wfileProc else none) ∧
      ((m.loops j).loop.events fd).clientData = some r.client := by
  rcases Ae.registration_some _ ((h.loops j).files fd) hmask with ⟨r, hr, hreader, hwriter, hclient⟩
  refine ⟨Registration.ofAgenda r, ?_, hreader, hwriter, hclient⟩
  change Option.map _ _ = _
  rw [hr, Option.map_some]

/-- What registering, removing and closing keep, a call of a thread keeps. -/
theorem runTask_loops (I : Ae.State Proc C → Prop) (m : Machine T C) (j : T) (c : C)
    (rest : List (C × Task)) (ok : Bool) (t : Task)
    (hcreate : ∀ s fd mask proc, mask ≠ aeNone → I s → I (aeCreateFileEvent s fd mask proc c ok).1)
    (hdelete : ∀ s fd mask, I s → I (aeDeleteFileEvent s fd mask))
    (hclose : ∀ k fd, m.closes c t = some fd → I (closeDescriptor (m.loops k) fd))
    (h : ∀ k, I (m.loops k)) (k : T) : I ((m.runTask j c rest ok t).loops k) := by
  have hset : ∀ l, I l → I ((m.setLoop j l).loops k) := by
    intro l hl
    change I (Function.update m.loops j l k)
    by_cases hk : k = j
    · rw [hk, Function.update_self]
      exact hl
    · rw [Function.update_of_ne hk]
      exact h k
  cases t with
  | create fd r proc =>
      exact hset _ (hcreate _ fd _ proc (registers_mask m c (.create fd r proc) fd _ proc rfl)
        (h j))
  | createOwn =>
      exact hset _ (hcreate _ _ _ _ (registers_mask m c .createOwn _ _ _ rfl) (h j))
  | delete fd => exact hset _ (hdelete _ fd _ (h j))
  | deleteOwn => exact hset _ (hdelete _ _ _ (h j))
  | closeOwn => exact hclose k (m.fd c) rfl
  | closeNew fd => exact hclose k fd rfl
  | socket => cases ok <;> exact h k
  | connect fd => exact h k
  | register fd =>
      have hnew := hset _ (hcreate (m.loops j) fd ⟨true, true⟩ .socketConnected
        (registers_mask m c (.register fd) fd _ _ rfl) (h j))
      simp only [Machine.runTask]
      split
      · exact hnew
      · exact hnew

/-- A file event that fires. -/
theorem fire_cases (m m' : Machine T C) (j : T) (fd : Nat) (o : Outcome) (used : Bool)
    (proc : Option Proc) (hs : m.fire j fd o used proc = some m') :
    m.work j = [] ∧ used = true ∧ ∃ c proc',
      ((m.loops j).loop.events fd).clientData = some c ∧ proc = some proc' ∧
        m' = m.handle j fd o c proc' := by
  unfold Machine.fire at hs
  split_ifs at hs with hcond
  rcases Option.bind_eq_some_iff.mp hs with ⟨c, hc, hs⟩
  rcases Option.map_eq_some_iff.mp hs with ⟨proc', hproc, rfl⟩
  exact ⟨hcond.1, hcond.2, c, proc', hc, hproc, rfl⟩

/-- What a step closes. -/
def Machine.closing (m : Machine T C) : Act T C → Option Nat
  | .call j _ =>
      match m.work j with
      | [] => none
      | (c, t) :: _ => m.closes c t
  | .otherCloses fd => some fd
  | _ => none

/-- The same for a step. -/
theorem step_loops (I : Ae.State Proc C → Prop) (p : Setup T C) (m m' : Machine T C) (a : Act T C)
    (hcreate : ∀ s fd mask proc c ok, mask ≠ aeNone → I s →
      I (aeCreateFileEvent s fd mask proc c ok).1)
    (hdelete : ∀ s fd mask, I s → I (aeDeleteFileEvent s fd mask))
    (hclose : ∀ k fd, m.closing a = some fd → I (closeDescriptor (m.loops k) fd))
    (h : ∀ k, I (m.loops k)) (hs : m.step p a = some m') (k : T) : I (m'.loops k) := by
  have hfire : ∀ j fd o used proc, m.fire j fd o used proc = some m' → I (m'.loops k) := by
    intro j fd o used proc hs
    rcases fire_cases m m' j fd o used proc hs with ⟨_, _, c, proc', _, _, rfl⟩
    exact h k
  cases a with
  | readable j fd o => exact hfire j fd o _ _ hs
  | writable j fd o => exact hfire j fd o _ _ hs
  | timer c =>
      simp only [Machine.step] at hs
      split_ifs at hs
      rw [← Option.some.inj hs]
      exact h k
  | call j ok =>
      simp only [Machine.step] at hs
      cases hwork : m.work j with
      | nil =>
          rw [hwork] at hs
          cases hs
      | cons t rest =>
          rw [hwork] at hs
          rw [← Option.some.inj hs]
          refine runTask_loops I m j t.1 rest ok t.2
            (fun s fd mask proc => hcreate s fd mask proc _ ok)
            hdelete (fun i fd hcloses => hclose i fd ?_) h k
          simp only [Machine.closing, hwork]
          exact hcloses
  | otherOpens =>
      rw [← Option.some.inj hs]
      exact h k
  | otherCloses fd =>
      simp only [Machine.step] at hs
      split_ifs at hs
      rw [← Option.some.inj hs]
      exact hclose k fd rfl

theorem step_sound (p : Setup T C) (m m' : Machine T C) (a : Act T C) (h : m.Sound p)
    (hs : m.step p a = some m') : m'.Sound p := by
  refine ⟨step_loops Ae.Sound p m m' a ?_ ?_ ?_ h.loops hs,
    step_loops (fun s => s.loop.setsize = p.setsize) p m m' a ?_ ?_ ?_ h.setsize hs,
    step_loops (fun s => ∀ fd, Ae.InStep fd s) p m m' a ?_ ?_ ?_ h.kernel hs,
    step_loops (fun s => ∀ fd, Ae.Known fd s) p m m' a ?_ ?_ ?_ h.known hs,
    step_loops (fun s => ∀ l ∈ s.log, l.filled = true) p m m' a ?_ ?_ ?_ h.filled hs⟩
  · exact fun s fd mask proc c ok _ hl => (Ae.aeCreateFileEvent_does s fd mask proc c ok hl).sound
  · exact fun s fd mask hl => (Ae.aeDeleteFileEvent_does s fd mask hl).sound
  · exact fun k fd _ => (Ae.closeDescriptor_does (m.loops k) fd (h.loops k)).sound
  · exact fun s fd mask proc c ok _ hl =>
      (Ae.aeCreateFileEvent_setsize s fd mask proc c ok).trans hl
  · exact fun s fd mask hl => (Ae.aeDeleteFileEvent_setsize s fd mask).trans hl
  · exact fun k fd _ => h.setsize k
  · exact fun s g mask proc c ok _ hl fd =>
      Ae.aeCreateFileEvent_inStep fd s g mask proc c ok (hl fd)
  · exact fun s g mask hl fd => Ae.aeDeleteFileEvent_inStep fd s g mask (hl fd)
  · exact fun k g _ fd => Ae.closeDescriptor_inStep fd _ g (h.kernel k fd)
  · exact fun s g mask proc c ok hmask hl fd =>
      Ae.aeCreateFileEvent_known fd s g mask proc c ok hmask (hl fd)
  · exact fun s g mask hl fd => Ae.aeDeleteFileEvent_known fd s g mask (hl fd)
  · exact fun k g _ fd => Ae.closeDescriptor_known fd _ g (h.known k fd)
  · intro s g mask proc c ok hmask hl
    rcases Ae.aeCreateFileEvent_cases s g mask proc c ok with heq | ⟨_, _, _, hlog, _⟩
    · rw [heq]
      exact hl
    · rw [hlog]
      exact List.forall_mem_cons.mpr ⟨decide_eq_true hmask, hl⟩
  · intro s g mask hl
    rcases Ae.aeDeleteFileEvent_cases s g mask with heq | ⟨hlog, _⟩
    · rw [heq]
      exact hl
    · rw [hlog]
      exact List.forall_mem_cons.mpr ⟨rfl, hl⟩
  · exact fun k g _ => List.forall_mem_cons.mpr ⟨rfl, h.filled k⟩

omit [DecidableEq C] in
/-- What the process is told about a call: that it fails, if it does. -/
theorem answer_exists (p : Setup T C) (m : Machine T C) (h : m.Sound p) (j : T) (c : C)
    (t : Task) (ok : Bool) :
    ∃ ok', m.Answers p j c t ok ok' ∧ (ok' = ok ∨ ok = true ∧ ok' = false ∧
      ∃ fd mask proc, m.registers c t = some (fd, mask, proc) ∧
        Ae.Forgotten (m.loops j) fd) := by
  cases hreg : m.registers c t with
  | none =>
      refine ⟨ok, ⟨fun _ => rfl, fun fd mask proc hsome => ?_⟩, Or.inl rfl⟩
      rw [hreg] at hsome
      cases hsome
  | some x =>
      rcases x with ⟨fd, mask, proc⟩
      have hanswers : ∀ ok', (m.create j fd mask proc c ok).2 = (decide (fd < p.setsize) && ok') →
          m.Answers p j c t ok ok' := by
        refine fun ok' hok' => ⟨fun hnone => ?_, fun fd' mask' proc' hsome => ?_⟩
        · rw [hreg] at hnone
          cases hnone
        · rw [hreg, Option.some.injEq, Prod.mk.injEq, Prod.mk.injEq] at hsome
          rw [← hsome.1, ← hsome.2.1, ← hsome.2.2]
          exact hok'
      rcases Ae.aeCreateFileEvent_cases (m.loops j) fd mask proc c ok with
        heq | ⟨hfd, hok, htrue, _⟩
      · have hfalse : (m.create j fd mask proc c ok).2 = false := congrArg Prod.snd heq
        by_cases hfd : fd < p.setsize
        · refine ⟨false, hanswers false (hfalse.trans (Bool.and_false _).symm), ?_⟩
          cases ok with
          | false => exact Or.inl rfl
          | true =>
              refine Or.inr ⟨rfl, rfl, fd, mask, proc, rfl, ?_⟩
              exact Ae.forgotten_of_refused (m.loops j) fd mask proc c ((h.setsize j).symm ▸ hfd)
                (h.kernel j fd) (h.known j fd) (h.filled j) hfalse
        · refine ⟨ok, hanswers ok (hfalse.trans ?_), Or.inl rfl⟩
          rw [decide_eq_false hfd, Bool.false_and]
      · refine ⟨true, hanswers true (htrue.trans ?_), Or.inl hok.symm⟩
        rw [Bool.and_true, eq_comm, decide_eq_true_eq, ← h.setsize j]
        exact hfd

theorem call_process (p : Setup T C) (m : Machine T C) (h : m.Sound p) (j : T) (c : C) (t : Task)
    (rest : List (C × Task)) (ok ok' : Bool) (hwork : m.work j = (c, t) :: rest)
    (hanswers : m.Answers p j c t ok ok') :
    step p m.process (.call j ok') = some (m.runTask j c rest ok t).process := by
  rw [runTask_process p m h j c rest ok ok' t hanswers]
  simp only [step]
  rw [show m.process.work j = (c, t) :: rest from hwork]

/-- A step of the machine is one of the process, if the process is told what
    the event loop makes of the answer. -/
theorem step_process (p : Setup T C) (m m' : Machine T C) (a : Act T C) (h : m.Sound p)
    (hs : m.step p a = some m') : ∃ b, Answered m a b ∧ step p m.process b = some m'.process := by
  have hmask : ∀ (j : T) (fd : Nat), ((m.loops j).loop.events fd).mask.readable = true ∨
      ((m.loops j).loop.events fd).mask.writable = true →
      ((m.loops j).loop.events fd).mask ≠ aeNone := by
    rintro j fd hused hnone
    rw [hnone] at hused
    exact hused.elim Bool.false_ne_true Bool.false_ne_true
  cases a with
  | readable j fd o =>
      rcases fire_cases m m' j fd o _ _ hs with ⟨hidle, hused, c, proc, hc, hproc, rfl⟩
      rcases entry_process p m h j fd (hmask j fd (Or.inl hused)) with ⟨r, hr, hreader, _, hclient⟩
      rw [if_pos hused, hproc] at hreader
      refine ⟨_, .same _, ?_⟩
      simp only [step]
      rw [if_pos (show m.process.work j = [] from hidle), hr, Option.bind_some, hreader,
        Option.some.inj (hclient.symm.trans hc)]
      rfl
  | writable j fd o =>
      rcases fire_cases m m' j fd o _ _ hs with ⟨hidle, hused, c, proc, hc, hproc, rfl⟩
      rcases entry_process p m h j fd (hmask j fd (Or.inr hused)) with ⟨r, hr, _, hwriter, hclient⟩
      rw [if_pos hused, hproc] at hwriter
      refine ⟨_, .same _, ?_⟩
      simp only [step]
      rw [if_pos (show m.process.work j = [] from hidle), hr, Option.bind_some, hwriter,
        Option.some.inj (hclient.symm.trans hc)]
      rfl
  | timer c =>
      refine ⟨_, .same _, ?_⟩
      simp only [Machine.step] at hs
      split_ifs at hs with hidle
      rw [← Option.some.inj hs]
      exact if_pos hidle
  | call j ok =>
      simp only [Machine.step] at hs
      cases hwork : m.work j with
      | nil =>
          rw [hwork] at hs
          cases hs
      | cons t rest =>
          rw [hwork] at hs
          rw [← Option.some.inj hs]
          rcases answer_exists p m h j t.1 t.2 ok with ⟨ok', hanswers, hwhich⟩
          have hcall := call_process p m h j t.1 t.2 rest ok ok' hwork hanswers
          rcases hwhich with rfl | ⟨rfl, rfl, fd, mask, proc, hregisters, hforgotten⟩
          · exact ⟨_, .same _, hcall⟩
          · exact ⟨_, .refused j t.1 t.2 rest fd mask proc hwork hregisters hforgotten, hcall⟩
  | otherOpens =>
      rw [← Option.some.inj hs]
      exact ⟨_, .same _, rfl⟩
  | otherCloses fd =>
      refine ⟨_, .same _, ?_⟩
      simp only [Machine.step] at hs
      split_ifs at hs with hother
      rw [← Option.some.inj hs]
      exact if_pos hother

omit [DecidableEq T] [DecidableEq C] in
theorem start_sound (p : Setup T C) (env : T → Ae.Env Proc C) (open_ : Nat) :
    (Machine.start p env open_).Sound p :=
  ⟨fun j => Ae.sound_create (env j) p.setsize, fun _ => rfl, fun _ _ _ => rfl, fun _ _ _ => rfl,
    fun _ _ hl => absurd hl List.not_mem_nil⟩

/-! ### The kernel -/

omit [DecidableEq T] in
/-- What has an entry in a loop is held by its connection. -/
theorem entry_held (p : Setup T C) (s : Process T C) (h : Inv p s) (k : T) (fd : Nat)
    (r : Registration C) (hr : s.loop k fd = some r) :
    p.thread r.client = k ∧ s.fd r.client = fd ∧ Registered p s r.client fd := by
  rcases h.loops k fd r hr with ⟨hk, hfd⟩
  have hstanding := h.standing r.client
  generalize mine r.client (s.work (p.thread r.client)) = tasks at hstanding
  refine ⟨hk, hfd, ?_⟩
  cases hstanding with
  | registered _ hreg _ => exact hfd ▸ hreg
  | deleted _ _ hno _ => exact absurd rfl (hno k fd r hr)
  | closed _ hno _ => exact absurd rfl (hno k fd r hr)
  | opened _ _ _ hno _ => exact absurd rfl (hno k fd r hr)
  | connected _ _ _ hno _ => exact absurd rfl (hno k fd r hr)

/-- What a step closes is not registered in any loop. -/
theorem closing_unused (p : Setup T C) (m m' : Machine T C) (a : Act T C) (h : Inv p m.process)
    (hs : m.step p a = some m') (fd : Nat) (hclosing : m.closing a = some fd) (k : T) :
    m.process.loop k fd = none := by
  have hother : ∀ hold, holder m.table fd = some hold →
      (∀ c, hold = .conn c → NoEntry m.process c) → m.process.loop k fd = none := by
    intro hold hheld hno
    cases hentry : m.process.loop k fd with
    | none => rfl
    | some r =>
        rcases entry_held p m.process h k fd r hentry with ⟨_, _, hreg⟩
        have hconn : hold = .conn r.client := Option.some.inj (hheld.symm.trans hreg.held)
        exact absurd rfl (hno r.client hconn k fd r hentry)
  cases a with
  | otherCloses g =>
      simp only [Machine.step] at hs
      split_ifs at hs with hheld
      rw [Machine.closing, Option.some.injEq] at hclosing
      exact hother .other (hclosing ▸ hheld) (fun _ hc => nomatch hc)
  | call j ok =>
      simp only [Machine.closing] at hclosing
      cases hwork : m.work j with
      | nil =>
          rw [hwork] at hclosing
          cases hclosing
      | cons t rest =>
          rw [hwork] at hclosing
          rcases t with ⟨c, t⟩
          have hwork' : m.process.work j = (c, t) :: rest := hwork
          have hj : p.thread c = j := h.threads j (c, t) (hwork' ▸ List.mem_cons_self)
          have hstanding := h.standing c
          rw [hj, hwork', mine_cons_self] at hstanding
          generalize mine c rest = after at hstanding
          -- Of the calls that may come next only one closes, and it comes after
          -- the registration is gone.
          cases hstanding with
          | registered _ _ hfollows => cases hfollows <;> cases hclosing
          | deleted _ hheld hno _ =>
              have hfd : m.process.fd c = fd := Option.some.inj hclosing
              rw [hfd] at hheld
              exact hother (.conn c) hheld (fun d hd => Holder.conn.inj hd ▸ hno)
          | closed | opened | connected => cases hclosing
  | readable | writable | timer | otherOpens => cases hclosing

/-- The loops and the kernel are in step, and the process is as it should
    be. -/
structure Machine.InStep (p : Setup T C) (m : Machine T C) : Prop where
  sound : m.Sound p
  inv : Inv p m.process
  careful : ∀ j, ∀ l ∈ (m.loops j).log, ∀ fd, l.careful fd = true

omit [DecidableEq T] in
theorem inStep_right (p : Setup T C) (m : Machine T C) (h : m.InStep p) (j : T) (fd : Nat) :
    Ae.WatchedRight (m.loops j) fd :=
  Ae.watchedRight_of_epoll _ fd (h.sound.kernel j fd fun l hl => h.careful j l hl fd)

/-- A step keeps them in step, and nothing is refused that the kernel would not
    refuse anyway. -/
theorem step_inStep (p : Setup T C) (m m' : Machine T C) (a : Act T C) (h : m.InStep p)
    (hok : connects p m.process a = true) (hs : m.step p a = some m') :
    m'.InStep p ∧ step p m.process a = some m'.process := by
  have hunused : ∀ k fd, m.closing a = some fd → ((m.loops k).loop.events fd).mask = aeNone := by
    intro k fd hclosing
    by_contra hmask
    rcases entry_process p m h.sound k fd hmask with ⟨r, hr, _⟩
    rw [closing_unused p m m' a h.inv hs fd hclosing k] at hr
    cases hr
  have hstep : step p m.process a = some m'.process := by
    rcases step_process p m m' a h.sound hs with ⟨b, hb, hstep⟩
    cases hb with
    | same => exact hstep
    | refused j c t rest fd mask proc hwork hregisters hforgotten =>
        -- A descriptor that was closed was not registered.
        have hcareful := h.careful j _ hforgotten.closed fd
        simp only [Ae.Label.careful, ne_eq, not_true_eq_false, decide_false, Bool.not_true,
          Bool.or_false, Bool.false_eq_true] at hcareful
  refine ⟨⟨step_sound p m m' a h.sound hs, step_inv p _ _ a h.inv hok hstep, ?_⟩, hstep⟩
  · refine step_loops (fun s => ∀ l ∈ s.log, ∀ fd, l.careful fd = true) p m m' a ?_ ?_ ?_
      h.careful hs
    · intro s g mask proc c ok hmask hl
      rcases Ae.aeCreateFileEvent_cases s g mask proc c ok with heq | ⟨_, _, _, hlog, _⟩
      · rw [heq]
        exact hl
      · rw [hlog]
        refine List.forall_mem_cons.mpr ⟨fun fd => ?_, hl⟩
        simp only [Ae.Label.careful, hmask, ne_eq, not_false_eq_true, decide_true, Bool.or_true]
    · intro s g mask hl
      rcases Ae.aeDeleteFileEvent_cases s g mask with heq | ⟨hlog, _⟩
      · rw [heq]
        exact hl
      · rw [hlog]
        exact List.forall_mem_cons.mpr ⟨fun _ => rfl, hl⟩
    · intro k g hclosing
      refine List.forall_mem_cons.mpr ⟨fun fd => ?_, h.careful k⟩
      simp only [Ae.Label.careful, hunused k g hclosing, ne_eq, not_true_eq_false, decide_false,
        Bool.not_false, Bool.or_true]

omit [DecidableEq T] in
theorem start_inStep (p : Setup T C) (env : T → Ae.Env Proc C) (open_ : Nat) :
    (Machine.start p env open_).InStep p :=
  ⟨start_sound p env open_, start_inv p open_, fun _ _ hl => absurd hl List.not_mem_nil⟩

/-- The kernel watches what is registered, and that are descriptors of
    connections in the loops of their threads. A connection whose thread waits
    for events is watched for reading. -/
structure WatchesOwn (p : Setup T C) (m : Machine T C) : Prop where
  right : ∀ j fd, Ae.WatchedRight (m.loops j) fd
  own : ∀ j fd mask, (m.loops j).epoll fd = some mask →
    ∃ c, p.thread c = j ∧ m.fd c = fd ∧ holder m.table fd = some (.conn c)
  live : ∀ c, m.work (p.thread c) = [] →
    ∃ mask, (m.loops (p.thread c)).epoll (m.fd c) = some mask ∧ mask.readable = true

omit [DecidableEq T] in
theorem watchesOwn_of_inStep (p : Setup T C) (m : Machine T C) (h : m.InStep p) :
    WatchesOwn p m := by
  have hright := inStep_right p m h
  refine ⟨hright, fun j fd mask hwatched => ?_, fun c hidle => ?_⟩
  · rw [(hright j fd).epoll] at hwatched
    have hmask : ((m.loops j).loop.events fd).mask ≠ aeNone := by
      intro hnone
      rw [hnone] at hwatched
      cases hwatched
    rcases entry_process p m h.sound j fd hmask with ⟨r, hr, _⟩
    rcases entry_held p m.process h.inv j fd r hr with ⟨hj, hfd, hreg⟩
    exact ⟨r.client, hj, hfd, hreg.held⟩
  · have hstanding := h.inv.standing c
    rw [show m.process.work (p.thread c) = [] from hidle] at hstanding
    cases hstanding with
    | registered _ hreg _ =>
        rcases hreg.entry with ⟨r, hr, _, hreadable⟩
        have hmask : ((m.loops (p.thread c)).loop.events (m.fd c)).mask ≠ aeNone := by
          intro hnone
          have hentry : m.process.loop (p.thread c) (m.fd c) = none := by
            change Option.map _ _ = _
            rw [Ae.registration_none _ hnone, Option.map_none]
          exact absurd (hentry.symm.trans hr) (Option.some_ne_none r).symm
        rcases entry_process p m h.sound _ _ hmask with ⟨r', hr', hreader, _⟩
        have hsame : r' = r := Option.some.inj (hr'.symm.trans hr)
        refine ⟨_, ((hright _ _).epoll).trans (if_neg hmask), ?_⟩
        by_contra hnot
        rw [if_neg hnot, hsame] at hreader
        exact hreadable hreader

/-! ### Every run -/

/-- Every run of the machine is one of the process, with what its event loops
    answer. -/
theorem machine_refines (p : Setup T C) (env : T → Ae.Env Proc C) (open_ : Nat)
    (as : List (Act T C)) (m : Machine T C)
    (h : run (Machine.step p) (Machine.start p env open_) as = some m) :
    ∃ bs, Along (Machine.step p) Answered (Machine.start p env open_) as bs ∧
      run (step p) (start p open_) bs = some m.process :=
  (run_simulates (Machine.step p) (step p) Machine.process (Machine.Sound p) Answered
    (fun m a m' hm hs => ⟨step_sound p m m' a hm hs, step_process p m m' a hm hs⟩)
    _ m as (start_sound p env open_) h).2

/-- Loops that have just been made. -/
def freshLoops (_ : Fin 2) : Ae.Env Proc (Fin 2) where
  clock n := n
  time n := n
  poll _ _ := []
  handler _ _ := []
  returns _ _ := Ae.aeNoMore

/-- The second connection has just connected when the first closes its
    descriptor. -/
def overtakenConnecting (a b : Fin 2) : List (Act (Fin 2) (Fin 2)) :=
  overtaken a b ++ [.readable b 3 ⟨.ok, .retry, [], false⟩, .call a true, .call b true]

/-- The kernel refuses to register it for reading, and the process is told. -/
theorem machine_refines_overtaken :
    ∃ m bs, run (Machine.step pair) (Machine.start pair freshLoops 3)
        (overtakenConnecting 0 1) = some m ∧ (m.loops 1).epoll 3 = none ∧
      ((m.loops 1).loop.events 3).mask ≠ aeNone ∧
      Along (Machine.step pair) Answered (Machine.start pair freshLoops 3)
        (overtakenConnecting 0 1) bs ∧
      run (step pair) (start pair 3) bs = some m.process := by
  have h : (run (Machine.step pair) (Machine.start pair freshLoops 3)
      (overtakenConnecting 0 1)).map
      (fun m => ((m.loops 1).epoll 3, decide (((m.loops 1).loop.events 3).mask = aeNone))) =
        some (none, false) := by
    decide +kernel
  rcases Option.map_eq_some_iff.mp h with ⟨m, hm, hend⟩
  rcases Prod.mk.inj hend with ⟨hepoll, hmask⟩
  rcases machine_refines pair freshLoops 3 (overtakenConnecting 0 1) m hm with ⟨bs, hbs, hrun⟩
  exact ⟨m, bs, hm, hepoll, of_decide_eq_false hmask, hbs, hrun⟩

/-- In every run in which no attempt to connect fails, the event loops answer
    as the process has it, and the kernel watches the descriptors of the
    connections and no others. -/
theorem machine_watches (p : Setup T C) (env : T → Ae.Env Proc C) (open_ : Nat)
    (as : List (Act T C)) (m : Machine T C)
    (h : run (onlyIf (fun m => connects p m.process) (Machine.step p))
      (Machine.start p env open_) as = some m) :
    run (onlyIf (connects p) (step p)) (start p open_) as = some m.process ∧ WatchesOwn p m := by
  rcases run_simulates (onlyIf (fun m => connects p m.process) (Machine.step p))
    (onlyIf (connects p) (step p)) Machine.process (Machine.InStep p) (fun _ => Eq)
    (fun m a m' hm hs => by
      rcases onlyIf_some _ _ _ _ _ hs with ⟨hok, hs⟩
      rcases step_inStep p m m' a hm hok hs with ⟨hm', hstep⟩
      exact ⟨hm', a, rfl, (if_pos hok).trans hstep⟩)
    _ m as (start_inStep p env open_) h with ⟨hm, bs, hbs, hrun⟩
  rw [along_eq _ _ as bs hbs]
  exact ⟨hrun, watchesOwn_of_inStep p m hm⟩

/-- Two connections reconnect at the same time and exchange their
    descriptors. -/
def exchanging (a b : Fin 2) : List (Act (Fin 2) (Fin 2)) :=
  connecting a ++ connecting b ++
    [.readable a 3 ⟨.error, .retry, [], false⟩, .call a true, .call a true,
      .readable b 4 ⟨.error, .retry, [], false⟩, .call b true, .call b true] ++
    connecting b ++ connecting a

theorem machine_watches_exchanging :
    ∃ m, run (onlyIf (fun m => connects pair m.process) (Machine.step pair))
        (Machine.start pair freshLoops 3) (exchanging 0 1) = some m ∧ m.fd 0 = 4 ∧ m.fd 1 = 3 ∧
      run (onlyIf (connects pair) (step pair)) (start pair 3) (exchanging 0 1) = some m.process ∧
      WatchesOwn pair m := by
  have h : (run (onlyIf (fun m => connects pair m.process) (Machine.step pair))
      (Machine.start pair freshLoops 3) (exchanging 0 1)).map (fun m => (m.fd 0, m.fd 1)) =
        some (4, 3) := by
    decide +kernel
  rcases Option.map_eq_some_iff.mp h with ⟨m, hm, hfds⟩
  rcases Prod.mk.inj hfds with ⟨hfd, hfd'⟩
  rcases machine_watches pair freshLoops 3 (exchanging 0 1) m hm with ⟨hrun, hwatches⟩
  exact ⟨m, hm, hfd, hfd', hrun, hwatches⟩

end Descriptor

end Wrk
