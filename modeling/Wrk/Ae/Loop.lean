import Wrk.Core.Loop
import Wrk.Core.Word
import Mathlib.Logic.Function.Basic

/-!
# The Event Loop

`ae.c` over `ae_epoll.c`: the table of file events indexed by descriptor, the
interest set of the kernel, and the linked list of time events. A pass of the
loop asks the kernel which descriptors are ready, calls their handlers, and
then goes through the list of time events.

A handler may change the loop while a pass is under way. It does so through
the functions of `ae.h` only, so here it is the list of the calls it makes, and
of the descriptors it closes. Which these are is read from an oracle, as are
the clock, what the kernel answers, and what a handler of a time event returns.

The list of time events is kept from its tail: a new event is put at the end,
so that an event keeps its index while others are put before it in the list of
the source. A deleted event stays in the list, with an identifier of -1, until
a pass removes it.

A record is kept of what becomes of the loop, newest first. Nothing reads it.

## Main definitions

* `FileEvent`, `TimeEvent`, `EventLoop`: The structures of `ae.h`.
* `Call`, `Invocation`: What a handler does, and how it is called.
* `State`: The loop, the interest set, and the record.
* `aeCreateFileEvent`, `aeDeleteFileEvent`: Registering descriptors.
* `aeCreateTimeEvent`, `aeDeleteTimeEvent`: Creating and deleting timers.
* `processTimeEvents`, `aeProcessEvents`: A pass.
* `aeMain`: The loop itself.
* `step`: A call from outside, or a pass.
-/

namespace Wrk

namespace Ae

/-! ### Data -/

/-- A mask of `AE_READABLE` and `AE_WRITABLE`. -/
structure Mask where
  readable : Bool
  writable : Bool
  deriving DecidableEq, Repr

/-- `AE_NONE`. -/
def aeNone : Mask := ⟨false, false⟩

/-- `a | b`. -/
def Mask.or (a b : Mask) : Mask := ⟨a.readable || b.readable, a.writable || b.writable⟩

/-- `a & ~b`. -/
def Mask.without (a b : Mask) : Mask := ⟨a.readable && !b.readable, a.writable && !b.writable⟩

/-- `aeFileEvent`. Nothing but the mask is set when the table is made. -/
structure FileEvent (H D : Type) where
  mask : Mask
  rfileProc : Option H
  wfileProc : Option H
  clientData : Option D

/-- A point in time: seconds and milliseconds. -/
structure When where
  sec : Int
  ms : Int
  deriving DecidableEq, Repr

/-- `AE_NOMORE` and `AE_DELETED_EVENT_ID`. -/
def aeNoMore : Int := -1
def aeDeletedEventId : Int := -1

/-- `aeTimeEvent`. -/
structure TimeEvent (H D : Type) where
  id : Int
  due : When
  timeProc : H
  finalizerProc : Option H
  clientData : D

/-- `aeEventLoop`. The list of time events starts at its tail. -/
structure EventLoop (H D : Type) where
  maxfd : Int
  setsize : Nat
  timeEventNextId : Int
  lastTime : Int
  events : Nat → FileEvent H D
  timeEvents : List (TimeEvent H D)
  stop : Bool

/-- What a handler does to the loop. A call that registers a descriptor comes
    with whether the kernel has anything against it. -/
inductive Call (H D : Type) where
  | createFileEvent (fd : Nat) (mask : Mask) (proc : H) (data : D) (ok : Bool)
  | deleteFileEvent (fd : Nat) (mask : Mask)
  | createTimeEvent (milliseconds : Int) (proc : H) (data : D) (finalizer : Option H)
  | deleteTimeEvent (id : Int)
  | close (fd : Nat)
  | stop

/-- How a handler is called. -/
inductive Invocation (H D : Type) where
  | file (proc : Option H) (fd : Nat) (data : Option D) (mask : Mask)
  | time (proc : H) (id : Int) (data : D)
  | finalizer (proc : H) (data : D)

/-- An event of `epoll_wait`. -/
structure EpollEvent where
  fd : Nat
  epollin : Bool
  epollout : Bool
  epollerr : Bool
  epollhup : Bool
  deriving DecidableEq, Repr

/-- The oracle: the clock in milliseconds, the seconds of `time(NULL)`, what
    the kernel reports within a timeout, the calls of the handlers, and what
    those of time events return. The handlers are told how many were called
    before. -/
structure Env (H D : Type) where
  clock : Nat → Nat
  time : Nat → Int
  poll : Nat → Int → List EpollEvent
  handler : Nat → Invocation H D → List (Call H D)
  returns : Nat → Invocation H D → Int

/-- What becomes of a loop. -/
inductive Label (H D : Type) where
  | registered (fd : Nat) (mask : Mask) (proc : H) (data : D)
  | unregistered (fd : Nat) (mask : Mask)
  | closed (fd : Nat) (registered : Bool)
  | scheduled (id : Int) (due : When) (proc : H) (data : D)
  | cancelled (id : Int)
  | fileCalled (fd : Nat) (writing : Bool) (proc : Option H) (data : Option D)
  | timeCalled (id : Int) (proc : H) (data : D) (now : When)
  | rescheduled (id : Int) (due : When)
  | finished (id : Int)
  | skewed

/-- The interest set of an epoll instance. -/
abbrev Interest : Type := Nat → Option Mask

/-- A loop and its kernel, how often each oracle has been asked, and the
    record. -/
structure State (H D : Type) where
  loop : EventLoop H D
  epoll : Interest
  clocks : Nat
  times : Nat
  polls : Nat
  invocations : Nat
  log : List (Label H D)

variable {H D : Type}

/-- Record something. -/
def State.note (s : State H D) (l : Label H D) : State H D := { s with log := l :: s.log }

/-! ### The kernel -/

/-- The operations of `epoll_ctl`. -/
inductive EpollOp where
  | add
  | mod
  | del
  deriving DecidableEq, Repr

/-- `epoll_ctl`. It fails if the descriptor is there already, or is not
    there. -/
def epollCtl (k : Interest) (op : EpollOp) (fd : Nat) (events : Mask) : Option Interest :=
  match op, k fd with
  | .add, none => some (Function.update k fd (some events))
  | .mod, some _ => some (Function.update k fd (some events))
  | .del, some _ => some (Function.update k fd none)
  | _, _ => none

/-- `aeApiAddEvent`. The kernel may also refuse for reasons of its own. -/
def aeApiAddEvent (s : State H D) (fd : Nat) (mask : Mask) (ok : Bool) : Option Interest :=
  let old := (s.loop.events fd).mask
  let op := if old = aeNone then EpollOp.add else EpollOp.mod
  if ok then epollCtl s.epoll op fd (mask.or old) else none

/-- `aeApiDelEvent`. Nobody looks at what `epoll_ctl` returns. -/
def aeApiDelEvent (s : State H D) (fd : Nat) (delmask : Mask) : Interest :=
  let mask := (s.loop.events fd).mask.without delmask
  if mask ≠ aeNone then (epollCtl s.epoll .mod fd mask).getD s.epoll
  else (epollCtl s.epoll .del fd mask).getD s.epoll

/-- The mask of an event of `epoll_wait` in `aeApiPoll`. -/
def EpollEvent.mask (e : EpollEvent) : Mask :=
  ⟨e.epollin, e.epollout || e.epollerr || e.epollhup⟩

/-! ### File events -/

/-- `aeCreateEventLoop`. -/
def aeCreateEventLoop (env : Env H D) (setsize : Nat) : State H D :=
  { loop :=
      { maxfd := -1
        setsize := setsize
        timeEventNextId := 0
        lastTime := env.time 0
        events := fun _ => ⟨aeNone, none, none, none⟩
        timeEvents := []
        stop := false }
    epoll := fun _ => none
    clocks := 0
    times := 1
    polls := 0
    invocations := 0
    log := [] }

/-- Write to an entry of the table. -/
def EventLoop.setEvent (l : EventLoop H D) (fd : Nat) (fe : FileEvent H D) : EventLoop H D :=
  { l with events := Function.update l.events fd fe }

/-- `aeCreateFileEvent`, and whether it returns `AE_OK`. -/
def aeCreateFileEvent (s : State H D) (fd : Nat) (mask : Mask) (proc : H) (data : D)
    (ok : Bool) : State H D × Bool :=
  if s.loop.setsize ≤ fd then (s, false)
  else
    match aeApiAddEvent s fd mask ok with
    | none => (s, false)
    | some epoll =>
        let fe := s.loop.events fd
        let fe :=
          { mask := fe.mask.or mask
            rfileProc := if mask.readable then some proc else fe.rfileProc
            wfileProc := if mask.writable then some proc else fe.wfileProc
            clientData := some data }
        let loop := s.loop.setEvent fd fe
        let loop := { loop with maxfd := if (fd : Int) > loop.maxfd then fd else loop.maxfd }
        ({ s with loop := loop, epoll := epoll }.note (.registered fd mask proc data), true)

/-- The greatest descriptor below a bound that has a mask, or -1. -/
def lastUsed (events : Nat → FileEvent H D) : Nat → Int
  | 0 => -1
  | j + 1 => if (events j).mask ≠ aeNone then j else lastUsed events j

/-- `aeDeleteFileEvent`. -/
def aeDeleteFileEvent (s : State H D) (fd : Nat) (mask : Mask) : State H D :=
  if s.loop.setsize ≤ fd then s
  else
    let fe := s.loop.events fd
    if fe.mask = aeNone then s
    else
      let epoll := aeApiDelEvent s fd mask
      let fe := { fe with mask := fe.mask.without mask }
      let loop := s.loop.setEvent fd fe
      let maxfd :=
        if (fd : Int) = loop.maxfd ∧ fe.mask = aeNone then lastUsed loop.events fd
        else loop.maxfd
      { s with loop := { loop with maxfd := maxfd }, epoll := epoll }.note (.unregistered fd mask)

/-- `close`: the kernel forgets the descriptor. The loop is not told. -/
def closeDescriptor (s : State H D) (fd : Nat) : State H D :=
  { s with epoll := Function.update s.epoll fd none }.note
    (.closed fd (decide ((s.loop.events fd).mask ≠ aeNone)))

/-! ### Time events -/

/-- `aeGetTime`. -/
def aeGetTime (env : Env H D) (s : State H D) : When × State H D :=
  let now := env.clock s.clocks
  (⟨(now / 1000 : Nat), (now % 1000 : Nat)⟩, { s with clocks := s.clocks + 1 })

/-- `aeAddMillisecondsToNow`. Division rounds towards zero. -/
def aeAddMillisecondsToNow (env : Env H D) (milliseconds : Int) (s : State H D) :
    When × State H D :=
  let r := aeGetTime env s
  let sec := r.1.sec + milliseconds.tdiv 1000
  let ms := r.1.ms + milliseconds.tmod 1000
  (if ms ≥ 1000 then ⟨sec + 1, ms - 1000⟩ else ⟨sec, ms⟩, r.2)

/-- `aeCreateTimeEvent`. -/
def aeCreateTimeEvent (env : Env H D) (s : State H D) (milliseconds : Int) (proc : H) (data : D)
    (finalizer : Option H) : State H D :=
  let id := s.loop.timeEventNextId
  let r := aeAddMillisecondsToNow env milliseconds s
  let te := ⟨id, r.1, proc, finalizer, data⟩
  let loop :=
    { r.2.loop with
      timeEventNextId := id + 1
      timeEvents := r.2.loop.timeEvents ++ [te] }
  { r.2 with loop := loop }.note (.scheduled id r.1 proc data)

/-- Mark the first event with an identifier as deleted. -/
def markDeleted (id : Int) : List (TimeEvent H D) → Option (List (TimeEvent H D))
  | [] => none
  | te :: rest =>
      if te.id = id then some ({ te with id := aeDeletedEventId } :: rest)
      else (markDeleted id rest).map (te :: ·)

/-- `aeDeleteTimeEvent`. The list is searched from its head. -/
def aeDeleteTimeEvent (s : State H D) (id : Int) : State H D :=
  match markDeleted id s.loop.timeEvents.reverse with
  | none => s
  | some found =>
      { s with loop := { s.loop with timeEvents := found.reverse } }.note (.cancelled id)

/-! ### Handlers -/

/-- One call of a handler. -/
def runCall (env : Env H D) (s : State H D) : Call H D → State H D
  | .createFileEvent fd mask proc data ok => (aeCreateFileEvent s fd mask proc data ok).1
  | .deleteFileEvent fd mask => aeDeleteFileEvent s fd mask
  | .createTimeEvent ms proc data finalizer => aeCreateTimeEvent env s ms proc data finalizer
  | .deleteTimeEvent id => aeDeleteTimeEvent s id
  | .close fd => closeDescriptor s fd
  -- `aeStop`.
  | .stop => { s with loop := { s.loop with stop := true } }

/-- Call a handler. -/
def invoke (env : Env H D) (i : Invocation H D) (s : State H D) : State H D :=
  (env.handler s.invocations i).foldl (runCall env) { s with invocations := s.invocations + 1 }

/-! ### A pass -/

/-- An event is due. -/
def When.reached (due now : When) : Bool :=
  decide (now.sec > due.sec) || (decide (now.sec = due.sec) && decide (now.ms ≥ due.ms))

/-- The earlier of two times. -/
def When.before (a b : When) : Bool :=
  decide (a.sec < b.sec) || (decide (a.sec = b.sec) && decide (a.ms < b.ms))

/-- The nearer of an event and the nearest so far. -/
def nearer (te : TimeEvent H D) (nearest : Option (TimeEvent H D)) : Option (TimeEvent H D) :=
  match nearest with
  | none => some te
  | some old => if te.due.before old.due then some te else some old

/-- `aeSearchNearestTimer`. -/
def aeSearchNearestTimer (l : EventLoop H D) : Option (TimeEvent H D) :=
  l.timeEvents.foldr nearer none

/-- Change the event at an index. -/
def State.setTime (s : State H D) (n : Nat) (te : TimeEvent H D) : State H D :=
  { s with loop := { s.loop with timeEvents := s.loop.timeEvents.set n te } }

/-- Call the handler of the event at an index, which is due, and schedule it
    again unless it returns `AE_NOMORE`. The handler may have deleted the
    event meanwhile. -/
def fireTimer (env : Env H D) (n : Nat) (te : TimeEvent H D) (now : When) (s : State H D) :
    State H D :=
  let i := Invocation.time te.timeProc te.id te.clientData
  let retval := env.returns s.invocations i
  let s := invoke env i (s.note (.timeCalled te.id te.timeProc te.clientData now))
  let after := (s.loop.timeEvents[n]?).getD te
  if retval ≠ aeNoMore then
    let r := aeAddMillisecondsToNow env retval s
    (r.2.setTime n { after with due := r.1 }).note (.rescheduled te.id r.1)
  else (s.setTime n { after with id := aeDeletedEventId }).note (.finished te.id)

/-- Remove the deleted event at an index. Without an event before it in the
    list, what follows it becomes the head. -/
def removeTimer (env : Env H D) (prev : Option Nat) (n : Nat) (te : TimeEvent H D)
    (s : State H D) : State H D :=
  let before :=
    match prev with
    | none => []
    | some p => s.loop.timeEvents.drop p
  let s :=
    { s with loop := { s.loop with timeEvents := s.loop.timeEvents.take n ++ before } }
  match te.finalizerProc with
  | none => s
  | some f => invoke env (.finalizer f te.clientData) s

/-- The loop of `processTimeEvents` over the events that are left, with the
    index of the one before them. -/
def timeLoop (env : Env H D) (maxId : Int) : Nat → Option Nat → State H D × Nat → State H D × Nat
  | 0, _, r => r
  | n + 1, prev, (s, processed) =>
      match s.loop.timeEvents[n]? with
      | none => (s, processed)
      | some te =>
          if te.id = aeDeletedEventId then
            timeLoop env maxId n (prev.map (fun _ => n)) (removeTimer env prev n te s, processed)
          -- Events that handlers of this pass have created.
          else if te.id > maxId then timeLoop env maxId n prev (s, processed)
          else
            let r := aeGetTime env s
            if te.due.reached r.1 then
              timeLoop env maxId n (some n) (fireTimer env n te r.1 r.2, processed + 1)
            else timeLoop env maxId n (some n) (r.2, processed)

/-- `te->when_sec = 0`. -/
def TimeEvent.hasten (te : TimeEvent H D) : TimeEvent H D := { te with due := ⟨0, te.due.ms⟩ }

/-- The clock has been set back: every event is made due. -/
def skew (s : State H D) : State H D :=
  { s with
    loop := { s.loop with timeEvents := s.loop.timeEvents.map TimeEvent.hasten } }.note .skewed

/-- `processTimeEvents`, and the number of events processed. -/
def processTimeEvents (env : Env H D) (s : State H D) : State H D × Nat :=
  let now := env.time s.times
  let s := { s with times := s.times + 1 }
  let s := if now < s.loop.lastTime then skew s else s
  let s := { s with loop := { s.loop with lastTime := now } }
  timeLoop env (s.loop.timeEventNextId - 1) s.loop.timeEvents.length none (s, 0)

/-- One descriptor that is ready. An earlier one of the pass may have removed
    its registration. -/
def processFile [DecidableEq H] (env : Env H D) (s : State H D) (e : EpollEvent) : State H D :=
  let fe := s.loop.events e.fd
  let rfired := fe.mask.readable && e.mask.readable
  let s :=
    if rfired then
      invoke env (.file fe.rfileProc e.fd fe.clientData e.mask)
        (s.note (.fileCalled e.fd false fe.rfileProc fe.clientData))
    else s
  let fe := s.loop.events e.fd
  -- A handler for both directions is called once.
  if fe.mask.writable && e.mask.writable && (!rfired || decide (fe.wfileProc ≠ fe.rfileProc)) then
    invoke env (.file fe.wfileProc e.fd fe.clientData e.mask)
      (s.note (.fileCalled e.fd true fe.wfileProc fe.clientData))
  else s

/-- The flags of `aeProcessEvents`. -/
structure Flags where
  fileEvents : Bool
  timeEvents : Bool
  dontWait : Bool
  deriving DecidableEq, Repr

/-- `AE_ALL_EVENTS`. -/
def aeAllEvents : Flags := ⟨true, true, false⟩

/-- How many milliseconds a pass may sleep, if it may not sleep for ever. -/
def pollTimeout (env : Env H D) (flags : Flags) (s : State H D) : Option Int × State H D :=
  let shortest :=
    if flags.timeEvents && !flags.dontWait then aeSearchNearestTimer s.loop else none
  match shortest with
  | some te =>
      let r := aeGetTime env s
      let ms := (te.due.sec - r.1.sec) * 1000 + te.due.ms - r.1.ms
      (some (if ms > 0 then ms else 0), r.2)
  | none => (if flags.dontWait then some 0 else none, s)

/-- The argument of `epoll_wait`, an `int`. -/
def epollTimeout : Option Int → Int
  | some ms => toInt32 (ms.toNat % 2 ^ 32)
  | none => -1

/-- `aeApiPoll`: what `epoll_wait` returns, no more than there is room for. -/
def aeApiPoll (env : Env H D) (timeout : Option Int) (s : State H D) :
    List EpollEvent × State H D :=
  ((env.poll s.polls (epollTimeout timeout)).take s.loop.setsize, { s with polls := s.polls + 1 })

/-- The first half of `aeProcessEvents`. -/
def processFileEvents [DecidableEq H] (env : Env H D) (flags : Flags) (s : State H D) :
    State H D × Nat :=
  if decide (s.loop.maxfd ≠ -1) || (flags.timeEvents && !flags.dontWait) then
    let t := pollTimeout env flags s
    let fired := aeApiPoll env t.1 t.2
    (fired.1.foldl (processFile env) fired.2, fired.1.length)
  else (s, 0)

/-- `aeProcessEvents`, and the number of events processed. -/
def aeProcessEvents [DecidableEq H] (env : Env H D) (flags : Flags) (s : State H D) :
    State H D × Nat :=
  if !flags.timeEvents && !flags.fileEvents then (s, 0)
  else
    let r := processFileEvents env flags s
    if flags.timeEvents then
      let t := processTimeEvents env r.1
      (t.1, r.2 + t.2)
    else r

/-- `aeMain`: passes until some handler stops the loop. -/
def aeMain [DecidableEq H] (env : Env H D) (fuel : Nat) (s : State H D) : Option (State H D) :=
  Loop.whileLoop (fun s => !s.loop.stop) (fun s => (aeProcessEvents env aeAllEvents s).1) fuel
    { s with loop := { s.loop with stop := false } }

/-! ### Runs -/

/-- A call from outside of the handlers, the beginning of `aeMain`, or a pass. -/
inductive Act (H D : Type) where
  | call (c : Call H D)
  | start
  | pass (flags : Flags)

/-- One step of a run. -/
def step [DecidableEq H] (env : Env H D) (s : State H D) : Act H D → Option (State H D)
  | .call c => some (runCall env s c)
  | .start => some { s with loop := { s.loop with stop := false } }
  | .pass flags => some (aeProcessEvents env flags s).1

end Ae

end Wrk
