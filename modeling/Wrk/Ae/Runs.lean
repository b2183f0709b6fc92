import Wrk.Ae.Pass

/-!
# Runs of the Event Loop

Every run of the event loop, through any calls and passes, is a run of the
agenda: what the loop records, the agenda does, and it ends with the agenda
that the last state keeps. So a handler is only ever called while it is on
the agenda, and a time event that has been deleted or has finished is never
called again.

## Theorems

* `processTimeEvents_refines`, `processFile_refines`, `aeProcessEvents_refines`:
  The parts of a pass.
* `step_refines`: One step of a run.
* `run_agenda`: Every run is a run of the agenda.
* `over_never_called`: A time event that is over is never called.
-/

namespace Wrk

namespace Ae

open Refinement Transition

variable {H D : Type}

/-- What the loop does to an agenda on which nothing is being processed. -/
abbrev Idle (f : State H D → State H D) : Prop :=
  Refines Agenda.Step State.log (State.agenda none) Sound f

/-- Nothing that an agenda has is touched. -/
theorem idle_silent (f : State H D → State H D) (hlog : ∀ s, (f s).log = s.log)
    (hevents : ∀ s, (f s).loop.events = s.loop.events)
    (hlist : ∀ s, (f s).loop.timeEvents = s.loop.timeEvents)
    (hnext : ∀ s, (f s).loop.timeEventNextId = s.loop.timeEventNextId) : Idle f := by
  intro s hs
  refine ⟨⟨?_, ?_⟩, follows_silent (hlog s) ?_⟩
  · rw [hevents]
    exact hs.files
  · rw [hlist, hnext]
    exact hs.times
  · unfold State.agenda
    rw [hevents, hlist, hnext]

/-! ### Time events -/

theorem skew_refines : Idle (skew : State H D → State H D) := by
  intro s hs
  refine ⟨⟨hs.files, timetable_hasten hs.times⟩, follows_one .skewed rfl ?_⟩
  have hstep := Agenda.Step.skewed (s.agenda none) rfl
  have hlookup : lookup (s.loop.timeEvents.map TimeEvent.hasten) =
      fun id => (lookup s.loop.timeEvents id).map fun e => e.defer ⟨0, e.due.ms⟩ :=
    funext (lookup_hasten s.loop.timeEvents)
  rw [show (s.agenda none).timers = lookup s.loop.timeEvents from rfl, ← hlookup] at hstep
  exact hstep

/-- What the loop over the time events starts from. -/
def passStart (env : Env H D) (s : State H D) : State H D :=
  let now := env.time s.times
  let s := { s with times := s.times + 1 }
  let s := if now < s.loop.lastTime then skew s else s
  { s with loop := { s.loop with lastTime := now } }

theorem processTimeEvents_eq (env : Env H D) (s : State H D) :
    processTimeEvents env s =
      timeLoop env ((passStart env s).loop.timeEventNextId - 1)
        (passStart env s).loop.timeEvents.length none (passStart env s, 0) := rfl

theorem passStart_refines (env : Env H D) : Idle (passStart env) := by
  intro s hs
  have hcount : Idle fun s : State H D => { s with times := s.times + 1 } :=
    idle_silent _ (fun _ => rfl) (fun _ => rfl) (fun _ => rfl) (fun _ => rfl)
  have hskew : Idle fun t : State H D => if env.time s.times < t.loop.lastTime then skew t else t := by
    intro t ht
    by_cases hback : env.time s.times < t.loop.lastTime
    · simp only [if_pos hback]
      exact skew_refines t ht
    · simp only [if_neg hback]
      exact ⟨ht, follows_refl t _⟩
  have htime : Idle fun t : State H D =>
      { t with loop := { t.loop with lastTime := env.time s.times } } :=
    idle_silent _ (fun _ => rfl) (fun _ => rfl) (fun _ => rfl) (fun _ => rfl)
  exact refines_comp hcount (refines_comp hskew htime) s hs

/-- Where the loop over the time events starts, it has seen none of them. -/
theorem passStart_standing (env : Env H D) (s : State H D) (h : Sound s) :
    Standing ((passStart env s).loop.timeEventNextId - 1) (passStart env s).loop.timeEvents.length
      (passStart env s) := by
  have hsound := (passStart_refines env s h).1
  refine ⟨hsound, Int.sub_one_lt_of_le (Int.le_refl _), Nat.le_refl _, fun m te _ hte => ?_⟩
  rcases hsound.times.known te (List.mem_of_getElem? hte) with hdel | ⟨_, hlt⟩
  · have hfresh := hsound.times.fresh
    rw [hdel]
    unfold aeDeletedEventId
    omega
  · exact Int.le_sub_one_of_lt hlt

theorem passStart_maxId (env : Env H D) (s : State H D) (h : Sound s) :
    aeDeletedEventId ≤ (passStart env s).loop.timeEventNextId - 1 := by
  have hfresh := (passStart_refines env s h).1.times.fresh
  unfold aeDeletedEventId
  omega

theorem processTimeEvents_refines (env : Env H D) (hquiet : env.Quiet) :
    Idle fun s => (processTimeEvents env s).1 := by
  intro s hs
  rcases passStart_refines env s hs with ⟨_, hfollows⟩
  have hloop := timeLoop_rule env hquiet _ (passStart_maxId env s hs)
    (fun _ r => Follows Agenda.Step State.log s (s.agenda none) r.1 (r.1.agenda none))
    (fun n r r' hstand hrun hvisit =>
      follows_trans hrun (visit_follows env n r r' hquiet hstand.sound hvisit))
    _ none (passStart env s, 0) (passStart_standing env s hs) rfl hfollows
  exact ⟨hloop.2, hloop.1⟩

/-! ### File events -/

/-- A handler that is in the mask is on the agenda. -/
theorem fileCalled_refines (env : Env H D) (s : State H D) (hs : Sound s) (fd : Nat)
    (writing : Bool) (mask : Mask)
    (hmask : (if writing then (s.loop.events fd).mask.writable
      else (s.loop.events fd).mask.readable) = true)
    (proc : Option H)
    (hproc : proc = if writing then (s.loop.events fd).wfileProc else (s.loop.events fd).rfileProc) :
    let t := invoke env (.file proc fd (s.loop.events fd).clientData mask)
      (s.note (.fileCalled fd writing proc (s.loop.events fd).clientData))
    Sound t ∧ Follows Agenda.Step State.log s (s.agenda none) t (t.agenda none) := by
  intro t
  have hnote : Sound (s.note (.fileCalled fd writing proc (s.loop.events fd).clientData)) :=
    ⟨hs.files, hs.times⟩
  have hdoes : Does _ t := invoke_does env _ _ hnote
  refine ⟨hdoes.sound, follows_trans (follows_one _ rfl ?_) (hdoes.follows none)⟩
  have hne : (s.loop.events fd).mask ≠ aeNone := by
    intro hnone
    rw [hnone] at hmask
    cases writing <;> cases hmask
  rcases registration_some _ (hs.files fd) hne with ⟨r, hr, hreader, hwriter, hclient⟩
  have hhandler : r.handler writing = proc := by
    unfold Registration.handler
    rw [hreader, hwriter, hproc]
    cases writing with
    | true => simp only [if_true] at hmask ⊢; rw [if_pos hmask]
    | false => simp only [Bool.false_eq_true, if_false] at hmask ⊢; rw [if_pos hmask]
  have hsome : proc.isSome = true := by
    rw [hproc]
    cases writing with
    | true => exact (hs.files fd).writable hmask
    | false => exact (hs.files fd).readable hmask
  rcases Option.isSome_iff_exists.mp hsome with ⟨p, hp⟩
  rw [hclient, hp]
  exact Agenda.Step.fileCalled (s.agenda none) fd writing r p rfl hr (hhandler.trans hp)

theorem processFile_refines [DecidableEq H] (env : Env H D) (e : EpollEvent) :
    Idle fun s => processFile env s e := by
  have hread : Idle fun s : State H D =>
      if (s.loop.events e.fd).mask.readable && e.mask.readable then
        invoke env (.file (s.loop.events e.fd).rfileProc e.fd (s.loop.events e.fd).clientData e.mask)
          (s.note (.fileCalled e.fd false (s.loop.events e.fd).rfileProc
            (s.loop.events e.fd).clientData))
      else s := by
    intro s hs
    by_cases hmask : ((s.loop.events e.fd).mask.readable && e.mask.readable) = true
    · simp only [if_pos hmask]
      exact fileCalled_refines env s hs e.fd false e.mask (Bool.and_eq_true_iff.mp hmask).1 _ rfl
    · simp only [if_neg hmask]
      exact ⟨hs, follows_refl s _⟩
  have hwrite : ∀ fired : Bool, Idle fun s : State H D =>
      if (s.loop.events e.fd).mask.writable && e.mask.writable &&
          (!fired || decide ((s.loop.events e.fd).wfileProc ≠ (s.loop.events e.fd).rfileProc)) then
        invoke env (.file (s.loop.events e.fd).wfileProc e.fd (s.loop.events e.fd).clientData e.mask)
          (s.note (.fileCalled e.fd true (s.loop.events e.fd).wfileProc
            (s.loop.events e.fd).clientData))
      else s := by
    intro fired s hs
    by_cases hmask : ((s.loop.events e.fd).mask.writable && e.mask.writable && (!fired ||
        decide ((s.loop.events e.fd).wfileProc ≠ (s.loop.events e.fd).rfileProc))) = true
    · simp only [if_pos hmask]
      have hbit := (Bool.and_eq_true_iff.mp (Bool.and_eq_true_iff.mp hmask).1).1
      exact fileCalled_refines env s hs e.fd true e.mask hbit _ rfl
    · simp only [if_neg hmask]
      exact ⟨hs, follows_refl s _⟩
  intro s hs
  exact refines_comp hread (hwrite ((s.loop.events e.fd).mask.readable && e.mask.readable)) s hs

/-! ### Passes and runs -/

theorem pollTimeout_refines (env : Env H D) (flags : Flags) :
    Idle fun s => (pollTimeout env flags s).2 := by
  intro s hs
  unfold pollTimeout
  simp only
  split
  · exact ⟨⟨hs.files, hs.times⟩, follows_silent rfl rfl⟩
  · exact ⟨hs, follows_refl s _⟩

theorem processFileEvents_refines [DecidableEq H] (env : Env H D) (flags : Flags) :
    Idle fun s => (processFileEvents env flags s).1 := by
  intro s hs
  unfold processFileEvents
  by_cases hpoll : (decide (s.loop.maxfd ≠ -1) || (flags.timeEvents && !flags.dontWait)) = true
  · simp only [if_pos hpoll]
    have hcount : Idle fun t : State H D => { t with polls := t.polls + 1 } :=
      idle_silent _ (fun _ => rfl) (fun _ => rfl) (fun _ => rfl) (fun _ => rfl)
    exact refines_comp (pollTimeout_refines env flags) (refines_comp hcount
      (refines_foldl (processFile env) _ (fun e _ => processFile_refines env e))) s hs
  · simp only [if_neg hpoll]
    exact ⟨hs, follows_refl s _⟩

theorem aeProcessEvents_refines [DecidableEq H] (env : Env H D) (hquiet : env.Quiet)
    (flags : Flags) : Idle fun s => (aeProcessEvents env flags s).1 := by
  intro s hs
  unfold aeProcessEvents
  split
  · exact ⟨hs, follows_refl s _⟩
  · by_cases htimes : flags.timeEvents = true
    · simp only [if_pos htimes]
      exact refines_comp (processFileEvents_refines env flags)
        (processTimeEvents_refines env hquiet) s hs
    · simp only [if_neg htimes]
      exact processFileEvents_refines env flags s hs

theorem step_refines [DecidableEq H] (env : Env H D) (hquiet : env.Quiet) (s : State H D)
    (a : Act H D) (t : State H D) (hs : Sound s) (h : step env s a = some t) :
    Sound t ∧ Follows Agenda.Step State.log s (s.agenda none) t (t.agenda none) := by
  cases a with
  | call c =>
      rw [← Option.some.inj h]
      have hdoes := runCall_does env s c hs
      exact ⟨hdoes.sound, hdoes.follows none⟩
  | start =>
      rw [← Option.some.inj h]
      exact ⟨⟨hs.files, hs.times⟩, follows_silent rfl rfl⟩
  | pass flags =>
      rw [← Option.some.inj h]
      exact aeProcessEvents_refines env hquiet flags s hs

theorem sound_create (env : Env H D) (setsize : Nat) : Sound (aeCreateEventLoop env setsize) :=
  ⟨fun _ => ⟨(nomatch ·), (nomatch ·), fun h => absurd rfl h⟩,
    ⟨Int.le_refl 0, fun _ h => absurd h List.not_mem_nil, List.Pairwise.nil⟩⟩

theorem agenda_create (env : Env H D) (setsize : Nat) :
    (aeCreateEventLoop env setsize).agenda none = Agenda.empty := by
  unfold State.agenda Agenda.empty
  congr 1
  funext id
  exact lookup_of_forall_ne _ _ (fun _ h => absurd h List.not_mem_nil)

/-- What holds of a reachable state, and how its record came about. -/
theorem reachable_refines [DecidableEq H] (env : Env H D) (hquiet : env.Quiet) (setsize : Nat)
    (t : State H D) (h : Reaches (step env) (aeCreateEventLoop env setsize) t) :
    Sound t ∧ Run Agenda.Step Agenda.empty t.log.reverse (t.agenda none) := by
  rcases refines_reaches (step env) (fun c a d hc hstep => step_refines env hquiet c a d hc hstep)
    (aeCreateEventLoop env setsize) t (sound_create env setsize) h with ⟨hsound, new, hlog, hrun⟩
  refine ⟨hsound, ?_⟩
  rw [hlog, show (aeCreateEventLoop env setsize).log = [] from rfl, List.append_nil]
  rw [agenda_create] at hrun
  exact hrun

/-! ### An event loop -/

/-- A descriptor that is ready at once. Its handler schedules a time event,
    which stops the loop and is over. -/
def sampleEnv : Env Nat Nat where
  clock n := 1500 + 100 * n
  time n := n
  poll n _ := if n = 0 then [⟨3, true, true, false, false⟩] else []
  handler _ i :=
    match i with
    | .file _ fd data _ => [.deleteFileEvent fd ⟨false, true⟩, .createTimeEvent 5 7 (data.getD 0) none]
    | .time _ _ _ => [.stop]
    | .finalizer _ _ => []
  returns _ _ := aeNoMore

/-- One registration, one time event and two passes. -/
def sampleRun : Option (State Nat Nat) :=
  run (step sampleEnv) (aeCreateEventLoop sampleEnv 10)
    [.call (.createFileEvent 3 ⟨true, true⟩ 1 42 true), .call (.createTimeEvent 100 2 0 none),
      .start, .pass aeAllEvents, .pass aeAllEvents]

theorem sample_quiet : sampleEnv.Quiet := fun _ _ _ _ hc => absurd hc List.not_mem_nil

theorem sample_clock : Monotone sampleEnv.clock :=
  fun _ _ hab => Nat.add_le_add_left (Nat.mul_le_mul_left 100 hab) 1500

theorem sample_past (n : Nat) : 1000 ≤ sampleEnv.clock n :=
  Nat.le_trans (by decide) (Nat.le_add_right 1500 (100 * n))

/-! ### Every run -/

/-- Every run of the event loop is a run of the agenda. -/
theorem run_agenda [DecidableEq H] (env : Env H D) (hquiet : env.Quiet) (setsize : Nat)
    (t : State H D) (h : Reaches (step env) (aeCreateEventLoop env setsize) t) :
    Run Agenda.Step Agenda.empty t.log.reverse (t.agenda none) :=
  (reachable_refines env hquiet setsize t h).2

theorem sample_run_agenda :
    Run Agenda.Step Agenda.empty (sampleRun.get rfl).log.reverse
      ((sampleRun.get rfl).agenda none) :=
  run_agenda sampleEnv sample_quiet 10 _ (reaches_get _ _ _ rfl)

/-- A time event that has been deleted, or has finished, is not called after
    that. -/
theorem over_never_called [DecidableEq H] (env : Env H D) (hquiet : env.Quiet) (setsize : Nat)
    (t : State H D) (h : Reaches (step env) (aeCreateEventLoop env setsize) t)
    (before after : List (Label H D)) (l : Label H D) (id : Int)
    (hlog : t.log = after ++ l :: before) (hover : l.over = some id) :
    ∀ l' ∈ after, l'.called ≠ some id := by
  have hrun := (reachable_refines env hquiet setsize t h).2
  rw [hlog, List.reverse_append, List.reverse_cons, List.append_assoc] at hrun
  rcases run_split hrun with ⟨a, hbefore, hrest⟩
  rcases hrest with ⟨b, hstep, hafter⟩
  have hknown := run_keeps Agenda.Known known_step known_empty hbefore
  have hgone := gone_of_over a b l id hknown hstep hover
  intro l' hl'
  exact gone_stays id b _ _ hgone hafter l' (List.mem_reverse.mpr hl')

theorem sample_over_never_called :
    ((sampleRun.get rfl).log.take 2).any (fun l => decide (l.called = some 1)) = false := by
  have hlater := over_never_called sampleEnv sample_quiet 10 (sampleRun.get rfl)
    (reaches_get _ _ _ rfl) ((sampleRun.get rfl).log.drop 3) ((sampleRun.get rfl).log.take 2)
    (.finished 1) 1 rfl rfl
  rw [List.any_eq_false]
  intro l hl
  rw [decide_eq_true_eq]
  exact hlater l hl

end Ae

end Wrk
