import Wrk.Ae.Runs

/-!
# What the Kernel Watches

The table of the event loop and the interest set of the kernel are kept side
by side. The loop decides between the operations of `epoll_ctl` by its own
mask, and only `aeCreateFileEvent` looks at whether they succeed. The kernel
forgets a descriptor that is closed, and the loop does not.

The two agree about a descriptor as long as it is not closed while it is
registered, and never registered for nothing. Registering it then fails only
if there is no room for it in the table, or for the kernel's own reasons. The
greatest descriptor that the loop keeps is the greatest that is registered.

## Main definitions

* `Label.careful`: An entry that leaves the two in step.
* `Forgotten`: What is left of a descriptor that was closed all the same.
* `InStep`: The kernel watches a descriptor for what is in its mask.
* `Greatest`, `Topmost`: The greatest descriptor that is registered.
* `Untouched`: Nothing of the table or the interest set has changed.

## Theorems

* `files_rule`: What every call keeps, every run keeps.
* `runCall_inStep`, `runCall_topmost`: What calls keep.
* `kernel_watches`: The kernel watches what is registered, in every run.
* `maxfd_greatest`: The greatest descriptor, in every run.
-/

namespace Wrk

namespace Ae

open Transition

variable {H D : Type}

/-! ### A rule for the table -/

/-- Nothing of the table or the interest set has changed. -/
structure Untouched (s t : State H D) : Prop where
  events : t.loop.events = s.loop.events
  maxfd : t.loop.maxfd = s.loop.maxfd
  setsize : t.loop.setsize = s.loop.setsize
  epoll : t.epoll = s.epoll
  log : ∃ new, t.log = new ++ s.log

theorem passStart_untouched (env : Env H D) (s : State H D) : Untouched s (passStart env s) := by
  unfold passStart
  by_cases hback : env.time s.times < s.loop.lastTime
  · simp only [if_pos hback]
    exact ⟨rfl, rfl, rfl, rfl, [.skewed], rfl⟩
  · simp only [if_neg hback]
    exact ⟨rfl, rfl, rfl, rfl, [], rfl⟩

section Rule

variable (env : Env H D) (I : State H D → Prop) (hcall : ∀ s c, I s → I (runCall env s c))
  (hrest : ∀ s t, I s → Untouched s t → I t)

include hcall

theorem runCalls_rule (cs : List (Call H D)) (s : State H D) (h : I s) :
    I (cs.foldl (runCall env) s) := by
  induction cs generalizing s with
  | nil => exact h
  | cons c cs ih => exact ih (runCall env s c) (hcall s c h)

include hrest

theorem invoke_rule (i : Invocation H D) (s : State H D) (h : I s) : I (invoke env i s) :=
  runCalls_rule env I hcall _ _ (hrest s _ h ⟨rfl, rfl, rfl, rfl, [], rfl⟩)

theorem noted_rule (l : Label H D) (i : Invocation H D) (s : State H D) (h : I s) :
    I (invoke env i (s.note l)) :=
  invoke_rule env I hcall hrest i _ (hrest s _ h ⟨rfl, rfl, rfl, rfl, [l], rfl⟩)

theorem removeTimer_rule (prev : Option Nat) (n : Nat) (te : TimeEvent H D) (s : State H D)
    (h : I s) : I (removeTimer env prev n te s) := by
  unfold removeTimer
  cases te.finalizerProc with
  | none => exact hrest s _ h ⟨rfl, rfl, rfl, rfl, [], rfl⟩
  | some f =>
      exact invoke_rule env I hcall hrest _ _ (hrest s _ h ⟨rfl, rfl, rfl, rfl, [], rfl⟩)

theorem fireTimer_rule (n : Nat) (te : TimeEvent H D) (now : When) (s : State H D) (h : I s) :
    I (fireTimer env n te now s) := by
  have hinvoke := noted_rule env I hcall hrest
    (.timeCalled te.id te.timeProc te.clientData now)
    (.time te.timeProc te.id te.clientData) s h
  unfold fireTimer
  simp only
  split
  · exact hrest _ _ hinvoke ⟨rfl, rfl, rfl, rfl, [.rescheduled te.id _], rfl⟩
  · exact hrest _ _ hinvoke ⟨rfl, rfl, rfl, rfl, [.finished te.id], rfl⟩

theorem timeLoop_keeps (maxId : Int) (n : Nat) (prev : Option Nat) (r : State H D × Nat)
    (h : I r.1) : I (timeLoop env maxId n prev r).1 := by
  induction n generalizing prev r with
  | zero => exact h
  | succ n ih =>
      unfold timeLoop
      cases r.1.loop.timeEvents[n]? with
      | none => exact h
      | some te =>
          have htime : I (aeGetTime env r.1).2 := hrest r.1 _ h ⟨rfl, rfl, rfl, rfl, [], rfl⟩
          simp only
          split
          · exact ih _ _ (removeTimer_rule env I hcall hrest prev n te r.1 h)
          · split
            · exact ih _ _ h
            · split
              · exact ih _ _ (fireTimer_rule env I hcall hrest n te _ _ htime)
              · exact ih _ _ htime

theorem processFile_rule [DecidableEq H] (e : EpollEvent) (s : State H D) (h : I s) :
    I (processFile env s e) := by
  unfold processFile
  simp only
  split
  · split
    · exact noted_rule env I hcall hrest _ _ _ (noted_rule env I hcall hrest _ _ s h)
    · exact noted_rule env I hcall hrest _ _ s h
  · split
    · exact noted_rule env I hcall hrest _ _ s h
    · exact h

theorem processFileEvents_rule [DecidableEq H] (flags : Flags) (s : State H D) (h : I s) :
    I (processFileEvents env flags s).1 := by
  have hfold : ∀ (es : List EpollEvent) (t : State H D), I t → I (es.foldl (processFile env) t) := by
    intro es
    induction es with
    | nil => exact fun _ ht => ht
    | cons e es ih => exact fun t ht => ih _ (processFile_rule env I hcall hrest e t ht)
  -- Waiting reads the clock and asks the kernel, and changes no registration.
  have htimeout : Untouched s { (pollTimeout env flags s).2 with
      polls := (pollTimeout env flags s).2.polls + 1 } := by
    unfold pollTimeout
    simp only
    split
    · exact ⟨rfl, rfl, rfl, rfl, [], rfl⟩
    · exact ⟨rfl, rfl, rfl, rfl, [], rfl⟩
  unfold processFileEvents
  simp only
  split
  · exact hfold _ _ (hrest s _ h htimeout)
  · exact h

/-- What every call keeps, every step keeps. -/
theorem files_rule [DecidableEq H] (s : State H D) (a : Act H D) (t : State H D) (h : I s)
    (hstep : step env s a = some t) : I t := by
  cases a with
  | call c =>
      rw [← Option.some.inj hstep]
      exact hcall s c h
  | start =>
      rw [← Option.some.inj hstep]
      exact hrest s _ h ⟨rfl, rfl, rfl, rfl, [], rfl⟩
  | pass flags =>
      have hfiles := processFileEvents_rule env I hcall hrest flags s h
      have hstart := hrest _ _ hfiles (passStart_untouched env _)
      rw [← Option.some.inj hstep]
      unfold aeProcessEvents
      simp only
      split
      · exact h
      · split
        · rw [processTimeEvents_eq]
          exact timeLoop_keeps env I hcall hrest _ _ none _ hstart
        · exact hfiles

end Rule

/-! ### In step with the kernel -/

/-- What the kernel watches for a mask. -/
def interest (mask : Mask) : Option Mask := if mask = aeNone then none else some mask

/-- An entry that leaves the loop and the kernel in step about a descriptor. -/
def Label.careful (fd : Nat) : Label H D → Bool
  | .closed g used => decide (g ≠ fd) || !used
  | .registered g mask _ _ => decide (g ≠ fd) || decide (mask ≠ aeNone)
  | _ => true

/-- An entry that registers something, if it registers. -/
def Label.filled : Label H D → Bool
  | .registered _ mask _ _ => decide (mask ≠ aeNone)
  | _ => true

/-- The kernel watches a descriptor for what is in its mask. -/
def InStep (fd : Nat) (s : State H D) : Prop :=
  (∀ l ∈ s.log, l.careful fd = true) → s.epoll fd = interest (s.loop.events fd).mask

theorem inStep_untouched (fd : Nat) (s t : State H D) (h : InStep fd s) (hu : Untouched s t) :
    InStep fd t := by
  rcases hu.log with ⟨new, hlog⟩
  intro hcareful
  rw [hu.epoll, hu.events]
  exact h fun l hl => hcareful l (hlog ▸ List.mem_append_right new hl)

theorem or_comm (a b : Mask) : a.or b = b.or a := by
  simp only [Mask.or, Bool.or_comm]

theorem or_ne_none (a b : Mask) (h : b ≠ aeNone) : a.or b ≠ aeNone := by
  rcases a with ⟨ar, aw⟩
  rcases b with ⟨br, bw⟩
  cases ar <;> cases aw <;> cases br <;> cases bw <;> first | exact absurd rfl h | decide

/-- A descriptor that the two agree about can be registered. -/
theorem aeApiAddEvent_inStep (s : State H D) (fd : Nat) (mask : Mask)
    (h : s.epoll fd = interest (s.loop.events fd).mask) :
    aeApiAddEvent s fd mask true =
      some (Function.update s.epoll fd (some (mask.or (s.loop.events fd).mask))) := by
  unfold aeApiAddEvent
  by_cases hmask : (s.loop.events fd).mask = aeNone
  -- `EPOLL_CTL_ADD`, and below `EPOLL_CTL_MOD`: the loop chooses by its own mask.
  · have hnone : s.epoll fd = none := h.trans (if_pos hmask)
    simp only [hmask, if_true, epollCtl, hnone]
  · have hsome : s.epoll fd = some (s.loop.events fd).mask := h.trans (if_neg hmask)
    simp only [hmask, if_true, if_false, epollCtl, hsome]

theorem aeApiAddEvent_some (s : State H D) (fd : Nat) (mask : Mask) (ok : Bool) (k : Interest)
    (h : aeApiAddEvent s fd mask ok = some k) :
    k = Function.update s.epoll fd (some (mask.or (s.loop.events fd).mask)) := by
  unfold aeApiAddEvent epollCtl at h
  cases ok with
  | false => cases h
  | true =>
      simp only [if_true] at h
      split at h
      · exact (Option.some.inj h).symm
      · exact (Option.some.inj h).symm
      · rename_i hop _
        split at hop <;> cases hop
      · cases h

/-- What `aeCreateFileEvent` does, if it succeeds. -/
theorem aeCreateFileEvent_cases (s : State H D) (fd : Nat) (mask : Mask) (proc : H) (data : D)
    (ok : Bool) :
    aeCreateFileEvent s fd mask proc data ok = (s, false) ∨
      fd < s.loop.setsize ∧ ok = true ∧ (aeCreateFileEvent s fd mask proc data ok).2 = true ∧
        (aeCreateFileEvent s fd mask proc data ok).1.log = .registered fd mask proc data :: s.log ∧
        (aeCreateFileEvent s fd mask proc data ok).1.loop.events =
          Function.update s.loop.events fd ((s.loop.events fd).create mask proc data) := by
  unfold aeCreateFileEvent
  by_cases hfd : s.loop.setsize ≤ fd
  · rw [if_pos hfd]
    exact Or.inl rfl
  · rw [if_neg hfd]
    cases hadd : aeApiAddEvent s fd mask ok with
    | none => exact Or.inl rfl
    | some k =>
        refine Or.inr ⟨Nat.not_le.mp hfd, ?_, rfl, rfl, rfl⟩
        cases ok with
        | true => rfl
        | false => cases hadd

/-- The size of the table stays. -/
theorem aeCreateFileEvent_setsize (s : State H D) (fd : Nat) (mask : Mask) (proc : H) (data : D)
    (ok : Bool) :
    (aeCreateFileEvent s fd mask proc data ok).1.loop.setsize = s.loop.setsize := by
  unfold aeCreateFileEvent
  split
  · rfl
  · split <;> rfl

theorem aeDeleteFileEvent_setsize (s : State H D) (fd : Nat) (mask : Mask) :
    (aeDeleteFileEvent s fd mask).loop.setsize = s.loop.setsize := by
  unfold aeDeleteFileEvent
  simp only
  split
  · rfl
  · split <;> rfl

/-- Registering a descriptor leaves every other one alone. -/
theorem aeCreateFileEvent_inStep (fd : Nat) (s : State H D) (g : Nat) (mask : Mask) (proc : H)
    (data : D) (ok : Bool) (h : InStep fd s) :
    InStep fd (aeCreateFileEvent s g mask proc data ok).1 := by
  simp only [aeCreateFileEvent]
  split
  · exact h
  · cases hadd : aeApiAddEvent s g mask ok with
    | none => exact h
    | some k =>
        intro hcareful
        have hbefore := h fun l hl => hcareful l (List.mem_cons_of_mem _ hl)
        have hk := aeApiAddEvent_some s g mask ok k hadd
        simp only [State.note, EventLoop.setEvent, hk]
        -- Either it is this descriptor, whose mask cannot be empty now, or the two
        -- sides are what they were.
        by_cases hg : fd = g
        · have hmask := hcareful (.registered g mask proc data) List.mem_cons_self
          simp only [Label.careful, ne_eq, hg, not_true_eq_false, decide_false, Bool.false_or,
            decide_eq_true_eq] at hmask
          rw [hg, Function.update_self, Function.update_self, or_comm]
          exact (if_neg (or_ne_none _ _ hmask)).symm
        · rw [Function.update_of_ne hg, Function.update_of_ne hg]
          exact hbefore

theorem aeDeleteFileEvent_inStep (fd : Nat) (s : State H D) (g : Nat) (mask : Mask)
    (h : InStep fd s) : InStep fd (aeDeleteFileEvent s g mask) := by
  simp only [aeDeleteFileEvent]
  split
  · exact h
  · split
    · exact h
    · rename_i hmask
      intro hcareful
      have hbefore := h fun l hl => hcareful l (List.mem_cons_of_mem _ hl)
      simp only [State.note, EventLoop.setEvent, aeApiDelEvent]
      by_cases hg : fd = g
      · have hsome : s.epoll g = some (s.loop.events g).mask :=
          (hg ▸ hbefore).trans (if_neg hmask)
        rw [hg, Function.update_self]
        -- `EPOLL_CTL_DEL` when nothing is left of the mask, `EPOLL_CTL_MOD` otherwise.
        by_cases hleft : (s.loop.events g).mask.without mask = aeNone
        · simp only [hleft, ne_eq, not_true_eq_false, if_false, epollCtl, hsome,
            Option.getD_some, Function.update_self, interest, if_true]
        · simp only [hleft, ne_eq, not_false_eq_true, if_true, epollCtl, hsome,
            Option.getD_some, Function.update_self, interest, if_false]
      · have hepoll : (if (s.loop.events g).mask.without mask ≠ aeNone then
            (epollCtl s.epoll .mod g ((s.loop.events g).mask.without mask)).getD s.epoll
            else (epollCtl s.epoll .del g ((s.loop.events g).mask.without mask)).getD
              s.epoll) fd = s.epoll fd := by
          unfold epollCtl
          cases s.epoll g with
          | none => simp only [Option.getD_none, ite_self]
          | some old =>
              simp only [Option.getD_some]
              split <;> exact Function.update_of_ne hg _ _
        rw [hepoll, Function.update_of_ne hg]
        exact hbefore

/-- A descriptor that is not registered may be closed. -/
theorem closeDescriptor_inStep (fd : Nat) (s : State H D) (g : Nat) (h : InStep fd s) :
    InStep fd (closeDescriptor s g) := by
  intro hcareful
  have hbefore := h fun l hl => hcareful l (List.mem_cons_of_mem _ hl)
  simp only [closeDescriptor, State.note]
  by_cases hg : fd = g
  · have hunused := hcareful (.closed g _) List.mem_cons_self
    simp only [Label.careful, ne_eq, hg, not_true_eq_false, decide_false, Bool.false_or,
      Bool.not_eq_true', decide_eq_false_iff_not, not_not] at hunused
    rw [hg, Function.update_self, hunused]
    rfl
  · rw [Function.update_of_ne hg]
    exact hbefore

/-- The kernel watches nothing that has no mask. -/
def Known (fd : Nat) (s : State H D) : Prop :=
  (s.loop.events fd).mask = aeNone → s.epoll fd = none

theorem aeCreateFileEvent_known (fd : Nat) (s : State H D) (g : Nat) (mask : Mask) (proc : H)
    (data : D) (ok : Bool) (hmask : mask ≠ aeNone) (h : Known fd s) :
    Known fd (aeCreateFileEvent s g mask proc data ok).1 := by
  simp only [aeCreateFileEvent]
  split
  · exact h
  · cases hadd : aeApiAddEvent s g mask ok with
    | none => exact h
    | some k =>
        have hk := aeApiAddEvent_some s g mask ok k hadd
        intro hnone
        simp only [State.note, EventLoop.setEvent, hk] at hnone ⊢
        by_cases hg : fd = g
        · rw [hg, Function.update_self] at hnone
          exact absurd hnone (or_ne_none _ _ hmask)
        · rw [Function.update_of_ne hg] at hnone ⊢
          exact h hnone

theorem aeDeleteFileEvent_known (fd : Nat) (s : State H D) (g : Nat) (mask : Mask)
    (h : Known fd s) : Known fd (aeDeleteFileEvent s g mask) := by
  simp only [aeDeleteFileEvent]
  split
  · exact h
  · split
    · exact h
    · intro hnone
      simp only [State.note, EventLoop.setEvent, aeApiDelEvent, epollCtl] at hnone ⊢
      by_cases hg : fd = g
      · have hleft : (s.loop.events g).mask.without mask = aeNone := by
          rw [hg, Function.update_self] at hnone
          exact hnone
        rw [hleft, hg]
        cases hold : s.epoll g with
        | none => simp only [ne_eq, not_true_eq_false, if_false, Option.getD_none, hold]
        | some old =>
            simp only [ne_eq, not_true_eq_false, if_false, Option.getD_some, Function.update_self]
      · rw [Function.update_of_ne hg] at hnone
        have hbefore := h hnone
        cases hold : s.epoll g with
        | none => simp only [Option.getD_none, ite_self, hbefore]
        | some old =>
            simp only [Option.getD_some]
            split <;> exact (Function.update_of_ne hg _ _).trans hbefore

theorem closeDescriptor_known (fd : Nat) (s : State H D) (g : Nat) (h : Known fd s) :
    Known fd (closeDescriptor s g) := by
  intro hnone
  simp only [closeDescriptor, State.note]
  by_cases hg : fd = g
  · rw [hg, Function.update_self]
  · rw [Function.update_of_ne hg]
    exact h hnone

/-- The loop still has a descriptor that the kernel has forgotten, since it was
    closed. -/
structure Forgotten (s : State H D) (fd : Nat) : Prop where
  mask : (s.loop.events fd).mask ≠ aeNone
  epoll : s.epoll fd = none
  closed : .closed fd true ∈ s.log

/-- Why the kernel refuses a descriptor that it has nothing against. -/
theorem forgotten_of_refused (s : State H D) (fd : Nat) (mask : Mask) (proc : H) (data : D)
    (hfd : fd < s.loop.setsize) (hstep : InStep fd s) (hknown : Known fd s)
    (hfilled : ∀ l ∈ s.log, l.filled = true)
    (h : (aeCreateFileEvent s fd mask proc data true).2 = false) : Forgotten s fd := by
  have hadd : aeApiAddEvent s fd mask true = none := by
    unfold aeCreateFileEvent at h
    rw [if_neg (Nat.not_le.mpr hfd)] at h
    cases hadd : aeApiAddEvent s fd mask true with
    | none => rfl
    | some k =>
        rw [hadd] at h
        cases h
  have hmask : (s.loop.events fd).mask ≠ aeNone := by
    intro hnone
    simp only [aeApiAddEvent, if_true, hnone, epollCtl, hknown hnone, reduceCtorEq] at hadd
  have hepoll : s.epoll fd = none := by
    cases hold : s.epoll fd with
    | none => rfl
    | some old => simp only [aeApiAddEvent, if_true, if_neg hmask, epollCtl, hold, reduceCtorEq]
        at hadd
  refine ⟨hmask, hepoll, ?_⟩
  -- Some entry is careless, or the two would be in step.
  by_contra hclosed
  have hwatched := hstep fun l hl => by
    cases l with
    | closed g used =>
        by_contra hcareless
        simp only [Label.careful, Bool.or_eq_true, decide_eq_true_eq, Bool.not_eq_true',
          not_or, ne_eq, not_not, Bool.not_eq_false] at hcareless
        exact hclosed (hcareless.1 ▸ hcareless.2 ▸ hl)
    | registered g mask' _ _ =>
        have hsome := hfilled _ hl
        simp only [Label.filled] at hsome
        simp only [Label.careful, hsome, Bool.or_true]
    | _ => rfl
  rw [hepoll] at hwatched
  exact absurd (hwatched.trans (if_neg hmask)) (Option.some_ne_none _).symm

theorem runCall_inStep (env : Env H D) (fd : Nat) (s : State H D) (c : Call H D)
    (h : InStep fd s) : InStep fd (runCall env s c) := by
  cases c with
  | createFileEvent g mask proc data ok => exact aeCreateFileEvent_inStep fd s g mask proc data ok h
  | deleteFileEvent g mask => exact aeDeleteFileEvent_inStep fd s g mask h
  | createTimeEvent ms proc data finalizer =>
      exact inStep_untouched fd s _ h ⟨rfl, rfl, rfl, rfl, [_], rfl⟩
  | deleteTimeEvent id =>
      rcases aeDeleteTimeEvent_cases s id with heq | ⟨a, te, b, _, _, heq⟩
      · simp only [runCall, heq]
        exact h
      · simp only [runCall, heq]
        exact inStep_untouched fd s _ h ⟨rfl, rfl, rfl, rfl, [_], rfl⟩
  | close g => exact closeDescriptor_inStep fd s g h
  | stop => exact inStep_untouched fd s _ h ⟨rfl, rfl, rfl, rfl, [], rfl⟩

/-! ### The greatest descriptor -/

/-- What the search from a descriptor downwards finds. -/
theorem lastUsed_spec (events : Nat → FileEvent H D) (n : Nat) :
    (∀ fd < n, (events fd).mask ≠ aeNone → (fd : Int) ≤ lastUsed events n) ∧
      (lastUsed events n = -1 ∨
        ∃ fd < n, lastUsed events n = (fd : Int) ∧ (events fd).mask ≠ aeNone) := by
  induction n with
  | zero => exact ⟨fun fd hfd => absurd hfd (Nat.not_lt_zero fd), Or.inl rfl⟩
  | succ n ih =>
      unfold lastUsed
      by_cases hmask : (events n).mask = aeNone
      · rw [if_neg (not_not.mpr hmask)]
        refine ⟨fun fd hfd hused => ih.1 fd ?_ hused, ih.2.imp_right ?_⟩
        · refine Nat.lt_of_le_of_ne (Nat.le_of_lt_succ hfd) fun heq => ?_
          rw [heq] at hused
          exact hused hmask
        · rintro ⟨fd, hfd, hlast⟩
          exact ⟨fd, Nat.lt_succ_of_lt hfd, hlast⟩
      · rw [if_pos hmask]
        exact ⟨fun fd hfd _ => Int.ofNat_le.mpr (Nat.le_of_lt_succ hfd),
          Or.inr ⟨n, Nat.lt_succ_self n, rfl, hmask⟩⟩

/-- No descriptor that is registered is greater than the greatest, and that is
    registered unless none is. -/
structure Greatest (s : State H D) : Prop where
  bound : ∀ fd, (s.loop.events fd).mask ≠ aeNone → (fd : Int) ≤ s.loop.maxfd
  attained : s.loop.maxfd = -1 ∨ ∃ fd : Nat, s.loop.maxfd = fd ∧ (s.loop.events fd).mask ≠ aeNone

/-- The same, where the greatest may be one that was registered for no
    event. -/
structure Topmost (s : State H D) : Prop where
  bound : ∀ fd, (s.loop.events fd).mask ≠ aeNone → (fd : Int) ≤ s.loop.maxfd
  attained : (∀ l ∈ s.log, l.filled = true) → s.loop.maxfd = -1 ∨
    ∃ fd : Nat, s.loop.maxfd = fd ∧ (s.loop.events fd).mask ≠ aeNone

theorem topmost_untouched (s t : State H D) (h : Topmost s) (hu : Untouched s t) :
    Topmost t := by
  rcases hu.log with ⟨new, hlog⟩
  refine ⟨fun fd => ?_, fun hfilled => ?_⟩
  · rw [hu.events, hu.maxfd]
    exact h.bound fd
  · rw [hu.events, hu.maxfd]
    exact h.attained fun l hl => hfilled l (hlog ▸ List.mem_append_right new hl)

theorem aeCreateFileEvent_topmost (s : State H D) (g : Nat) (mask : Mask) (proc : H) (data : D)
    (ok : Bool) (h : Topmost s) : Topmost (aeCreateFileEvent s g mask proc data ok).1 := by
  unfold aeCreateFileEvent
  split
  · exact h
  · cases aeApiAddEvent s g mask ok with
    | none => exact h
    | some k =>
        have hmaxfd : ∀ fd : Int, fd ≤ s.loop.maxfd ∨ fd = g →
            fd ≤ if (g : Int) > s.loop.maxfd then (g : Int) else s.loop.maxfd := by
          intro fd hfd
          by_cases hgt : (g : Int) > s.loop.maxfd
          · rw [if_pos hgt]
            omega
          · rw [if_neg hgt]
            omega
        simp only [State.note, EventLoop.setEvent]
        refine ⟨fun fd hused => ?_, fun hfilled => ?_⟩
        · by_cases hg : fd = g
          · exact hmaxfd fd (Or.inr (congrArg Int.ofNat hg))
          · simp only [Function.update_of_ne hg] at hused
            exact hmaxfd fd (Or.inl (h.bound fd hused))
        · have hmask := hfilled (.registered g mask proc data) List.mem_cons_self
          have hold := h.attained fun l hl => hfilled l (List.mem_cons_of_mem _ hl)
          have hnew : ((s.loop.events g).mask.or mask) ≠ aeNone :=
            or_ne_none _ _ (of_decide_eq_true hmask)
          by_cases hgt : (g : Int) > s.loop.maxfd
          · refine Or.inr ⟨g, if_pos hgt, ?_⟩
            simp only [Function.update_self]
            exact hnew
          · rcases hold with hnone | ⟨fd, hfd, hused⟩
            · exact Or.inl ((if_neg hgt).trans hnone)
            · refine Or.inr ⟨fd, (if_neg hgt).trans hfd, ?_⟩
              by_cases hg : fd = g
              · simp only [hg, Function.update_self]
                exact hnew
              · simp only [Function.update_of_ne hg]
                exact hused

/-- An entry of the table without some of its mask. -/
def FileEvent.less (fe : FileEvent H D) (mask : Mask) : FileEvent H D :=
  { fe with mask := fe.mask.without mask }

/-- What `aeDeleteFileEvent` does, if there is something to delete. -/
theorem aeDeleteFileEvent_cases (s : State H D) (g : Nat) (mask : Mask) :
    aeDeleteFileEvent s g mask = s ∨
      (aeDeleteFileEvent s g mask).log = .unregistered g mask :: s.log ∧
        (aeDeleteFileEvent s g mask).loop.events =
          Function.update s.loop.events g ((s.loop.events g).less mask) ∧
        (aeDeleteFileEvent s g mask).loop.maxfd =
          if (g : Int) = s.loop.maxfd ∧ (s.loop.events g).mask.without mask = aeNone then
            lastUsed (Function.update s.loop.events g ((s.loop.events g).less mask)) g
          else s.loop.maxfd := by
  simp only [aeDeleteFileEvent]
  split
  · exact Or.inl rfl
  · split
    · exact Or.inl rfl
    · exact Or.inr ⟨rfl, rfl, rfl⟩

theorem aeDeleteFileEvent_topmost (s : State H D) (g : Nat) (mask : Mask) (h : Topmost s) :
    Topmost (aeDeleteFileEvent s g mask) := by
  rcases aeDeleteFileEvent_cases s g mask with heq | ⟨hlog, hevents, hmaxfd⟩
  · rw [heq]
    exact h
  have hused : ∀ fd, (Function.update s.loop.events g ((s.loop.events g).less mask) fd).mask ≠
      aeNone → (s.loop.events fd).mask ≠ aeNone := by
    intro fd hfd hnone
    by_cases hg : fd = g
    · rw [hg] at hnone
      rw [hg, Function.update_self] at hfd
      simp only [FileEvent.less, hnone] at hfd
      exact hfd rfl
    · rw [Function.update_of_ne hg] at hfd
      exact hfd hnone
  by_cases hlast : (g : Int) = s.loop.maxfd ∧ (s.loop.events g).mask.without mask = aeNone
  · -- The search goes down from the descriptor, which was the greatest.
    rw [if_pos hlast] at hmaxfd
    have hspec := lastUsed_spec (Function.update s.loop.events g ((s.loop.events g).less mask)) g
    refine ⟨fun fd hfd => ?_, fun _ => ?_⟩
    · rw [hevents] at hfd
      rw [hmaxfd]
      have hbound := h.bound fd (hused fd hfd)
      refine hspec.1 fd (Nat.lt_of_le_of_ne (by omega) fun heq => ?_) hfd
      rw [heq, Function.update_self] at hfd
      exact hfd hlast.2
    · rw [hevents, hmaxfd]
      exact hspec.2.imp_right fun ⟨fd, _, hfd⟩ => ⟨fd, hfd⟩
  · rw [if_neg hlast] at hmaxfd
    refine ⟨fun fd hfd => ?_, fun hfilled => ?_⟩
    · rw [hevents] at hfd
      rw [hmaxfd]
      exact h.bound fd (hused fd hfd)
    · rw [hlog] at hfilled
      rw [hevents, hmaxfd]
      rcases h.attained fun l hl => hfilled l (List.mem_cons_of_mem _ hl) with
        hnone | ⟨fd, hfd, hmask⟩
      · exact Or.inl hnone
      · refine Or.inr ⟨fd, hfd, ?_⟩
        by_cases hg : fd = g
        · rw [hg, Function.update_self]
          exact fun hnone => hlast ⟨by rw [hfd, hg], hnone⟩
        · rw [Function.update_of_ne hg]
          exact hmask

theorem runCall_topmost (env : Env H D) (s : State H D) (c : Call H D) (h : Topmost s) :
    Topmost (runCall env s c) := by
  cases c with
  | createFileEvent g mask proc data ok => exact aeCreateFileEvent_topmost s g mask proc data ok h
  | deleteFileEvent g mask => exact aeDeleteFileEvent_topmost s g mask h
  | createTimeEvent ms proc data finalizer =>
      exact topmost_untouched s _ h ⟨rfl, rfl, rfl, rfl, [_], rfl⟩
  | deleteTimeEvent id =>
      rcases aeDeleteTimeEvent_cases s id with heq | ⟨a, te, b, _, _, heq⟩
      · simp only [runCall, heq]
        exact h
      · simp only [runCall, heq]
        exact topmost_untouched s _ h ⟨rfl, rfl, rfl, rfl, [_], rfl⟩
  | close g => exact ⟨h.bound, fun hfilled => h.attained fun l hl =>
      hfilled l (List.mem_cons_of_mem _ hl)⟩
  | stop => exact topmost_untouched s _ h ⟨rfl, rfl, rfl, rfl, [], rfl⟩

/-! ### Every run -/

/-- A descriptor is watched for what it is registered for, and can be
    registered if there is room. -/
structure WatchedRight (t : State H D) (fd : Nat) : Prop where
  epoll : t.epoll fd = interest (t.loop.events fd).mask
  create : ∀ mask proc data ok,
    (aeCreateFileEvent t fd mask proc data ok).2 = (decide (fd < t.loop.setsize) && ok)

theorem watchedRight_of_epoll (t : State H D) (fd : Nat)
    (h : t.epoll fd = interest (t.loop.events fd).mask) : WatchedRight t fd := by
  refine ⟨h, fun mask proc data ok => ?_⟩
  unfold aeCreateFileEvent
  by_cases hfd : t.loop.setsize ≤ fd
  · rw [if_pos hfd, decide_eq_false (Nat.not_lt.mpr hfd), Bool.false_and]
  · rw [if_neg hfd, decide_eq_true (Nat.not_le.mp hfd), Bool.true_and]
    cases ok with
    | true => rw [aeApiAddEvent_inStep t fd mask h]
    | false =>
        have hfail : aeApiAddEvent t fd mask false = none := by
          unfold aeApiAddEvent
          exact if_neg Bool.false_ne_true
        rw [hfail]

/-- The kernel watches a descriptor for what it is registered for, unless it
    has been closed while it was registered, or registered for nothing. -/
theorem kernel_watches [DecidableEq H] (env : Env H D) (setsize : Nat) (t : State H D)
    (h : Reaches (step env) (aeCreateEventLoop env setsize) t) (fd : Nat)
    (hcareful : ∀ l ∈ t.log, l.careful fd = true) : WatchedRight t fd := by
  refine watchedRight_of_epoll t fd ?_
  exact reaches_invariant (step env) (InStep fd)
    (files_rule env (InStep fd) (fun s c hs => runCall_inStep env fd s c hs)
      (fun s u hs hu => inStep_untouched fd s u hs hu))
    _ t (fun _ => rfl) h hcareful

theorem sample_kernel_watches : WatchedRight (sampleRun.get rfl) 3 :=
  kernel_watches sampleEnv 10 _ (reaches_get _ _ _ rfl) 3 (by decide)

/-- If no descriptor is ever registered for no event, the greatest descriptor
    of a loop is the greatest that is registered. -/
theorem maxfd_greatest [DecidableEq H] (env : Env H D) (setsize : Nat) (t : State H D)
    (h : Reaches (step env) (aeCreateEventLoop env setsize) t)
    (hfilled : ∀ l ∈ t.log, l.filled = true) : Greatest t := by
  have ht : Topmost t := reaches_invariant (step env) Topmost
    (files_rule env Topmost (fun s c hs => runCall_topmost env s c hs) topmost_untouched)
    _ t ⟨fun _ hused => absurd rfl hused, fun _ => Or.inl rfl⟩ h
  exact ⟨ht.bound, ht.attained hfilled⟩

theorem sample_maxfd_greatest : Greatest (sampleRun.get rfl) :=
  maxfd_greatest sampleEnv 10 _ (reaches_get _ _ _ rfl) (by decide +kernel)

end Ae

end Wrk
