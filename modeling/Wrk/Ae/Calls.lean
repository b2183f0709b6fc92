import Wrk.Ae.Timetable

/-!
# Calls and the Agenda

What a handler does to the event loop, it does to the agenda that the loop
keeps, whatever is being processed meanwhile. The masks of the table and the
kernel do not show there, nor do the places of the time events.

## Main definitions

* `State.agenda`: The agenda that a state keeps.
* `Sound`: What holds of every loop.
* `Does`: What an operation of a handler does to the agenda.
* `Leaves`: What it leaves of the time events.

## Theorems

* `registration_some`: What is in a mask.
* `create_registration`, `without_registration`: Entries of the table.
* `runCall_does`, `invoke_does`: A call, and a handler.
* `runCall_leaves`, `invoke_leaves`: The time events after it.
-/

namespace Wrk

namespace Ae

open Refinement

variable {H D : Type}

/-! ### What a state keeps -/

/-- What an entry of the table says. -/
def FileEvent.registration (fe : FileEvent H D) : Option (Registration H D) :=
  fe.clientData.bind (Registration.of (if fe.mask.readable then fe.rfileProc else none)
    (if fe.mask.writable then fe.wfileProc else none))

/-- The agenda that a state keeps, while a time event is being processed or
    none is. -/
def State.agenda (running : Option Int) (s : State H D) : Agenda H D :=
  { files := fun fd => (s.loop.events fd).registration
    timers := lookup s.loop.timeEvents
    next := s.loop.timeEventNextId
    running := running }

/-- What is in the mask has a handler, and data. -/
structure FileEvent.Sound (fe : FileEvent H D) : Prop where
  readable : fe.mask.readable = true → fe.rfileProc.isSome = true
  writable : fe.mask.writable = true → fe.wfileProc.isSome = true
  client : fe.mask ≠ aeNone → fe.clientData.isSome = true

/-- What holds of every loop. -/
structure Sound (s : State H D) : Prop where
  files : ∀ fd, (s.loop.events fd).Sound
  times : Timetable s.loop.timeEventNextId s.loop.timeEvents

/-! ### Entries of the table -/

theorem mask_eq_none (m : Mask) (hr : ¬m.readable = true) (hw : ¬m.writable = true) :
    m = aeNone := by
  rcases m with ⟨rd, wr⟩
  rw [Bool.not_eq_true] at hr hw
  exact congrArg₂ Mask.mk hr hw

/-- What is in a mask that is not empty. -/
theorem registration_some (fe : FileEvent H D) (h : fe.Sound) (hmask : fe.mask ≠ aeNone) :
    ∃ r : Registration H D, fe.registration = some r ∧
      r.reader = (if fe.mask.readable then fe.rfileProc else none) ∧
      r.writer = (if fe.mask.writable then fe.wfileProc else none) ∧
      fe.clientData = some r.client := by
  rcases Option.isSome_iff_exists.mp (h.client hmask) with ⟨d, hd⟩
  have hused : (if fe.mask.readable then fe.rfileProc else none).isSome = true ∨
      (if fe.mask.writable then fe.wfileProc else none).isSome = true := by
    by_cases hr : fe.mask.readable = true
    · rw [if_pos hr]
      exact Or.inl (h.readable hr)
    · by_cases hw : fe.mask.writable = true
      · rw [if_pos hw]
        exact Or.inr (h.writable hw)
      · exact absurd (mask_eq_none _ hr hw) hmask
  refine ⟨⟨_, _, d, hused⟩, ?_, rfl, rfl, hd⟩
  unfold FileEvent.registration Registration.of
  rw [hd, Option.bind_some, dif_pos hused]

/-- Nothing is in an empty mask. -/
theorem registration_none (fe : FileEvent H D) (hmask : fe.mask = aeNone) :
    fe.registration = none := by
  unfold FileEvent.registration
  rw [hmask]
  cases fe.clientData with
  | none => rfl
  | some d => rfl

/-- The handlers of an entry, read off its registration. -/
theorem registration_handlers (fe : FileEvent H D) (h : fe.Sound) :
    fe.registration.bind (·.reader) = (if fe.mask.readable then fe.rfileProc else none) ∧
      fe.registration.bind (·.writer) = (if fe.mask.writable then fe.wfileProc else none) := by
  by_cases hmask : fe.mask = aeNone
  · rw [registration_none fe hmask, hmask]
    exact ⟨rfl, rfl⟩
  · rcases registration_some fe h hmask with ⟨r, hr, hreader, hwriter, _⟩
    rw [hr]
    exact ⟨hreader, hwriter⟩

/-- What `aeCreateFileEvent` makes of an entry. -/
def FileEvent.create (fe : FileEvent H D) (mask : Mask) (proc : H) (data : D) : FileEvent H D :=
  { mask := fe.mask.or mask
    rfileProc := if mask.readable then some proc else fe.rfileProc
    wfileProc := if mask.writable then some proc else fe.wfileProc
    clientData := some data }

theorem create_sound (fe : FileEvent H D) (mask : Mask) (proc : H) (data : D) (h : fe.Sound) :
    (fe.create mask proc data).Sound := by
  refine ⟨fun hr => ?_, fun hw => ?_, fun _ => rfl⟩
  · by_cases hm : mask.readable = true
    · simp only [FileEvent.create, if_pos hm, Option.isSome_some]
    · simp only [FileEvent.create, Mask.or, hm, Bool.or_false] at hr ⊢
      exact h.readable hr
  · by_cases hm : mask.writable = true
    · simp only [FileEvent.create, if_pos hm, Option.isSome_some]
    · simp only [FileEvent.create, Mask.or, hm, Bool.or_false] at hw ⊢
      exact h.writable hw

theorem create_registration (fe : FileEvent H D) (mask : Mask) (proc : H) (data : D)
    (h : fe.Sound) :
    (fe.create mask proc data).registration = register fe.registration mask proc data := by
  rcases registration_handlers fe h with ⟨hreader, hwriter⟩
  unfold register
  rw [hreader, hwriter]
  unfold FileEvent.registration FileEvent.create Mask.or
  rw [Option.bind_some]
  rcases mask with ⟨rd, wr⟩
  cases rd <;> cases wr <;> simp only [Bool.or_false, Bool.or_true, if_true, Bool.false_eq_true,
    if_false]

/-- What `aeDeleteFileEvent` makes of an entry. -/
theorem without_sound (fe : FileEvent H D) (mask : Mask) (h : fe.Sound) :
    { fe with mask := fe.mask.without mask }.Sound := by
  refine ⟨fun hr => h.readable ?_, fun hw => h.writable ?_, fun hne => h.client ?_⟩
  · exact (Bool.and_eq_true_iff.mp hr).1
  · exact (Bool.and_eq_true_iff.mp hw).1
  · intro hnone
    refine hne ?_
    rw [hnone]
    rfl

theorem without_registration (fe : FileEvent H D) (mask : Mask) (h : fe.Sound)
    (hmask : fe.mask ≠ aeNone) :
    { fe with mask := fe.mask.without mask }.registration = unregister fe.registration mask := by
  rcases registration_some fe h hmask with ⟨r, hr, hreader, hwriter, hclient⟩
  unfold unregister
  rw [hr, Option.bind_some, hreader, hwriter]
  unfold FileEvent.registration Mask.without
  rw [hclient, Option.bind_some]
  rcases mask with ⟨rd, wr⟩
  cases rd <;> cases wr <;> simp only [Bool.and_true, Bool.and_false, Bool.not_true, Bool.not_false,
    if_true, Bool.false_eq_true, if_false]

/-! ### Calls -/

/-- What an operation of a handler does to the agenda, whatever is being
    processed. -/
structure Does (s t : State H D) : Prop where
  sound : Sound t
  follows : ∀ running, Follows Agenda.Step State.log s (s.agenda running) t (t.agenda running)

theorem does_refl (s : State H D) (h : Sound s) : Does s s :=
  ⟨h, fun running => follows_refl s (s.agenda running)⟩

theorem does_trans {s t u : State H D} (h1 : Does s t) (h2 : Does t u) : Does s u :=
  ⟨h2.sound, fun running => follows_trans (h1.follows running) (h2.follows running)⟩

/-- An entry of the table is replaced. -/
theorem sound_setEvent {s : State H D} (h : Sound s) (fd : Nat) (fe : FileEvent H D)
    (hfe : fe.Sound) (g : Nat) : (Function.update s.loop.events fd fe g).Sound := by
  by_cases hg : g = fd
  · rw [hg, Function.update_self]
    exact hfe
  · rw [Function.update_of_ne hg]
    exact h.files g

/-- The registrations of the table with one entry replaced. -/
theorem registrations_setEvent (events : Nat → FileEvent H D) (fd : Nat) (fe : FileEvent H D) :
    (fun g => (Function.update events fd fe g).registration) =
      Function.update (fun g => (events g).registration) fd fe.registration := by
  funext g
  by_cases hg : g = fd
  · rw [hg, Function.update_self, Function.update_self]
  · rw [Function.update_of_ne hg, Function.update_of_ne hg]

theorem aeCreateFileEvent_does (s : State H D) (fd : Nat) (mask : Mask) (proc : H) (data : D)
    (ok : Bool) (h : Sound s) : Does s (aeCreateFileEvent s fd mask proc data ok).1 := by
  unfold aeCreateFileEvent
  by_cases hfd : s.loop.setsize ≤ fd
  · rw [if_pos hfd]
    exact does_refl s h
  · rw [if_neg hfd]
    cases hadd : aeApiAddEvent s fd mask ok with
    | none => exact does_refl s h
    | some epoll =>
        refine ⟨⟨sound_setEvent h fd _ (create_sound (s.loop.events fd) mask proc data
          (h.files fd)), h.times⟩, fun running => follows_one (.registered fd mask proc data) rfl ?_⟩
        have hstep := Agenda.Step.registered (s.agenda running) fd mask proc data
        rw [show (s.agenda running).files fd = (s.loop.events fd).registration from rfl,
          ← create_registration (s.loop.events fd) mask proc data (h.files fd),
          show (s.agenda running).files = fun g => (s.loop.events g).registration from rfl,
          ← registrations_setEvent] at hstep
        exact hstep

theorem aeDeleteFileEvent_does (s : State H D) (fd : Nat) (mask : Mask) (h : Sound s) :
    Does s (aeDeleteFileEvent s fd mask) := by
  unfold aeDeleteFileEvent
  by_cases hfd : s.loop.setsize ≤ fd
  · rw [if_pos hfd]
    exact does_refl s h
  · rw [if_neg hfd]
    by_cases hmask : (s.loop.events fd).mask = aeNone
    · rw [if_pos hmask]
      exact does_refl s h
    · rw [if_neg hmask]
      refine ⟨⟨sound_setEvent h fd _ (without_sound (s.loop.events fd) mask (h.files fd)), h.times⟩,
        fun running => follows_one (.unregistered fd mask) rfl ?_⟩
      have hstep := Agenda.Step.unregistered (s.agenda running) fd mask
      rw [show (s.agenda running).files fd = (s.loop.events fd).registration from rfl,
        ← without_registration (s.loop.events fd) mask (h.files fd) hmask,
        show (s.agenda running).files = fun g => (s.loop.events g).registration from rfl,
        ← registrations_setEvent] at hstep
      exact hstep

theorem aeCreateTimeEvent_does (env : Env H D) (s : State H D) (ms : Int) (proc : H) (data : D)
    (finalizer : Option H) (h : Sound s) :
    Does s (aeCreateTimeEvent env s ms proc data finalizer) := by
  refine ⟨⟨h.files, timetable_schedule h.times _ rfl⟩, fun running => follows_one _ rfl ?_⟩
  have hstep := Agenda.Step.scheduled (s.agenda running) (aeAddMillisecondsToNow env ms s).1 proc
    data
  rw [show (s.agenda running).timers = lookup s.loop.timeEvents from rfl,
    show (s.agenda running).next = s.loop.timeEventNextId from rfl] at hstep
  have hlookup := lookup_schedule h.times
    (⟨s.loop.timeEventNextId, (aeAddMillisecondsToNow env ms s).1, proc, finalizer, data⟩) rfl
  unfold TimeEvent.entry at hlookup
  rw [← hlookup] at hstep
  exact hstep

/-- What `aeDeleteTimeEvent` does to the list, if it finds an event. -/
theorem aeDeleteTimeEvent_cases (s : State H D) (id : Int) :
    aeDeleteTimeEvent s id = s ∨
      ∃ a te b, s.loop.timeEvents = a ++ te :: b ∧ te.id = id ∧
        aeDeleteTimeEvent s id =
          { s with loop := { s.loop with timeEvents := a ++ te.deleted :: b } }.note
            (.cancelled id) := by
  unfold aeDeleteTimeEvent
  cases hmark : markDeleted id s.loop.timeEvents.reverse with
  | none => exact Or.inl rfl
  | some found =>
      rcases markDeleted_spec id _ found hmark with ⟨a, te, b, hlist, hid, rfl⟩
      refine Or.inr ⟨b.reverse, te, a.reverse, ?_, hid, ?_⟩
      · rw [← List.reverse_reverse s.loop.timeEvents, hlist, List.reverse_append,
          List.reverse_cons, List.append_assoc]
        rfl
      · simp only [List.reverse_append, List.reverse_cons, List.append_assoc,
          List.singleton_append]

theorem aeDeleteTimeEvent_does (s : State H D) (id : Int) (h : Sound s) :
    Does s (aeDeleteTimeEvent s id) := by
  rcases aeDeleteTimeEvent_cases s id with heq | ⟨a, te, b, hsplit, hid, heq⟩
  · rw [heq]
    exact does_refl s h
  · have htimes := h.times
    rw [hsplit] at htimes
    rw [heq]
    refine ⟨⟨h.files, timetable_replace htimes (Or.inr rfl)⟩,
      fun running => follows_one (.cancelled id) rfl ?_⟩
    have hknown : id < s.loop.timeEventNextId := by
      rcases htimes.known te (List.mem_append_right a List.mem_cons_self) with hdel | ⟨_, hlt⟩
      · rw [← hid, hdel]
        exact Int.lt_of_lt_of_le (Int.negSucc_lt_zero 0) htimes.fresh
      · exact hid ▸ hlt
    have hstep := Agenda.Step.cancelled (s.agenda running) id hknown
    rw [show (s.agenda running).timers = lookup s.loop.timeEvents from rfl, ← hid, hsplit,
      ← lookup_delete htimes, hid] at hstep
    exact hstep

theorem closeDescriptor_does (s : State H D) (fd : Nat) (h : Sound s) :
    Does s (closeDescriptor s fd) := by
  refine ⟨⟨h.files, h.times⟩, fun running => follows_one _ rfl ?_⟩
  have hregistered : decide ((s.loop.events fd).mask ≠ aeNone) =
      (s.loop.events fd).registration.isSome := by
    by_cases hmask : (s.loop.events fd).mask = aeNone
    · rw [registration_none _ hmask, decide_eq_false (not_not.mpr hmask)]
      rfl
    · rcases registration_some _ (h.files fd) hmask with ⟨r, hr, _⟩
      rw [hr, decide_eq_true hmask]
      rfl
  rw [hregistered]
  exact Agenda.Step.closed (s.agenda running) fd

/-- What a handler does to the loop, it does to the agenda. -/
theorem runCall_does (env : Env H D) (s : State H D) (c : Call H D) (h : Sound s) :
    Does s (runCall env s c) := by
  cases c with
  | createFileEvent fd mask proc data ok => exact aeCreateFileEvent_does s fd mask proc data ok h
  | deleteFileEvent fd mask => exact aeDeleteFileEvent_does s fd mask h
  | createTimeEvent ms proc data finalizer =>
      exact aeCreateTimeEvent_does env s ms proc data finalizer h
  | deleteTimeEvent id => exact aeDeleteTimeEvent_does s id h
  | close fd => exact closeDescriptor_does s fd h
  | stop => exact ⟨⟨h.files, h.times⟩, fun _ => follows_silent rfl rfl⟩

theorem runCalls_does (env : Env H D) (cs : List (Call H D)) (s : State H D) (h : Sound s) :
    Does s (cs.foldl (runCall env) s) := by
  induction cs generalizing s with
  | nil => exact does_refl s h
  | cons c cs ih =>
      have hcall := runCall_does env s c h
      exact does_trans hcall (ih (runCall env s c) hcall.sound)

theorem invoke_does (env : Env H D) (i : Invocation H D) (s : State H D) (h : Sound s) :
    Does s (invoke env i s) := by
  have hcount : Does s { s with invocations := s.invocations + 1 } :=
    ⟨⟨h.files, h.times⟩, fun _ => follows_silent rfl rfl⟩
  exact does_trans hcount (runCalls_does env _ _ hcount.sound)

/-! ### What calls leave -/

/-- What calls leave of the time events, and of the counters. -/
structure Leaves (s t : State H D) : Prop where
  kept : Kept s.loop t.loop
  recorded : ∃ new, t.log = new ++ s.log ∧ (∀ l ∈ new, l.called = none) ∧
    ∀ (n : Nat) (te : TimeEvent H D), s.loop.timeEvents[n]? = some te →
      te.id ≠ aeDeletedEventId → t.loop.timeEvents[n]? = some te.deleted →
        Label.cancelled te.id ∈ new
  clocks : s.clocks ≤ t.clocks
  invocations : s.invocations ≤ t.invocations
  stop : s.loop.stop = true → t.loop.stop = true

/-- An event that stands where it did has not been deleted. -/
theorem recorded_of_stays {s t : State H D} (new : List (Label H D)) (hlog : t.log = new ++ s.log)
    (hcalled : ∀ l ∈ new, l.called = none)
    (hstays : ∀ (n : Nat) (te : TimeEvent H D), s.loop.timeEvents[n]? = some te →
      t.loop.timeEvents[n]? = some te) :
    ∃ new, t.log = new ++ s.log ∧ (∀ l ∈ new, l.called = none) ∧
      ∀ (n : Nat) (te : TimeEvent H D), s.loop.timeEvents[n]? = some te →
        te.id ≠ aeDeletedEventId → t.loop.timeEvents[n]? = some te.deleted →
          Label.cancelled te.id ∈ new := by
  refine ⟨new, hlog, hcalled, fun n te hte hlive hdel => absurd ?_ hlive⟩
  have heq := (hstays n te hte).symm.trans hdel
  rw [Option.some.injEq] at heq
  rw [heq]
  rfl

/-- The list of time events is not touched, and at most one entry recorded. -/
theorem leaves_of_eq {s t : State H D} (new : List (Label H D)) (hlog : t.log = new ++ s.log)
    (hcalled : ∀ l ∈ new, l.called = none) (hlist : t.loop.timeEvents = s.loop.timeEvents)
    (hnext : t.loop.timeEventNextId = s.loop.timeEventNextId) (hclocks : s.clocks ≤ t.clocks)
    (hinvocations : s.invocations ≤ t.invocations)
    (hstop : s.loop.stop = true → t.loop.stop = true) : Leaves s t :=
  ⟨kept_of_eq hlist hnext, recorded_of_stays new hlog hcalled (fun _ _ hte => hlist ▸ hte),
    hclocks, hinvocations, hstop⟩

theorem leaves_refl (s : State H D) : Leaves s s :=
  leaves_of_eq [] rfl (fun _ hl => absurd hl List.not_mem_nil) rfl rfl (Nat.le_refl _)
    (Nat.le_refl _) id

theorem leaves_trans {s t u : State H D} (h1 : Leaves s t) (h2 : Leaves t u) : Leaves s u := by
  rcases h1.recorded with ⟨new1, hlog1, hcalled1, hdel1⟩
  rcases h2.recorded with ⟨new2, hlog2, hcalled2, hdel2⟩
  refine ⟨kept_trans h1.kept h2.kept, ⟨new2 ++ new1, ?_, fun l hl => ?_,
    fun n te hte hlive hgone => List.mem_append.mpr ?_⟩, Nat.le_trans h1.clocks h2.clocks,
    Nat.le_trans h1.invocations h2.invocations, fun h => h2.stop (h1.stop h)⟩
  · rw [hlog2, hlog1, List.append_assoc]
  · rcases List.mem_append.mp hl with hl | hl
    · exact hcalled2 l hl
    · exact hcalled1 l hl
  · rcases h1.kept.old n te hte with hsame | hdel
    · exact Or.inl (hdel2 n te hsame hlive hgone)
    · exact Or.inr (hdel1 n te hte hlive hdel)

theorem aeCreateTimeEvent_leaves (env : Env H D) (s : State H D) (ms : Int) (proc : H) (data : D)
    (finalizer : Option H) : Leaves s (aeCreateTimeEvent env s ms proc data finalizer) := by
  have hstays : ∀ (n : Nat) (te : TimeEvent H D), s.loop.timeEvents[n]? = some te →
      (aeCreateTimeEvent env s ms proc data finalizer).loop.timeEvents[n]? = some te := by
    intro n te hte
    exact (List.getElem?_append_left (List.getElem?_eq_some_iff.mp hte).1).trans hte
  refine ⟨⟨Int.le_of_lt (Int.lt_succ _), fun n te hte => Or.inl (hstays n te hte),
    fun n te hte hlive => ?_, (List.sublist_append_left _ _).length_le⟩,
    recorded_of_stays [_] rfl (fun l hl => ?_) hstays, Nat.le_succ _, Nat.le_refl _, id⟩
  · by_cases hn : n < s.loop.timeEvents.length
    · exact Or.inl ((List.getElem?_append_left hn).symm.trans hte)
    · have hlast : te ∈ [_] := List.mem_of_getElem?
        ((List.getElem?_append_right (Nat.le_of_not_lt hn)).symm.trans hte)
      rw [List.mem_singleton.mp hlast]
      exact Or.inr (Int.le_refl _)
  · rw [List.mem_singleton.mp hl]
    rfl

theorem aeDeleteTimeEvent_leaves (s : State H D) (id : Int) :
    Leaves s (aeDeleteTimeEvent s id) := by
  rcases aeDeleteTimeEvent_cases s id with heq | ⟨a, te, b, hsplit, hid, heq⟩
  · rw [heq]
    exact leaves_refl s
  · rw [heq]
    refine ⟨kept_delete hsplit rfl rfl, ⟨[.cancelled id], rfl, fun l hl => ?_,
      fun n x hx hlive hdel => ?_⟩, Nat.le_refl _, Nat.le_refl _, fun h => h⟩
    · rw [List.mem_singleton.mp hl]
      rfl
    · -- Nothing else changes, so this is the event that was found.
      have hn : n = a.length := by
        by_contra hne
        have hsame : (a ++ te.deleted :: b)[n]? = s.loop.timeEvents[n]? := by
          rw [hsplit]
          rcases Nat.lt_or_gt_of_ne hne with hlt | hgt
          · rw [List.getElem?_append_left hlt, List.getElem?_append_left hlt]
          · rw [List.getElem?_append_right (Nat.le_of_lt hgt),
              List.getElem?_append_right (Nat.le_of_lt hgt),
              List.getElem?_cons, List.getElem?_cons, if_neg (Nat.sub_ne_zero_of_lt hgt),
              if_neg (Nat.sub_ne_zero_of_lt hgt)]
        have hx' := (hsame.trans hx).symm.trans hdel
        rw [Option.some.injEq] at hx'
        exact hlive (congrArg TimeEvent.id hx')
      have hte : s.loop.timeEvents[n]? = some te := by
        rw [hsplit, hn, List.getElem?_append_right (Nat.le_refl _), Nat.sub_self,
          List.getElem?_cons_zero]
      have hxte := hx.symm.trans hte
      rw [Option.some.injEq] at hxte
      rw [hxte, hid]
      exact List.mem_singleton.mpr rfl

theorem runCall_leaves (env : Env H D) (s : State H D) (c : Call H D) :
    Leaves s (runCall env s c) := by
  cases c with
  | createFileEvent fd mask proc data ok =>
      simp only [runCall, aeCreateFileEvent]
      split
      · exact leaves_refl s
      · split
        · exact leaves_refl s
        · exact leaves_of_eq [.registered fd mask proc data] rfl
            (fun l hl => List.mem_singleton.mp hl ▸ rfl) rfl rfl (Nat.le_refl _) (Nat.le_refl _) id
  | deleteFileEvent fd mask =>
      simp only [runCall, aeDeleteFileEvent]
      split
      · exact leaves_refl s
      · split
        · exact leaves_refl s
        · exact leaves_of_eq [.unregistered fd mask] rfl
            (fun l hl => List.mem_singleton.mp hl ▸ rfl) rfl rfl (Nat.le_refl _) (Nat.le_refl _) id
  | createTimeEvent ms proc data finalizer =>
      exact aeCreateTimeEvent_leaves env s ms proc data finalizer
  | deleteTimeEvent id => exact aeDeleteTimeEvent_leaves s id
  | close fd =>
      exact leaves_of_eq [.closed fd _] rfl (fun l hl => List.mem_singleton.mp hl ▸ rfl) rfl rfl
        (Nat.le_refl _) (Nat.le_refl _) id
  | stop =>
      exact leaves_of_eq [] rfl (fun _ hl => absurd hl List.not_mem_nil) rfl rfl (Nat.le_refl _)
        (Nat.le_refl _) (fun _ => rfl)

theorem runCalls_leaves (env : Env H D) (cs : List (Call H D)) (s : State H D) :
    Leaves s (cs.foldl (runCall env) s) := by
  induction cs generalizing s with
  | nil => exact leaves_refl s
  | cons c cs ih => exact leaves_trans (runCall_leaves env s c) (ih (runCall env s c))

theorem invoke_leaves (env : Env H D) (i : Invocation H D) (s : State H D) :
    Leaves s (invoke env i s) := by
  have hcount : Leaves s { s with invocations := s.invocations + 1 } :=
    leaves_of_eq [] rfl (fun _ hl => absurd hl List.not_mem_nil) rfl rfl (Nat.le_refl _)
      (Nat.le_succ _) id
  exact leaves_trans hcount (runCalls_leaves env _ _)

end Ae

end Wrk
