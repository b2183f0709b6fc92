import Wrk.Ae.Thread
import Mathlib.Order.WellFounded
import Mathlib.Data.Nat.Find

/-!
# When a Thread Returns

Because the time event of `record_rate` is always there, a thread always has
something to wait for: it never sleeps for longer than the interval at which
`record_rate` is called. Each pass reads the clock, so that in the end
`record_rate` is due and is called. It is called again and again until it
finds `stop` set, and the pass in which it does is the last, unless a hook of
the script has stopped the loop before.

## Main definitions

* `Recording`: The time event of `record_rate` is there, and due in time.
* `pass`, `Recorded`: A pass, and what it does about `record_rate`.
* `countdown`: What counts down while a thread goes on.

## Theorems

* `nearest_spec`: What `aeSearchNearestTimer` finds.
* `pass_recorded`: A pass leaves the event there, and calls it if it is due.
* `sleep_le`: A thread never sleeps for longer than the interval.
* `thread_returns`: A thread returns if `stop` is ever set, and otherwise only
  if a hook stops it.
-/

namespace Wrk

namespace Ae

open Transition

variable {C : Type}

/-! ### A pass of a thread -/

/-- The time event of `record_rate` is the oldest of the loop, and due within
    the interval. -/
structure Recording (e : Setting C) (s : State Handler (Client C)) : Prop where
  sound : Sound s
  small : ∀ te ∈ s.loop.timeEvents, te.due.ms < 1000
  head : ∃ ev, s.loop.timeEvents[0]? = some ev ∧ OfRecordRate ev ∧
    ev.due.total ≤ e.clock s.clocks + recordIntervalMs

theorem processFile_adds (e : Setting C) (ev : EpollEvent) (s : State Handler (Client C)) :
    Adds e s (processFile e.env s ev) := by
  have hcall : ∀ (l : Label Handler (Client C)) (proc : Option Handler) (fd : Nat)
      (data : Option (Client C)) (mask : Mask) (t : State Handler (Client C)),
      Adds e t (invoke e.env (.file proc fd data mask) (t.note l)) := by
    intro l proc fd data mask t
    have hnote : Adds e t (t.note l) := adds_of_eq e rfl (Nat.le_refl _) (Nat.le_refl _) rfl
    exact adds_trans e hnote (invoke_adds e (.file proc fd data mask) rfl (t.note l))
  unfold processFile
  simp only
  split
  · split
    · exact adds_trans e (hcall _ _ _ _ _ s) (hcall _ _ _ _ _ _)
    · exact hcall _ _ _ _ _ s
  · split
    · exact hcall _ _ _ _ _ s
    · exact adds_refl e s

theorem processFiles_adds (e : Setting C) (evs : List EpollEvent) (s : State Handler (Client C)) :
    Adds e s (evs.foldl (processFile e.env) s) := by
  induction evs generalizing s with
  | nil => exact adds_refl e s
  | cons ev evs ih => exact adds_trans e (processFile_adds e ev s) (ih (processFile e.env s ev))

theorem before_iff (a b : When) :
    a.before b = true ↔ a.sec < b.sec ∨ a.sec = b.sec ∧ a.ms < b.ms := by
  simp only [When.before, Bool.or_eq_true, Bool.and_eq_true, decide_eq_true_eq]

/-- The nearest event is one of the list, and none is before it. -/
theorem nearest_spec {H D : Type} (l : EventLoop H D) (ev : TimeEvent H D)
    (hev : ev ∈ l.timeEvents) :
    ∃ te, aeSearchNearestTimer l = some te ∧ te ∈ l.timeEvents ∧
      ¬ev.due.before te.due = true := by
  -- The list is searched from its tail, so the induction is on what has been seen.
  have hall : ∀ es : List (TimeEvent H D), es ≠ [] →
      ∃ te, es.foldr nearer none = some te ∧ te ∈ es ∧
        ∀ x ∈ es, ¬x.due.before te.due = true := by
    intro es
    induction es with
    | nil => exact fun h => absurd rfl h
    | cons x es ih =>
        intro _
        have hself : ¬x.due.before x.due = true := by
          rw [before_iff]
          omega
        by_cases hes : es = []
        · rw [hes]
          exact ⟨x, rfl, List.mem_cons_self, fun y hy => List.mem_singleton.mp hy ▸ hself⟩
        · rcases ih hes with ⟨te, hfold, hmem, hleast⟩
          rw [List.foldr_cons, hfold]
          by_cases hx : x.due.before te.due = true
          · refine ⟨x, if_pos hx, List.mem_cons_self, fun y hy => ?_⟩
            rcases List.mem_cons.mp hy with rfl | hy
            · exact hself
            · have hy' := hleast y hy
              rw [before_iff] at hx hy' ⊢
              omega
          · refine ⟨te, if_neg hx, List.mem_cons_of_mem x hmem, fun y hy => ?_⟩
            rcases List.mem_cons.mp hy with rfl | hy
            · exact hx
            · exact hleast y hy
  rcases hall l.timeEvents (List.ne_nil_of_mem hev) with ⟨te, hfold, hmem, hleast⟩
  exact ⟨te, hfold, hmem, hleast ev hev⟩

/-- How long a thread sleeps. -/
theorem pollTimeout_recording (e : Setting C) (s : State Handler (Client C))
    (h : Recording e s) :
    ∃ ms, pollTimeout e.env aeAllEvents s = (some ms, (aeGetTime e.env s).2) ∧ 0 ≤ ms ∧
      ms ≤ recordIntervalMs := by
  rcases h.head with ⟨ev, hget, hev, hdue⟩
  rcases nearest_spec s.loop ev (List.mem_of_getElem? hget) with ⟨te, hnear, hmem, hbefore⟩
  have hle : te.due.total ≤ ev.due.total := by
    have hsmall := h.small te hmem
    have hnormal := hev.normal.1
    rw [before_iff] at hbefore
    simp only [When.total]
    omega
  have hres : pollTimeout e.env aeAllEvents s =
      (some (if (te.due.sec - (aeGetTime e.env s).1.sec) * 1000 + te.due.ms -
          (aeGetTime e.env s).1.ms > 0 then
        (te.due.sec - (aeGetTime e.env s).1.sec) * 1000 + te.due.ms - (aeGetTime e.env s).1.ms
        else 0), (aeGetTime e.env s).2) := by
    unfold pollTimeout
    rw [show (aeAllEvents.timeEvents && !aeAllEvents.dontWait) = true from rfl, if_pos rfl, hnear]
  have hrest : (te.due.sec - (aeGetTime e.env s).1.sec) * 1000 + te.due.ms -
      (aeGetTime e.env s).1.ms = te.due.total - e.clock s.clocks := by
    have hnow := total_timeOf (e.clock s.clocks)
    rw [show (aeGetTime e.env s).1 = timeOf (e.clock s.clocks) from rfl]
    simp only [When.total] at hnow ⊢
    omega
  rw [hrest] at hres
  have hinterval : recordIntervalMs = 100 := rfl
  by_cases hpos : te.due.total - e.clock s.clocks > 0
  · rw [if_pos hpos] at hres
    exact ⟨_, hres, Int.le_of_lt hpos, by omega⟩
  · rw [if_neg hpos] at hres
    exact ⟨0, hres, Int.le_refl 0, by omega⟩

/-- The first half of a pass. -/
theorem processFileEvents_adds (e : Setting C) (s : State Handler (Client C))
    (h : Recording e s) :
    Adds e s (processFileEvents e.env aeAllEvents s).1 ∧
      s.clocks < (processFileEvents e.env aeAllEvents s).1.clocks := by
  rcases pollTimeout_recording e s h with ⟨ms, hres, _, _⟩
  unfold processFileEvents
  rw [show (aeAllEvents.timeEvents && !aeAllEvents.dontWait) = true from rfl, Bool.or_true,
    if_pos rfl, hres]
  have hfiles := processFiles_adds e (aeApiPoll e.env (some ms) (aeGetTime e.env s).2).1
    (aeApiPoll e.env (some ms) (aeGetTime e.env s).2).2
  have hpoll : Adds e s (aeApiPoll e.env (some ms) (aeGetTime e.env s).2).2 :=
    adds_of_eq e rfl (Nat.le_succ _) (Nat.le_refl _) rfl
  exact ⟨adds_trans e hpoll hfiles, hfiles.clocks⟩

/-- What a pass does about `record_rate`: it is not due yet, or it is called,
    and finds `stop` as it is then. -/
structure Recorded (e : Setting C) (s s' : State Handler (Client C)) : Prop where
  recording : Recording e s'
  clocks : s.clocks < s'.clocks
  invocations : s.invocations ≤ s'.invocations
  cause : s'.loop.stop = true → s.loop.stop = true ∨ Caused e s'
  called : (∃ ev : TimeEvent Handler (Client C), s.loop.timeEvents[0]? = some ev ∧
      s'.loop.timeEvents[0]? = some ev ∧ (e.clock s.clocks : Int) < ev.due.total) ∨
    ∃ m, s.invocations ≤ m ∧ m < s'.invocations ∧ (e.stop m = true → s'.loop.stop = true)

/-- What the loop over the time events starts from: the event of `record_rate`
    as it was, unless it has been made due. -/
theorem passStart_head (e : Setting C) (s : State Handler (Client C))
    (ev : TimeEvent Handler (Client C))
    (hget : s.loop.timeEvents[0]? = some ev) (hev : OfRecordRate ev) :
    ∃ ev', (passStart e.env s).loop.timeEvents[0]? = some ev' ∧ OfRecordRate ev' ∧
      (ev' = ev ∨ ∀ now, 1000 ≤ now → ev'.due.reached (timeOf now) = true) := by
  rcases passStart_cases e.env s with ⟨_, _, hlist⟩ | ⟨_, _, hlist⟩
  · exact ⟨ev, by rw [hlist]; exact hget, hev, Or.inl rfl⟩
  · refine ⟨ev.hasten, ?_, ⟨hev.id, hev.timeProc, hev.normal⟩, Or.inr fun now hnow =>
      reached_hasten ev.due.ms hnow⟩
    rw [hlist, List.getElem?_map, hget]
    rfl

theorem passStart_small (e : Setting C) (s : State Handler (Client C))
    (h : ∀ te ∈ s.loop.timeEvents, te.due.ms < 1000) :
    ∀ te ∈ (passStart e.env s).loop.timeEvents, te.due.ms < 1000 := by
  rcases passStart_cases e.env s with ⟨_, _, hlist⟩ | ⟨_, _, hlist⟩
  · rw [hlist]
    exact h
  · rw [hlist]
    intro te hte
    rcases List.mem_map.mp hte with ⟨x, hx, rfl⟩
    exact h x hx

theorem passStart_counts (env : Env Handler (Client C)) (s : State Handler (Client C)) :
    (passStart env s).invocations = s.invocations ∧
      (passStart env s).loop.stop = s.loop.stop := by
  unfold passStart
  by_cases hback : env.time s.times < s.loop.lastTime
  · constructor <;> simp only [if_pos hback, skew, State.note]
  · constructor <;> simp only [if_neg hback]

/-- The second half of a pass. -/
theorem processTimeEvents_looping (e : Setting C) (hclock : Monotone e.clock)
    (s : State Handler (Client C)) (hs : Sound s)
    (hsmall : ∀ te ∈ s.loop.timeEvents, te.due.ms < 1000) (ev : TimeEvent Handler (Client C))
    (hget : s.loop.timeEvents[0]? = some ev) (hev : OfRecordRate ev) :
    ∃ ev', OfRecordRate ev' ∧
      (ev' = ev ∨ ∀ now, 1000 ≤ now → ev'.due.reached (timeOf now) = true) ∧
      Looping e (passStart e.env s) ev' 0 (processTimeEvents e.env s) ∧
      Sound (processTimeEvents e.env s).1 := by
  rcases passStart_head e s ev hget hev with ⟨ev', hget', hev', hwhich⟩
  -- The loop over the events runs from the newest to that of `record_rate`.
  have hpos : (passStart e.env s).loop.timeEvents.length ≠ 0 :=
    Nat.ne_of_gt (List.getElem?_eq_some_iff.mp hget').1
  have hloop := timeLoop_rule e.env (setting_quiet e) _ (passStart_maxId e.env s hs)
    (Looping e (passStart e.env s) ev')
    (fun n r r' hstand h hvisit =>
      visit_looping e hclock _ ev' hev' n r r' hstand.sound h hvisit)
    _ none (passStart e.env s, 0) (passStart_standing e.env s hs) rfl
    ⟨passStart_small e s hsmall, Nat.le_refl _, Nat.le_refl _, id, Or.inl, fun _ => hget',
      fun h0 => absurd h0 hpos⟩
  exact ⟨ev', hev', hwhich, hloop.1, hloop.2⟩

/-- A pass of the loop of a thread. -/
def pass (e : Setting C) (s : State Handler (Client C)) : State Handler (Client C) :=
  (aeProcessEvents e.env aeAllEvents s).1

/-- A pass leaves the event of `record_rate` there, and calls it if it is
    due. -/
theorem pass_recorded (e : Setting C) (hclock : Monotone e.clock)
    (hpast : ∀ n, 1000 ≤ e.clock n) (s : State Handler (Client C)) (h : Recording e s) :
    Recorded e s (pass e s) := by
  rcases h.head with ⟨ev, hget, hev, hdue⟩
  rcases processFileEvents_adds e s h with ⟨hadds, hclocks⟩
  have hsound := (processFileEvents_refines e.env aeAllEvents s h.sound).1
  rcases hadds.list with ⟨more, hmore, hms⟩
  have hsmall : ∀ te ∈ (processFileEvents e.env aeAllEvents s).1.loop.timeEvents,
      te.due.ms < 1000 := by
    intro te hte
    rw [hmore] at hte
    exact (List.mem_append.mp hte).elim (h.small te) (hms te)
  have hget' : (processFileEvents e.env aeAllEvents s).1.loop.timeEvents[0]? = some ev := by
    rw [hmore]
    exact (List.getElem?_append_left (List.getElem?_eq_some_iff.mp hget).1).trans hget
  rcases processTimeEvents_looping e hclock _ hsound hsmall ev hget' hev with
    ⟨ev', hev', hwhich, hloop, hsound'⟩
  rcases passStart_counts e.env (processFileEvents e.env aeAllEvents s).1 with
    ⟨hinvocations, hstop⟩
  have hstart := passStart_clocks e.env (processFileEvents e.env aeAllEvents s).1
  have hpass : pass e s = (processTimeEvents e.env (processFileEvents e.env aeAllEvents s).1).1 :=
    rfl
  have hlt : s.clocks < (pass e s).clocks := by
    have hle := hloop.clocks
    rw [hstart] at hle
    exact Nat.lt_of_lt_of_le hclocks hle
  -- The loop was stopped by a file event of this pass, or by a time event.
  have hcause : (pass e s).loop.stop = true → s.loop.stop = true ∨ Caused e (pass e s) := by
    intro hs
    rcases hloop.cause hs with hs | hm
    · refine (hadds.cause (hstop.symm.trans hs)).imp_right (caused_mono e ?_)
      exact Nat.le_trans (Nat.le_of_eq hinvocations.symm) hloop.invocations
    · exact Or.inr hm
  have hinv : s.invocations ≤ (pass e s).invocations :=
    Nat.le_trans hadds.invocations (Nat.le_trans (Nat.le_of_eq hinvocations.symm) hloop.invocations)
  rcases hloop.done rfl with ⟨hstill, hnot⟩ | ⟨m, due, hle, hlt', hm, hnew, hnormal, htotal⟩
  · -- An event that has been made due would have been called.
    have hsame : ev' = ev := hwhich.resolve_right fun hreached => hnot (hreached _ (hpast _))
    rw [hsame] at hstill hnot
    have hwaits : (e.clock s.clocks : Int) < ev.due.total := by
      refine Int.not_le.mp fun hreached => ?_
      refine hnot ((reached_iff_total ev.due _ hev.normal).mpr (Int.le_trans hreached ?_))
      rw [hstart]
      exact Int.ofNat_le.mpr (hclock (Nat.le_of_lt hclocks))
    refine ⟨⟨hsound', hloop.small, ev, hstill, hev, Int.le_trans hdue ?_⟩, hlt, hinv, hcause,
      Or.inl ⟨ev, hget, hstill, hwaits⟩⟩
    exact Int.add_le_add_right (Int.ofNat_le.mpr (hclock (Nat.le_of_lt hlt))) _
  · refine ⟨⟨hsound', hloop.small, ev'.defer due, hnew, ⟨hev'.id, hev'.timeProc, hnormal⟩,
      htotal⟩, hlt, hinv, hcause, Or.inr ⟨m, ?_, hlt', hm⟩⟩
    rw [hinvocations] at hle
    exact Nat.le_trans hadds.invocations hle

/-! ### The start of a thread -/

/-- Connecting leaves the time events and `stop` alone. -/
theorem connectSocket_times (s : State Handler (Client C)) (c : C) (fd : Nat)
    (connected ok : Bool) (h : Sound s) :
    Sound (connectSocket s c fd connected ok) ∧
      (connectSocket s c fd connected ok).loop.timeEvents = s.loop.timeEvents ∧
      (connectSocket s c fd connected ok).loop.timeEventNextId = s.loop.timeEventNextId ∧
      (connectSocket s c fd connected ok).loop.stop = s.loop.stop := by
  have hcreate : ∀ mask proc data,
      (aeCreateFileEvent s fd mask proc data ok).1.loop.timeEvents = s.loop.timeEvents ∧
        (aeCreateFileEvent s fd mask proc data ok).1.loop.timeEventNextId =
          s.loop.timeEventNextId ∧
        (aeCreateFileEvent s fd mask proc data ok).1.loop.stop = s.loop.stop := by
    intro mask proc data
    unfold aeCreateFileEvent
    split
    · exact ⟨rfl, rfl, rfl⟩
    · split <;> exact ⟨rfl, rfl, rfl⟩
  have hsound := (aeCreateFileEvent_does s fd ⟨true, true⟩ (.socket .socketConnected) (.conn c) ok
    h).sound
  unfold connectSocket
  cases connected with
  | false => exact ⟨(closeDescriptor_does s fd h).sound, rfl, rfl, rfl⟩
  | true =>
      simp only [if_true]
      split
      · exact ⟨hsound, hcreate _ _ _⟩
      · exact ⟨(closeDescriptor_does _ fd hsound).sound, hcreate _ _ _⟩

theorem threadStart_recording (e : Setting C) (hclock : Monotone e.clock) (setsize : Nat)
    (attempts : List (Attempt C)) :
    Recording e (threadStart e setsize attempts) ∧
      (threadStart e setsize attempts).loop.stop = false := by
  -- Nothing that precedes `record_rate` creates a time event.
  have hall : ∀ (as : List (Attempt C)) (s : State Handler (Client C)), Sound s →
      s.loop.timeEvents = [] → s.loop.timeEventNextId = 0 → s.loop.stop = false →
      let t := as.foldl (fun s a => connectSocket s a.c a.fd a.connected a.ok) s
      Sound t ∧ t.loop.timeEvents = [] ∧ t.loop.timeEventNextId = 0 ∧ t.loop.stop = false := by
    intro as
    induction as with
    | nil => exact fun s hs hl hn hstop => ⟨hs, hl, hn, hstop⟩
    | cons a as ih =>
        intro s hs hl hn hstop
        rcases connectSocket_times s a.c a.fd a.connected a.ok hs with ⟨hs', hl', hn', hstop'⟩
        exact ih _ hs' (hl'.trans hl) (hn'.trans hn) (hstop'.trans hstop)
  rcases hall attempts _ (sound_create e.env setsize) rfl rfl rfl with ⟨hs, hl, hn, hstop⟩
  refine ⟨⟨(aeCreateTimeEvent_does e.env _ recordIntervalMs .recordRate .thread none hs).sound,
    ?_, ?_⟩, hstop⟩
  all_goals
    have hspec := aeAddMillisecondsToNow_spec e.env recordIntervalMs
      (attempts.foldl (fun s a => connectSocket s a.c a.fd a.connected a.ok)
        (aeCreateEventLoop e.env setsize))
    unfold threadStart aeCreateTimeEvent
    simp only [State.note, hn]
  · intro te hte
    rw [show (aeAddMillisecondsToNow e.env recordIntervalMs _).2.loop.timeEvents =
      (attempts.foldl (fun s a => connectSocket s a.c a.fd a.connected a.ok)
        (aeCreateEventLoop e.env setsize)).loop.timeEvents from rfl, hl] at hte
    rw [List.mem_singleton.mp hte]
    exact hspec.2.1
  · rw [show (aeAddMillisecondsToNow e.env recordIntervalMs _).2.loop.timeEvents =
      (attempts.foldl (fun s a => connectSocket s a.c a.fd a.connected a.ok)
        (aeCreateEventLoop e.env setsize)).loop.timeEvents from rfl, hl]
    refine ⟨_, rfl, ⟨rfl, rfl, hspec.2.2 (by decide)⟩, ?_⟩
    rw [hspec.1]
    exact Int.add_le_add_right (Int.ofNat_le.mpr (hclock (Nat.le_succ _))) _

/-! ### How long a thread runs -/

/-- One connection, and `stop` set after three calls. -/
def sampleSetting : Setting Unit where
  clock n := 1000 + n
  time n := n
  poll _ _ := [⟨5, false, true, false, false⟩]
  stop n := decide (3 ≤ n)
  sockets _ _ := [.deleteFileEvent 5 ⟨false, true⟩]

theorem sample_setting_clock : Monotone sampleSetting.clock :=
  fun _ _ hab => Nat.add_le_add_left hab 1000

theorem sample_setting_past (n : Nat) : 1000 ≤ sampleSetting.clock n := Nat.le_add_right 1000 n

/-- A pass of a thread that has not been stopped. -/
def threadStep (e : Setting C) (s : State Handler (Client C)) (_ : Unit) :
    Option (State Handler (Client C)) :=
  if s.loop.stop then none else some (pass e s)

/-- What a thread keeps while it runs. -/
theorem thread_keeps (e : Setting C) (hclock : Monotone e.clock) (hpast : ∀ n, 1000 ≤ e.clock n)
    (s : State Handler (Client C))
    (h : Recording e s ∧ (s.loop.stop = true → Caused e s)) :
    Recording e (pass e s) ∧ ((pass e s).loop.stop = true → Caused e (pass e s)) := by
  have hpass := pass_recorded e hclock hpast s h.1
  exact ⟨hpass.recording, fun hs =>
    (hpass.cause hs).elim (fun hs => caused_mono e hpass.invocations (h.2 hs)) id⟩

/-- A thread never sleeps for longer than the interval of `record_rate`. -/
theorem sleep_le (e : Setting C) (hclock : Monotone e.clock) (hpast : ∀ n, 1000 ≤ e.clock n)
    (setsize : Nat) (attempts : List (Attempt C)) (s : State Handler (Client C))
    (h : Reaches (threadStep e) (threadStart e setsize attempts) s) :
    ∃ ms, (pollTimeout e.env aeAllEvents s).1 = some ms ∧ 0 ≤ ms ∧ ms ≤ recordIntervalMs ∧
      epollTimeout (some ms) = ms := by
  have hrecording := reaches_invariant (threadStep e) (Recording e) (fun u _ u' hu hstep => by
    unfold threadStep at hstep
    by_cases hstop : u.loop.stop = true
    · rw [if_pos hstop] at hstep
      cases hstep
    · rw [if_neg hstop, Option.some.injEq] at hstep
      rw [← hstep]
      exact (pass_recorded e hclock hpast u hu).recording) _ s
    (threadStart_recording e hclock setsize attempts).1 h
  rcases pollTimeout_recording e s hrecording with ⟨ms, hres, hnonneg, hle⟩
  refine ⟨ms, by rw [hres], hnonneg, hle, ?_⟩
  have hinterval : recordIntervalMs = 100 := rfl
  have hfits : ms.toNat % 2 ^ 32 = ms.toNat := Nat.mod_eq_of_lt (by omega)
  rw [epollTimeout, hfits, toInt32_of_lt _ (by omega)]
  exact Int.toNat_of_nonneg hnonneg

theorem sample_sleep_le :
    ∃ ms, (pollTimeout sampleSetting.env aeAllEvents
        (pass sampleSetting (threadStart sampleSetting 10 [⟨(), 5, true, true⟩]))).1 = some ms ∧
      0 ≤ ms ∧ ms ≤ recordIntervalMs ∧ epollTimeout (some ms) = ms :=
  sleep_le sampleSetting sample_setting_clock sample_setting_past 10 [⟨(), 5, true, true⟩] _
    ⟨[()], rfl⟩

/-- The clock passes every time. -/
def Unbounded (clock : Nat → Nat) : Prop := ∀ now, ∃ n, now ≤ clock n

/-- The first reading of the clock that is not before a time. -/
def firstReading (clock : Nat → Nat) (h : Unbounded clock) (now : Nat) : Nat := Nat.find (h now)

theorem lt_firstReading (clock : Nat → Nat) (hclock : Monotone clock) (h : Unbounded clock)
    (now n : Nat) (hn : clock n < now) : n < firstReading clock h now := by
  refine Nat.lt_of_not_le fun hle => ?_
  have hfound : now ≤ clock (firstReading clock h now) := Nat.find_spec (h now)
  exact absurd (Nat.le_trans hfound (hclock hle)) (Nat.not_le.mpr hn)

/-- When `record_rate` is due. -/
def recordDue (s : State Handler (Client C)) : Nat :=
  ((s.loop.timeEvents[0]?).map fun te => te.due.total.toNat).getD 0

/-- What counts down while a thread goes on: the calls of handlers until `stop`
    is set, and the readings of the clock until `record_rate` is due. -/
def countdown (e : Setting C) (h : Unbounded e.clock) (n : Nat) (s : State Handler (Client C)) :
    Nat × Nat :=
  (n - s.invocations, firstReading e.clock h (recordDue s) - s.clocks)

theorem countdown_pass (e : Setting C) (hclock : Monotone e.clock) (hpast : ∀ n, 1000 ≤ e.clock n)
    (h : Unbounded e.clock) (n : Nat) (hstop : ∀ m, n ≤ m → e.stop m = true)
    (s : State Handler (Client C)) (hs : Recording e s) (hon : (pass e s).loop.stop = false) :
    Prod.Lex (· < ·) (· < ·) (countdown e h n (pass e s)) (countdown e h n s) := by
  have hpass := pass_recorded e hclock hpast s hs
  rcases hpass.called with ⟨ev, hget, hget', hwaits⟩ | ⟨m, hle, hlt, hm⟩
  · -- Not due: the clock has been read once more, at least.
    have hsame : recordDue (pass e s) = recordDue s := by
      unfold recordDue
      rw [hget, hget']
    have hdue : recordDue s = ev.due.total.toNat := by
      unfold recordDue
      rw [hget]
      rfl
    have hfirst := lt_firstReading e.clock hclock h (recordDue s) s.clocks (by omega)
    have hclocks := hpass.clocks
    have hinvocations := hpass.invocations
    unfold countdown
    rw [hsame]
    rcases Nat.lt_or_ge (n - (pass e s).invocations) (n - s.invocations) with hless | hge
    · exact Prod.Lex.left _ _ hless
    · rw [show n - (pass e s).invocations = n - s.invocations by omega]
      exact Prod.Lex.right _ (by omega)
  · -- Called, and `stop` was not set yet.
    have hmn : m < n := by
      refine Nat.lt_of_not_le fun hnm => ?_
      rw [hm (hstop m hnm)] at hon
      cases hon
    exact Prod.Lex.left _ _ (by omega)

/-- A thread returns if `stop` is ever set. If it returns, then because one of
    the calls it has made found `stop` set or stopped the loop in a hook. -/
theorem thread_returns (e : Setting C) (hclock : Monotone e.clock)
    (hpast : ∀ n, 1000 ≤ e.clock n) (hunbounded : Unbounded e.clock)
    (hstop : ∀ m n, m ≤ n → e.stop m = true → e.stop n = true) (setsize : Nat)
    (attempts : List (Attempt C)) :
    ((∃ n, e.stop n = true) → ∃ fuel t, threadMain e setsize attempts fuel = some t) ∧
      ∀ fuel t, threadMain e setsize attempts fuel = some t →
        ∃ n, n < t.invocations ∧ (e.stop n = true ∨ e.Hooked n) := by
  rcases threadStart_recording e hclock setsize attempts with ⟨hstart, hon⟩
  have hbegin : { threadStart e setsize attempts with
      loop := { (threadStart e setsize attempts).loop with stop := false } } =
      threadStart e setsize attempts := by
    rw [← hon]
  have hmain : ∀ fuel, threadMain e setsize attempts fuel =
      Loop.whileLoop (fun s => !s.loop.stop) (pass e) fuel (threadStart e setsize attempts) := by
    intro fuel
    unfold threadMain aeMain
    rw [hbegin]
    rfl
  simp only [hmain]
  constructor
  · rintro ⟨n, hn⟩
    rcases Loop.halts_of_variant (fun s : State Handler (Client C) => !s.loop.stop) (pass e)
      (Recording e) _ (Prod.lex Nat.lt_wfRel Nat.lt_wfRel).wf (countdown e hunbounded n)
      (fun s hs _ => ⟨(pass_recorded e hclock hpast s hs).recording, fun hguard =>
        countdown_pass e hclock hpast hunbounded n (fun m hm => hstop n m hm hn) s hs
          (by simpa only [Bool.not_eq_true'] using hguard)⟩)
      _ hstart with ⟨t, fuel, ht⟩
    exact ⟨fuel, t, ht⟩
  · intro fuel t ht
    rcases Loop.halts_invariant (fun s : State Handler (Client C) => !s.loop.stop) (pass e)
      (fun s => Recording e s ∧ (s.loop.stop = true → Caused e s))
      (fun s hs _ => thread_keeps e hclock hpast s hs) _ t
      ⟨hstart, fun hs => absurd (hon.symm.trans hs) Bool.false_ne_true⟩ ⟨fuel, ht⟩ with ⟨hI, hexit⟩
    exact hI.2 (by simpa only [Bool.not_eq_false'] using hexit)

theorem sample_thread_returns :
    ((∃ n, sampleSetting.stop n = true) →
        ∃ fuel t, threadMain sampleSetting 10 [⟨(), 5, true, true⟩] fuel = some t) ∧
      ∀ fuel t, threadMain sampleSetting 10 [⟨(), 5, true, true⟩] fuel = some t →
        ∃ n, n < t.invocations ∧ (sampleSetting.stop n = true ∨ sampleSetting.Hooked n) :=
  thread_returns sampleSetting sample_setting_clock sample_setting_past
    (fun now => ⟨now, Nat.le_add_left now 1000⟩)
    (fun _ _ hmn hm => decide_eq_true (Nat.le_trans (of_decide_eq_true hm) hmn)) 10 _

end Ae

end Wrk
