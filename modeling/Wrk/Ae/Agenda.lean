import Wrk.Ae.Loop
import Wrk.Core.Refinement

/-!
# The Agenda of an Event Loop

What the event loop is for. Its users see an agenda: which handler is
registered for reading and for writing each descriptor, with what data, and
which time events are still to come. `Step` says how entries of the record
change the agenda, and when they may occur. A handler is only called while it
is on the agenda, with the data it was put there with; a time event only when
it is due, and nothing else is called before it has been rescheduled or
finished. Identifiers are taken in turn and never used again.

The agenda has no list, no deleted events, no masks and no kernel. How it is
kept in `ae.c` is not its matter.

## Main definitions

* `Registration`, `Entry`: What is on an agenda.
* `Agenda`, `Agenda.Step`: The agenda, and how it changes.
* `Agenda.Known`: Identifiers have been given out.
* `Gone`: A time event that is over.

## Theorems

* `known_step`: The identifiers of an agenda have been given out.
* `step_called`: A time event that is called is on the agenda.
* `gone_of_over`, `gone_stays`: One that is over is never called.
-/

namespace Wrk

namespace Ae

open Refinement

variable {H D : Type}

/-! ### The agenda -/

/-- What is registered for a descriptor: a handler, for one direction or for
    both, and the data. -/
structure Registration (H D : Type) where
  reader : Option H
  writer : Option H
  client : D
  used : reader.isSome = true ∨ writer.isSome = true

/-- The registration of what handlers there are. -/
def Registration.of (reader writer : Option H) (client : D) : Option (Registration H D) :=
  if h : reader.isSome = true ∨ writer.isSome = true then some ⟨reader, writer, client, h⟩
  else none

/-- A time event. -/
structure Entry (H D : Type) where
  due : When
  proc : H
  data : D

/-- The registrations, the time events, the next identifier, and the time event
    that is being processed. -/
structure Agenda (H D : Type) where
  files : Nat → Option (Registration H D)
  timers : Int → Option (Entry H D)
  next : Int
  running : Option Int

/-- The handler for a direction. -/
def Registration.handler (r : Registration H D) (writing : Bool) : Option H :=
  if writing then r.writer else r.reader

/-- A handler is added for some directions, and the data replaced. -/
def register (old : Option (Registration H D)) (mask : Mask) (proc : H) (data : D) :
    Option (Registration H D) :=
  Registration.of (if mask.readable then some proc else old.bind (·.reader))
    (if mask.writable then some proc else old.bind (·.writer)) data

/-- The handlers for some directions are removed. -/
def unregister (old : Option (Registration H D)) (mask : Mask) : Option (Registration H D) :=
  old.bind fun r => Registration.of (if mask.readable then none else r.reader)
    (if mask.writable then none else r.writer) r.client

/-- Another time. -/
def Entry.defer (e : Entry H D) (due : When) : Entry H D := { e with due := due }

/-- An entry of the record. -/
inductive Agenda.Step : Agenda H D → Label H D → Agenda H D → Prop
  | registered (a : Agenda H D) (fd : Nat) (mask : Mask) (proc : H) (data : D) :
      Step a (.registered fd mask proc data)
        { a with files := Function.update a.files fd (register (a.files fd) mask proc data) }
  | unregistered (a : Agenda H D) (fd : Nat) (mask : Mask) :
      Step a (.unregistered fd mask)
        { a with files := Function.update a.files fd (unregister (a.files fd) mask) }
  | closed (a : Agenda H D) (fd : Nat) : Step a (.closed fd (a.files fd).isSome) a
  | scheduled (a : Agenda H D) (due : When) (proc : H) (data : D) :
      Step a (.scheduled a.next due proc data)
        { a with
          timers := Function.update a.timers a.next (some ⟨due, proc, data⟩)
          next := a.next + 1 }
  | cancelled (a : Agenda H D) (id : Int) (hknown : id < a.next) :
      Step a (.cancelled id) { a with timers := Function.update a.timers id none }
  | fileCalled (a : Agenda H D) (fd : Nat) (writing : Bool) (r : Registration H D) (proc : H)
      (hidle : a.running = none) (hreg : a.files fd = some r)
      (hproc : r.handler writing = some proc) :
      Step a (.fileCalled fd writing (some proc) (some r.client)) a
  | timeCalled (a : Agenda H D) (id : Int) (e : Entry H D) (now : When)
      (hidle : a.running = none) (hentry : a.timers id = some e)
      (hdue : e.due.reached now = true) :
      Step a (.timeCalled id e.proc e.data now) { a with running := some id }
  | rescheduled (a : Agenda H D) (id : Int) (due : When) (hrunning : a.running = some id) :
      Step a (.rescheduled id due)
        { a with
          timers := Function.update a.timers id ((a.timers id).map (·.defer due))
          running := none }
  | finished (a : Agenda H D) (id : Int) (hrunning : a.running = some id) :
      Step a (.finished id)
        { a with timers := Function.update a.timers id none, running := none }
  | skewed (a : Agenda H D) (hidle : a.running = none) :
      Step a .skewed
        { a with timers := fun id => (a.timers id).map fun e => e.defer ⟨0, e.due.ms⟩ }

/-- An empty agenda. -/
def Agenda.empty : Agenda H D := ⟨fun _ => none, fun _ => none, 0, none⟩

/-- The time event that is called. -/
def Label.called : Label H D → Option Int
  | .timeCalled id _ _ _ => some id
  | _ => none

/-- The identifiers of an agenda have been given out. -/
structure Agenda.Known (a : Agenda H D) : Prop where
  timers : ∀ id, (a.timers id).isSome = true → id < a.next
  running : ∀ id, a.running = some id → id < a.next

theorem known_empty : (Agenda.empty : Agenda H D).Known :=
  ⟨fun _ h => absurd h Bool.false_ne_true, fun _ h => nomatch h⟩

/-- Whatever is done to one time event of those there are. -/
theorem known_update (a : Agenda H D) (h : a.Known) (id : Int) (e : Option (Entry H D))
    (he : e.isSome = true → id < a.next) (id' : Int)
    (hsome : (Function.update a.timers id e id').isSome = true) : id' < a.next := by
  by_cases hid : id' = id
  · rw [hid, Function.update_self] at hsome
    rw [hid]
    exact he hsome
  · rw [Function.update_of_ne hid] at hsome
    exact h.timers id' hsome

theorem known_step (a : Agenda H D) (l : Label H D) (b : Agenda H D) (h : a.Known)
    (hstep : a.Step l b) : b.Known := by
  cases hstep with
  | registered | unregistered | closed | fileCalled => exact ⟨h.timers, h.running⟩
  | scheduled due proc data =>
      refine ⟨fun id hsome => ?_, fun id hid => Int.lt_trans (h.running id hid) (Int.lt_succ _)⟩
      by_cases hid : id = a.next
      · rw [hid]
        exact Int.lt_succ _
      · have hold := (congrArg Option.isSome (Function.update_of_ne hid _ _)).symm.trans hsome
        exact Int.lt_trans (h.timers id hold) (Int.lt_succ _)
  | cancelled id hknown =>
      exact ⟨known_update a h id none (fun hsome => nomatch hsome), h.running⟩
  | timeCalled id e now hidle hentry hdue =>
      refine ⟨h.timers, fun id' hid => ?_⟩
      rw [← Option.some.inj hid]
      exact h.timers id (by rw [hentry]; rfl)
  | rescheduled id due hrunning =>
      exact ⟨known_update a h id _ (fun _ => h.running id hrunning), fun _ hid => nomatch hid⟩
  | finished id hrunning =>
      exact ⟨known_update a h id none (fun hsome => nomatch hsome), fun _ hid => nomatch hid⟩
  | skewed hidle =>
      refine ⟨fun id hsome => h.timers id ?_, h.running⟩
      rwa [Option.isSome_map] at hsome

theorem step_called (a b : Agenda H D) (l : Label H D) (id : Int) (h : a.Step l b)
    (hl : l.called = some id) : (a.timers id).isSome = true := by
  cases h with
  | timeCalled id' e now hidle hentry hdue =>
      simp only [Label.called, Option.some.injEq] at hl
      rw [← hl, hentry]
      rfl
  | _ => simp only [Label.called, reduceCtorEq] at hl

/-- The time event that is over. -/
def Label.over : Label H D → Option Int
  | .cancelled id => some id
  | .finished id => some id
  | _ => none

/-- An identifier has been used, and is no longer on the agenda. -/
def Gone (id : Int) (a : Agenda H D) : Prop := id < a.next ∧ a.timers id = none

/-- What is off the agenda stays off. -/
theorem gone_step (id : Int) (a : Agenda H D) (l : Label H D) (b : Agenda H D) (hgone : Gone id a)
    (h : a.Step l b) : Gone id b := by
  rcases hgone with ⟨hlt, hnone⟩
  cases h with
  | registered | unregistered | closed | fileCalled | timeCalled => exact ⟨hlt, hnone⟩
  | scheduled due proc data =>
      refine ⟨Int.lt_trans hlt (Int.lt_succ a.next), ?_⟩
      exact (Function.update_of_ne (ne_of_lt hlt) _ _).trans hnone
  | cancelled id' hknown =>
      refine ⟨hlt, ?_⟩
      by_cases hid : id = id'
      · rw [hid]
        exact Function.update_self id' none a.timers
      · exact (Function.update_of_ne hid _ _).trans hnone
  | rescheduled id' due hrunning =>
      refine ⟨hlt, ?_⟩
      by_cases hid : id = id'
      · rw [hid] at hnone ⊢
        exact (Function.update_self id' _ a.timers).trans (by rw [hnone]; rfl)
      · exact (Function.update_of_ne hid _ _).trans hnone
  | finished id' hrunning =>
      refine ⟨hlt, ?_⟩
      by_cases hid : id = id'
      · rw [hid]
        exact Function.update_self id' none a.timers
      · exact (Function.update_of_ne hid _ _).trans hnone
  | skewed hidle => exact ⟨hlt, by simp only [hnone, Option.map_none]⟩

theorem gone_of_over (a b : Agenda H D) (l : Label H D) (id : Int) (ha : a.Known)
    (h : a.Step l b) (hl : l.over = some id) : Gone id b := by
  cases h with
  | cancelled id' hknown =>
      rw [← Option.some.inj hl]
      exact ⟨hknown, Function.update_self id' none a.timers⟩
  | finished id' hrunning =>
      rw [← Option.some.inj hl]
      exact ⟨ha.running id' hrunning, Function.update_self id' none a.timers⟩
  | _ => simp only [Label.over, reduceCtorEq] at hl

/-- A time event that is off the agenda is never called. -/
theorem gone_stays (id : Int) (a b : Agenda H D) (ls : List (Label H D)) (hgone : Gone id a)
    (h : Run Agenda.Step a ls b) : ∀ l ∈ ls, l.called ≠ some id := by
  induction ls generalizing a with
  | nil =>
      intro l hl
      cases hl
  | cons l ls ih =>
      rcases h with ⟨m, hstep, hrest⟩
      intro l' hl'
      rcases List.mem_cons.mp hl' with rfl | hl'
      · intro hcalled
        have hsome := step_called a m l' id hstep hcalled
        rw [hgone.2] at hsome
        cases hsome
      · exact ih m (gone_step id a l m hgone hstep) hrest l' hl'

end Ae

end Wrk
