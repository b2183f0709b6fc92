import Wrk.Ae.Calls

/-!
# A Pass Over the Time Events

The loop of `processTimeEvents`, event by event. It goes from the last event
of the list to the first, so that the events that handlers create meanwhile
are behind it. A deleted event is removed on the way, and is not where the
loop goes next; so the event before it in the list of the source is the one
that the loop came from.

The list of the source has no event before its head. Should a finalizer put a
new event there, the removal of the next deleted event would drop it. So
finalizers are asked not to create any.

What one visit keeps, the loop keeps.

## Main definitions

* `Env.Quiet`: Finalizers create no time events.
* `Visit`: What the loop does about one event.
* `Standing`: What the loop knows where it stands.

## Theorems

* `fireTimer_cases`: A time event is rescheduled or finished.
* `visit_standing`: A visit keeps what the loop knows.
* `visit_follows`: A visit follows the agenda.
* `timeLoop_rule`: What every visit keeps, the loop keeps.
-/

namespace Wrk

namespace Ae

open Refinement

variable {H D : Type}

/-- A call that creates a time event. -/
def Call.creates : Call H D → Bool
  | .createTimeEvent _ _ _ _ => true
  | _ => false

/-- Finalizers create no time events. -/
def Env.Quiet (env : Env H D) : Prop :=
  ∀ n proc data, ∀ c ∈ env.handler n (.finalizer proc data), c.creates = false

/-- What the loop does about the event at an index. -/
inductive Visit (env : Env H D) (n : Nat) : State H D × Nat → State H D × Nat → Prop
  | removed (s : State H D) (k : Nat) (te : TimeEvent H D) (hte : s.loop.timeEvents[n]? = some te)
      (hdel : te.id = aeDeletedEventId) :
      Visit env n (s, k) (removeTimer env (some (n + 1)) n te s, k)
  | fired (s : State H D) (k : Nat) (te : TimeEvent H D) (hte : s.loop.timeEvents[n]? = some te)
      (hlive : te.id ≠ aeDeletedEventId) (hdue : te.due.reached (aeGetTime env s).1 = true) :
      Visit env n (s, k) (fireTimer env n te (aeGetTime env s).1 (aeGetTime env s).2, k + 1)
  | waiting (s : State H D) (k : Nat) (te : TimeEvent H D) (hte : s.loop.timeEvents[n]? = some te)
      (hlive : te.id ≠ aeDeletedEventId) (hdue : ¬te.due.reached (aeGetTime env s).1 = true) :
      Visit env n (s, k) ((aeGetTime env s).2, k)

/-- What the loop knows where it stands: the events it has not yet seen are
    older than the pass. -/
structure Standing (maxId : Int) (n : Nat) (s : State H D) : Prop where
  sound : Sound s
  next : maxId < s.loop.timeEventNextId
  length : n ≤ s.loop.timeEvents.length
  old : ∀ (m : Nat) (te : TimeEvent H D), m < n → s.loop.timeEvents[m]? = some te → te.id ≤ maxId

/-! ### Places -/

/-- A list around one of its events. -/
theorem exists_split {l : List (TimeEvent H D)} {n : Nat} {te : TimeEvent H D}
    (h : l[n]? = some te) :
    ∃ a b, l = a ++ te :: b ∧ a.length = n ∧ ∀ x, l.set n x = a ++ x :: b := by
  rcases List.getElem?_eq_some_iff.mp h with ⟨hn, rfl⟩
  refine ⟨l.take n, l.drop (n + 1), ?_, List.length_take_of_le (Nat.le_of_lt hn), fun x => ?_⟩
  · rw [List.getElem_cons_drop, List.take_append_drop]
  · exact List.set_eq_take_append_cons_drop.trans (if_pos hn)

/-- The event that a handler has found deleted is on the agenda no longer. -/
theorem lookup_deleted {s t : State H D} (hs : Sound s) (hkept : Kept s.loop t.loop) {n : Nat}
    {te : TimeEvent H D} (hte : s.loop.timeEvents[n]? = some te) (hlive : te.id ≠ aeDeletedEventId)
    (hdel : t.loop.timeEvents[n]? = some te.deleted) : lookup t.loop.timeEvents te.id = none := by
  refine lookup_of_forall_ne _ _ fun x hx hid => ?_
  rcases List.getElem?_of_mem hx with ⟨m, hm⟩
  have hxlive : x.id ≠ aeDeletedEventId := hid ▸ hlive
  rcases hkept.new m x hm hxlive with hold | hnew
  · have hmn := timetable_unique hs.times hold hte hid hxlive
    rw [hmn, hdel, Option.some.injEq] at hm
    exact hxlive (congrArg TimeEvent.id hm).symm
  · rcases hs.times.known te (List.mem_of_getElem? hte) with hdel | ⟨_, hlt⟩
    · exact hlive hdel
    · rw [hid] at hnew
      exact absurd hnew (Int.not_le.mpr hlt)

theorem lookup_at {s : State H D} (hs : Sound s) {n : Nat} {te : TimeEvent H D}
    (hte : s.loop.timeEvents[n]? = some te) (hlive : te.id ≠ aeDeletedEventId) :
    lookup s.loop.timeEvents te.id = some te.entry := by
  rcases exists_split hte with ⟨a, b, hl, _, _⟩
  have htimes := hs.times
  rw [hl] at htimes ⊢
  rw [lookup_append, lookup_of_forall_ne a te.id (timetable_other htimes hlive).1, Option.none_or,
    lookup_cons, if_pos ⟨rfl, hlive⟩]

/-! ### Handlers of time events -/

/-- A time event is rescheduled or finished, by what its handler returns. The
    handler may have deleted it meanwhile. -/
theorem fireTimer_cases (env : Env H D) (n : Nat) (te : TimeEvent H D) (now : When) (s : State H D)
    (hte : s.loop.timeEvents[n]? = some te) :
    ∃ after t, t = invoke env (.time te.timeProc te.id te.clientData)
        (s.note (.timeCalled te.id te.timeProc te.clientData now)) ∧
      t.loop.timeEvents[n]? = some after ∧ (after = te ∨ after = te.deleted) ∧
      ((∃ due, due = (aeAddMillisecondsToNow env (env.returns s.invocations
            (.time te.timeProc te.id te.clientData)) t).1 ∧
          env.returns s.invocations (.time te.timeProc te.id te.clientData) ≠ aeNoMore ∧
          fireTimer env n te now s =
            (({ t with clocks := t.clocks + 1 } : State H D).setTime n (after.defer due)).note
              (.rescheduled te.id due)) ∨
        env.returns s.invocations (.time te.timeProc te.id te.clientData) = aeNoMore ∧
          fireTimer env n te now s = (t.setTime n after.deleted).note (.finished te.id)) := by
  have hleaves := invoke_leaves env (.time te.timeProc te.id te.clientData)
    (s.note (.timeCalled te.id te.timeProc te.clientData now))
  have hafter : ∃ after,
      (invoke env (.time te.timeProc te.id te.clientData)
        (s.note (.timeCalled te.id te.timeProc te.clientData now))).loop.timeEvents[n]? =
          some after ∧ (after = te ∨ after = te.deleted) := by
    rcases hleaves.kept.old n te hte with hsame | hdel
    · exact ⟨te, hsame, Or.inl rfl⟩
    · exact ⟨te.deleted, hdel, Or.inr rfl⟩
  rcases hafter with ⟨after, hget, hcases⟩
  refine ⟨after, _, rfl, hget, hcases, ?_⟩
  unfold fireTimer
  simp only [hget, Option.getD_some]
  by_cases hret : env.returns s.invocations (.time te.timeProc te.id te.clientData) = aeNoMore
  · exact Or.inr ⟨hret, if_neg (not_not.mpr hret)⟩
  · exact Or.inl ⟨_, rfl, hret, if_pos hret⟩

/-! ### What a visit leaves -/

/-- What a visit to the event at an index leaves of those before it. -/
structure Below (n : Nat) (s t : State H D) : Prop where
  sound : Sound t
  next : s.loop.timeEventNextId ≤ t.loop.timeEventNextId
  length : n ≤ t.loop.timeEvents.length
  below : ∀ (m : Nat) (te : TimeEvent H D), m < n → s.loop.timeEvents[m]? = some te →
    t.loop.timeEvents[m]? = some te ∨ t.loop.timeEvents[m]? = some te.deleted

/-- An event is replaced by itself at another time, or deleted. -/
theorem sound_setTime {s : State H D} (h : Sound s) {n : Nat} {te te' : TimeEvent H D}
    (hte : s.loop.timeEvents[n]? = some te) (hid : te'.id = te.id ∨ te'.id = aeDeletedEventId) :
    Sound (s.setTime n te') := by
  rcases exists_split hte with ⟨a, b, hl, _, hset⟩
  have htimes := h.times
  rw [hl] at htimes
  refine ⟨h.files, ?_⟩
  unfold State.setTime
  rw [hset]
  exact timetable_replace htimes hid

theorem fireTimer_below (env : Env H D) (n : Nat) (te : TimeEvent H D) (now : When)
    (s : State H D) (h : Sound s) (hte : s.loop.timeEvents[n]? = some te) :
    Below n s (fireTimer env n te now s) := by
  rcases fireTimer_cases env n te now s hte with ⟨after, t, ht, hget, _, hcases⟩
  have hsound : Sound t := by
    rw [ht]
    exact (invoke_does env _ (s.note _) ⟨h.files, h.times⟩).sound
  have hleaves := invoke_leaves env (.time te.timeProc te.id te.clientData)
    (s.note (.timeCalled te.id te.timeProc te.clientData now))
  rw [← ht] at hleaves
  have hn : n ≤ t.loop.timeEvents.length := Nat.le_of_lt (List.getElem?_eq_some_iff.mp hget).1
  have hbelow : ∀ (x : TimeEvent H D) (m : Nat) (y : TimeEvent H D), m < n →
      s.loop.timeEvents[m]? = some y →
      (t.loop.timeEvents.set n x)[m]? = some y ∨
        (t.loop.timeEvents.set n x)[m]? = some y.deleted := by
    intro x m y hm hy
    rw [List.getElem?_set_ne (Nat.ne_of_gt hm)]
    exact hleaves.kept.old m y hy
  rcases hcases with ⟨due, _, _, heq⟩ | ⟨_, heq⟩
  · rw [heq]
    have hid : (after.defer due).id = after.id := rfl
    have hset := sound_setTime hsound hget (Or.inl hid)
    exact ⟨⟨hset.files, hset.times⟩, hleaves.kept.next,
      le_of_le_of_eq hn (List.length_set ..).symm, hbelow _⟩
  · rw [heq]
    have hid : after.deleted.id = aeDeletedEventId := rfl
    have hset := sound_setTime hsound hget (Or.inr hid)
    exact ⟨⟨hset.files, hset.times⟩, hleaves.kept.next,
      le_of_le_of_eq hn (List.length_set ..).symm, hbelow _⟩

/-- Without the calls that create them, there are as many events as before. -/
theorem runCalls_length (env : Env H D) (cs : List (Call H D)) (s : State H D)
    (h : ∀ c ∈ cs, c.creates = false) :
    (cs.foldl (runCall env) s).loop.timeEvents.length = s.loop.timeEvents.length := by
  induction cs generalizing s with
  | nil => rfl
  | cons c cs ih =>
      rw [List.foldl_cons, ih _ (fun d hd => h d (List.mem_cons_of_mem c hd))]
      cases c with
      | createFileEvent fd mask proc data ok =>
          simp only [runCall, aeCreateFileEvent]
          split
          · rfl
          · split <;> rfl
      | deleteFileEvent fd mask =>
          simp only [runCall, aeDeleteFileEvent]
          split
          · rfl
          · split <;> rfl
      | createTimeEvent ms proc data finalizer => cases h _ List.mem_cons_self
      | deleteTimeEvent id =>
          rcases aeDeleteTimeEvent_cases s id with heq | ⟨a, te, b, hsplit, _, heq⟩
          · exact congrArg (fun t : State H D => t.loop.timeEvents.length) heq
          · refine (congrArg (fun t : State H D => t.loop.timeEvents.length) heq).trans ?_
            simp only [hsplit, State.note, List.length_append, List.length_cons]
      | close fd => rfl
      | stop => rfl

/-- An event is taken out of the list, and its finalizer called. -/
theorem removeTimer_cases (env : Env H D) (n : Nat) (te : TimeEvent H D) (s : State H D)
    (hquiet : env.Quiet) (h : Sound s) (hte : s.loop.timeEvents[n]? = some te) :
    ∃ s', (∃ a b, s.loop.timeEvents = a ++ te :: b ∧ a.length = n ∧
        s' = { s with loop := { s.loop with timeEvents := a ++ b } }) ∧
      (removeTimer env (some (n + 1)) n te s = s' ∨
        ∃ f, removeTimer env (some (n + 1)) n te s =
          invoke env (.finalizer f te.clientData) s') ∧
      Does s' (removeTimer env (some (n + 1)) n te s) ∧
      Leaves s' (removeTimer env (some (n + 1)) n te s) ∧
      (removeTimer env (some (n + 1)) n te s).loop.timeEvents.length =
        s'.loop.timeEvents.length := by
  have hsplit := List.getElem?_eq_some_iff.mp hte
  rcases hsplit with ⟨hn, hget⟩
  have hl : s.loop.timeEvents = s.loop.timeEvents.take n ++ te :: s.loop.timeEvents.drop (n + 1) := by
    rw [← hget, List.getElem_cons_drop, List.take_append_drop]
  have htimes := h.times
  rw [hl] at htimes
  have hsound : Sound { s with
      loop := { s.loop with
        timeEvents := s.loop.timeEvents.take n ++ s.loop.timeEvents.drop (n + 1) } } :=
    ⟨h.files, timetable_remove htimes⟩
  refine ⟨_, ⟨_, _, hl, List.length_take_of_le (Nat.le_of_lt hn), rfl⟩, ?_⟩
  unfold removeTimer
  cases hfin : te.finalizerProc with
  | none => exact ⟨Or.inl rfl, does_refl _ hsound, leaves_refl _, rfl⟩
  | some f =>
      exact ⟨Or.inr ⟨f, rfl⟩, invoke_does env _ _ hsound, invoke_leaves env _ _,
        runCalls_length env _ _ (hquiet _ f te.clientData)⟩

theorem removeTimer_below (env : Env H D) (n : Nat) (te : TimeEvent H D) (s : State H D)
    (hquiet : env.Quiet) (h : Sound s) (hte : s.loop.timeEvents[n]? = some te) :
    Below n s (removeTimer env (some (n + 1)) n te s) := by
  rcases removeTimer_cases env n te s hquiet h hte with
    ⟨s', ⟨a, b, hl, hn, rfl⟩, _, hdoes, hleaves, _⟩
  refine ⟨hdoes.sound, hleaves.kept.next, Nat.le_trans ?_ hleaves.kept.length,
    fun m x hm hx => hleaves.kept.old m x ?_⟩
  · rw [← hn]
    exact (List.sublist_append_left a b).length_le
  · rw [hl, List.getElem?_append_left (hn ▸ hm)] at hx
    exact (List.getElem?_append_left (hn ▸ hm)).trans hx

/-- A visit leaves the events before it, as they are or deleted. -/
theorem visit_below (env : Env H D) (n : Nat) (r r' : State H D × Nat) (hquiet : env.Quiet)
    (h : Sound r.1) (hvisit : Visit env n r r') : Below n r.1 r'.1 := by
  cases hvisit with
  | removed s k te hte hdel => exact removeTimer_below env n te s hquiet h hte
  | fired s k te hte hlive hdue =>
      have hfire := fireTimer_below env n te (aeGetTime env s).1 (aeGetTime env s).2
        ⟨h.files, h.times⟩ hte
      exact ⟨hfire.sound, hfire.next, hfire.length, hfire.below⟩
  | waiting s k te hte hlive hdue =>
      exact ⟨⟨h.files, h.times⟩, Int.le_refl _,
        Nat.le_of_lt (List.getElem?_eq_some_iff.mp hte).1, fun m x _ hx => Or.inl hx⟩

theorem visit_standing (env : Env H D) (maxId : Int) (hmax : aeDeletedEventId ≤ maxId) (n : Nat)
    (r r' : State H D × Nat) (hquiet : env.Quiet) (h : Standing maxId (n + 1) r.1)
    (hvisit : Visit env n r r') : Standing maxId n r'.1 := by
  have hbelow := visit_below env n r r' hquiet h.sound hvisit
  refine ⟨hbelow.sound, Int.lt_of_lt_of_le h.next hbelow.next, hbelow.length,
    fun m te hm hte => ?_⟩
  have hlt : m < r.1.loop.timeEvents.length :=
    Nat.lt_of_lt_of_le (Nat.lt_succ_of_lt hm) h.length
  have hget : r.1.loop.timeEvents[m]? = some (r.1.loop.timeEvents[m]) :=
    List.getElem?_eq_getElem hlt
  have hold := h.old m _ (Nat.lt_succ_of_lt hm) hget
  rcases hbelow.below m _ hm hget with hsame | hdel
  · rw [hsame, Option.some.injEq] at hte
    rw [← hte]
    exact hold
  · rw [hdel, Option.some.injEq] at hte
    rw [← hte]
    exact hmax

/-! ### The loop -/

/-- Where the loop has come from: the event before, or the head of the list. -/
def Place (n : Nat) (prev : Option Nat) (s : State H D) : Prop :=
  match prev with
  | none => s.loop.timeEvents.length = n
  | some p => p = n

/-- Either way the event is taken out, and no other. -/
theorem removeTimer_place (env : Env H D) (prev : Option Nat) (n : Nat) (te : TimeEvent H D)
    (s : State H D) (h : Place (n + 1) prev s) :
    removeTimer env prev n te s = removeTimer env (some (n + 1)) n te s := by
  cases prev with
  | none =>
      have hlen : s.loop.timeEvents.length = n + 1 := h
      unfold removeTimer
      simp only [List.drop_of_length_le (Nat.le_of_eq hlen)]
  | some p =>
      have hp : p = n + 1 := h
      rw [hp]

/-- What every visit keeps, the loop keeps. -/
theorem timeLoop_rule (env : Env H D) (hquiet : env.Quiet) (maxId : Int)
    (hmax : aeDeletedEventId ≤ maxId) (P : Nat → State H D × Nat → Prop)
    (hvisit : ∀ n r r', Standing maxId (n + 1) r.1 → P (n + 1) r → Visit env n r r' → P n r')
    (n : Nat) (prev : Option Nat) (r : State H D × Nat) (hs : Standing maxId n r.1)
    (hplace : Place n prev r.1) (h : P n r) :
    P 0 (timeLoop env maxId n prev r) ∧ Sound (timeLoop env maxId n prev r).1 := by
  induction n generalizing prev r with
  | zero => exact ⟨h, hs.sound⟩
  | succ n ih =>
      rcases r with ⟨s, k⟩
      have hn : n < s.loop.timeEvents.length := hs.length
      have hte : s.loop.timeEvents[n]? = some s.loop.timeEvents[n] := List.getElem?_eq_getElem hn
      have hnext : ∀ prev' r', Visit env n (s, k) r' → Place n prev' r'.1 →
          P 0 (timeLoop env maxId n prev' r') ∧ Sound (timeLoop env maxId n prev' r').1 :=
        fun prev' r' hv hp => ih prev' r'
          (visit_standing env maxId hmax n (s, k) r' hquiet hs hv) hp (hvisit n (s, k) r' hs h hv)
      unfold timeLoop
      simp only [hte]
      by_cases hdel : (s.loop.timeEvents[n]).id = aeDeletedEventId
      · rw [if_pos hdel, removeTimer_place env prev n _ s hplace]
        refine hnext _ _ (Visit.removed s k _ hte hdel) ?_
        cases prev with
        | some p => exact rfl
        | none =>
            have hlen : s.loop.timeEvents.length = n + 1 := hplace
            rcases removeTimer_cases env n _ s hquiet hs.sound hte with
              ⟨s', ⟨a, b, hl, _, rfl⟩, _, _, _, hlen'⟩
            refine hlen'.trans ?_
            rw [hl, List.length_append, List.length_cons] at hlen
            rw [List.length_append]
            omega
      · have hold := hs.old n _ (Nat.lt_succ_self n) hte
        rw [if_neg hdel, if_neg (Int.not_lt.mpr hold)]
        by_cases hdue : (s.loop.timeEvents[n]).due.reached (aeGetTime env s).1 = true
        · rw [if_pos hdue]
          exact hnext _ _ (Visit.fired s k _ hte hdel hdue) rfl
        · rw [if_neg hdue]
          exact hnext _ _ (Visit.waiting s k _ hte hdel hdue) rfl

/-! ### Following the agenda -/

theorem removeTimer_follows (env : Env H D) (n : Nat) (te : TimeEvent H D) (s : State H D)
    (hquiet : env.Quiet) (h : Sound s) (hte : s.loop.timeEvents[n]? = some te)
    (hdel : te.id = aeDeletedEventId) :
    Follows Agenda.Step State.log s (s.agenda none) (removeTimer env (some (n + 1)) n te s)
      ((removeTimer env (some (n + 1)) n te s).agenda none) := by
  rcases removeTimer_cases env n te s hquiet h hte with
    ⟨s', ⟨a, b, hl, _, rfl⟩, _, hdoes, _, _⟩
  refine follows_trans (follows_silent rfl ?_) (hdoes.follows none)
  unfold State.agenda
  rw [hl, lookup_remove a b te hdel]

theorem fireTimer_follows (env : Env H D) (n : Nat) (te : TimeEvent H D) (now : When)
    (s : State H D) (h : Sound s) (hte : s.loop.timeEvents[n]? = some te)
    (hlive : te.id ≠ aeDeletedEventId) (hdue : te.due.reached now = true) :
    Follows Agenda.Step State.log s (s.agenda none) (fireTimer env n te now s)
      ((fireTimer env n te now s).agenda none) := by
  rcases fireTimer_cases env n te now s hte with ⟨after, t, ht, hget, hafter, hcases⟩
  have hnote : Sound (s.note (.timeCalled te.id te.timeProc te.clientData now)) :=
    ⟨h.files, h.times⟩
  have hdoes := invoke_does env (.time te.timeProc te.id te.clientData) _ hnote
  have hleaves := invoke_leaves env (.time te.timeProc te.id te.clientData)
    (s.note (.timeCalled te.id te.timeProc te.clientData now))
  rw [← ht] at hdoes hleaves
  -- The handler runs while the event is being processed.
  have hcalled : Follows Agenda.Step State.log s (s.agenda none) t (t.agenda (some te.id)) := by
    refine follows_trans (follows_one (.timeCalled te.id te.timeProc te.clientData now) rfl ?_)
      (hdoes.follows (some te.id))
    exact Agenda.Step.timeCalled (s.agenda none) te.id te.entry now rfl
      (lookup_at h hte hlive) hdue
  rcases exists_split hget with ⟨a, b, hl, _, hset⟩
  have htimes := hdoes.sound.times
  rw [hl] at htimes
  -- If it has deleted the event, what is done to the event does not show.
  have hgone : after = te.deleted → lookup t.loop.timeEvents te.id = none := by
    intro heq
    rw [heq] at hget
    exact lookup_deleted hnote hleaves.kept hte hlive hget
  refine follows_trans hcalled ?_
  rcases hcases with ⟨due, _, _, heq⟩ | ⟨_, heq⟩
  · rw [heq]
    refine follows_one (.rescheduled te.id due) rfl ?_
    have hstep := Agenda.Step.rescheduled (t.agenda (some te.id)) te.id due rfl
    have hlookup : lookup (t.loop.timeEvents.set n (after.defer due)) =
        Function.update (lookup t.loop.timeEvents) te.id
          ((lookup t.loop.timeEvents te.id).map (·.defer due)) := by
      rw [hset]
      rcases hafter with rfl | hdel
      · rw [lookup_defer htimes, hl]
      · rw [lookup_defer htimes, ← hl, hgone hdel, hdel,
          show te.deleted.id = aeDeletedEventId from rfl, lookup_deletedEventId, Option.map_none,
          update_lookup_none _ _ (lookup_deletedEventId _), update_lookup_none _ _ (hgone hdel)]
    rw [show (t.agenda (some te.id)).timers = lookup t.loop.timeEvents from rfl, ← hlookup] at hstep
    exact hstep
  · rw [heq]
    refine follows_one (.finished te.id) rfl ?_
    have hstep := Agenda.Step.finished (t.agenda (some te.id)) te.id rfl
    have hlookup : lookup (t.loop.timeEvents.set n after.deleted) =
        Function.update (lookup t.loop.timeEvents) te.id none := by
      rw [hset]
      rcases hafter with rfl | hdel
      · rw [lookup_delete htimes, hl]
      · rw [lookup_delete htimes, ← hl, hdel, show te.deleted.id = aeDeletedEventId from rfl,
          update_lookup_none _ _ (lookup_deletedEventId _), update_lookup_none _ _ (hgone hdel)]
    rw [show (t.agenda (some te.id)).timers = lookup t.loop.timeEvents from rfl, ← hlookup] at hstep
    exact hstep

theorem visit_follows (env : Env H D) (n : Nat) (r r' : State H D × Nat) (hquiet : env.Quiet)
    (h : Sound r.1) (hvisit : Visit env n r r') :
    Follows Agenda.Step State.log r.1 (r.1.agenda none) r'.1 (r'.1.agenda none) := by
  cases hvisit with
  | removed s k te hte hdel => exact removeTimer_follows env n te s hquiet h hte hdel
  | fired s k te hte hlive hdue =>
      exact fireTimer_follows env n te _ (aeGetTime env s).2 ⟨h.files, h.times⟩ hte hlive hdue
  | waiting s k te hte hlive hdue => exact follows_silent rfl rfl

end Ae

end Wrk
