import Wrk.Ae.Runs
import Mathlib.Order.Monotone.Defs

/-!
# Once in Each Pass

A pass calls every time event that is due, and calls none twice. Handlers may
create and delete events while the pass goes on: an event that is created is
not called in the same pass, and one that is deleted before the pass comes to
it is not called either, which the record shows.

The pass goes through the list against the order of the identifiers, so that
the identifiers it calls go down.

## Main definitions

* `calledIds`: The time events called in a part of the record.
* `Visited`: What a visit records.
* `Swept`: The record when the loop stands somewhere.
* `Awaited`: A time event that a pass is to call.
* `PassRecord`: What a pass records.

## Theorems

* `reached_mono`: What is due stays due.
* `visit_visited`: What a visit records.
* `swept_visit`: A visit keeps the record in order.
* `processTimeEvents_record`: The record of a pass.
* `pass_once`: In every run, a pass calls what is due, and nothing twice.
-/

namespace Wrk

namespace Ae

open Refinement Transition

variable {H D : Type}

/-! ### Times -/

/-- A number of milliseconds as a time. -/
def timeOf (now : Nat) : When := ⟨(now / 1000 : Nat), (now % 1000 : Nat)⟩

theorem reached_iff (due now : When) :
    due.reached now = true ↔ due.sec < now.sec ∨ now.sec = due.sec ∧ due.ms ≤ now.ms := by
  simp only [When.reached, Bool.or_eq_true, Bool.and_eq_true, decide_eq_true_eq, gt_iff_lt, ge_iff_le]

/-- What is due stays due. -/
theorem reached_mono (due : When) {a b : Nat} (hab : a ≤ b) (h : due.reached (timeOf a) = true) :
    due.reached (timeOf b) = true := by
  rw [reached_iff] at h ⊢
  simp only [timeOf] at h ⊢
  omega

/-- An event that is made due is due, past the first second of the clock. -/
theorem reached_hasten (ms : Int) {now : Nat} (h : 1000 ≤ now) :
    (⟨0, ms⟩ : When).reached (timeOf now) = true := by
  rw [reached_iff]
  simp only [timeOf]
  omega

/-! ### The record of a visit -/

/-- The time events called in a part of the record. -/
def calledIds (ls : List (Label H D)) : List Int := ls.filterMap Label.called

theorem calledIds_append (as bs : List (Label H D)) :
    calledIds (as ++ bs) = calledIds as ++ calledIds bs := List.filterMap_append

theorem calledIds_of_none (ls : List (Label H D)) (h : ∀ l ∈ ls, l.called = none) :
    calledIds ls = [] := List.filterMap_eq_nil_iff.mpr h

/-- The events before an index are as they were, or deleted, and then the
    record says so. -/
def Shows (n : Nat) (s t : State H D) (new : List (Label H D)) : Prop :=
  ∀ (m : Nat) (te : TimeEvent H D), m < n → s.loop.timeEvents[m]? = some te →
    t.loop.timeEvents[m]? = some te ∨ t.loop.timeEvents[m]? = some te.deleted ∧
      (te.id = aeDeletedEventId ∨ Label.cancelled te.id ∈ new)

theorem shows_trans {n : Nat} {s t u : State H D} {as bs : List (Label H D)} (h1 : Shows n s t as)
    (h2 : Shows n t u bs) : Shows n s u (bs ++ as) := by
  intro m te hm hte
  rcases h1 m te hm hte with hsame | ⟨hdel, hwhy⟩
  · rcases h2 m te hm hsame with hsame' | ⟨hdel', hwhy'⟩
    · exact Or.inl hsame'
    · exact Or.inr ⟨hdel', hwhy'.imp_right (List.mem_append_left as)⟩
  · rcases h2 m te.deleted hm hdel with hsame' | ⟨hdel', _⟩
    · exact Or.inr ⟨hsame', hwhy.imp_right (List.mem_append_right bs)⟩
    · exact Or.inr ⟨hdel', hwhy.imp_right (List.mem_append_right bs)⟩

theorem shows_mono {n : Nat} {s t : State H D} {as : List (Label H D)} (h : Shows (n + 1) s t as) :
    Shows n s t as := fun m te hm hte => h m te (Nat.lt_succ_of_lt hm) hte

/-- Calls show what they delete. -/
theorem shows_of_leaves (n : Nat) {s t : State H D} (h : Leaves s t) :
    ∃ new, t.log = new ++ s.log ∧ calledIds new = [] ∧ Shows n s t new := by
  rcases h.recorded with ⟨new, hlog, hcalled, hdel⟩
  refine ⟨new, hlog, calledIds_of_none new hcalled, fun m te _ hte => ?_⟩
  rcases h.kept.old m te hte with hsame | hgone
  · exact Or.inl hsame
  · by_cases hlive : te.id = aeDeletedEventId
    · exact Or.inr ⟨hgone, Or.inl hlive⟩
    · exact Or.inr ⟨hgone, Or.inr (hdel m te hte hlive hgone)⟩

/-- What a visit to the event at an index records. -/
structure Visited (env : Env H D) (n : Nat) (te : TimeEvent H D) (r r' : State H D × Nat)
    (new : List (Label H D)) : Prop where
  log : r'.1.log = new ++ r.1.log
  clocks : r.1.clocks ≤ r'.1.clocks
  processed : r'.2 = r.2 + (calledIds new).length
  none_or_one : calledIds new = [] ∨ calledIds new = [te.id] ∧ te.id ≠ aeDeletedEventId
  due : te.id ≠ aeDeletedEventId → te.due.reached (aeGetTime env r.1).1 = true →
    calledIds new = [te.id]
  others : Shows n r.1 r'.1 new

theorem removeTimer_visited (env : Env H D) (n : Nat) (te : TimeEvent H D) (s : State H D) (k : Nat)
    (hquiet : env.Quiet) (h : Sound s) (hte : s.loop.timeEvents[n]? = some te)
    (hdel : te.id = aeDeletedEventId) :
    ∃ new, Visited env n te (s, k) (removeTimer env (some (n + 1)) n te s, k) new := by
  rcases removeTimer_cases env n te s hquiet h hte with
    ⟨s', ⟨a, b, hl, hn, rfl⟩, _, _, hleaves, _⟩
  rcases shows_of_leaves n hleaves with ⟨new, hlog, hcalled, hshows⟩
  refine ⟨new, hlog, hleaves.clocks, ?_, Or.inl hcalled, fun hlive => absurd hdel hlive,
    fun m x hm hx => hshows m x hm ?_⟩
  · rw [hcalled]
    rfl
  · rw [hl, List.getElem?_append_left (hn ▸ hm)] at hx
    exact (List.getElem?_append_left (hn ▸ hm)).trans hx

theorem fireTimer_visited (env : Env H D) (n : Nat) (te : TimeEvent H D) (s : State H D) (k : Nat)
    (hte : s.loop.timeEvents[n]? = some te) (hlive : te.id ≠ aeDeletedEventId) :
    ∃ new, Visited env n te (s, k)
      (fireTimer env n te (aeGetTime env s).1 (aeGetTime env s).2, k + 1) new := by
  rcases fireTimer_cases env n te (aeGetTime env s).1 (aeGetTime env s).2 hte with
    ⟨after, t, ht, _, _, hcases⟩
  have hleaves := invoke_leaves env (.time te.timeProc te.id te.clientData)
    ((aeGetTime env s).2.note
      (.timeCalled te.id te.timeProc te.clientData (aeGetTime env s).1))
  rw [← ht] at hleaves
  rcases shows_of_leaves n hleaves with ⟨new, hlog, hcalled, hshows⟩
  -- Whichever way it ends, one entry more is recorded, and the event changed.
  have hend : ∀ (l : Label H D) (u : State H D), l.called = none → u.log = l :: t.log →
      t.clocks ≤ u.clocks → (∃ x, u.loop.timeEvents = t.loop.timeEvents.set n x) →
      ∃ new, Visited env n te (s, k) (u, k + 1) new := by
    intro l u hl hulog huclocks hlist
    rcases hlist with ⟨x, hlist⟩
    have hids : calledIds (l :: (new ++ [.timeCalled te.id te.timeProc te.clientData
        (aeGetTime env s).1])) = [te.id] := by
      rw [← List.cons_append, calledIds_append, show l :: new = [l] ++ new from rfl,
        calledIds_append, hcalled, calledIds_of_none [l] (fun l' hl' => ?_)]
      · rfl
      · rw [List.mem_singleton.mp hl', hl]
    refine ⟨_, ?_, Nat.le_trans (Nat.le_trans (Nat.le_succ _) hleaves.clocks) huclocks, ?_,
      Or.inr ⟨hids, hlive⟩, fun _ _ => hids, fun m y hm hy => ?_⟩
    · rw [hulog, hlog]
      simp only [State.note, List.cons_append, List.append_assoc, List.nil_append]
      rfl
    · rw [hids]
      rfl
    · rw [hlist, List.getElem?_set_ne (Nat.ne_of_gt hm)]
      rcases hshows m y hm hy with hsame | ⟨hdel, hwhy⟩
      · exact Or.inl hsame
      · exact Or.inr ⟨hdel, hwhy.imp_right fun hmem =>
          List.mem_cons_of_mem _ (List.mem_append_left _ hmem)⟩
  rcases hcases with ⟨due, _, _, heq⟩ | ⟨_, heq⟩
  · rw [heq]
    exact hend (.rescheduled te.id due) _ rfl rfl (Nat.le_succ _) ⟨_, rfl⟩
  · rw [heq]
    exact hend (.finished te.id) _ rfl rfl (Nat.le_refl _) ⟨_, rfl⟩

theorem visit_visited (env : Env H D) (n : Nat) (r r' : State H D × Nat) (hquiet : env.Quiet)
    (h : Sound r.1) (hvisit : Visit env n r r') :
    ∃ te new, r.1.loop.timeEvents[n]? = some te ∧ Visited env n te r r' new := by
  cases hvisit with
  | removed s k te hte hdel =>
      rcases removeTimer_visited env n te s k hquiet h hte hdel with ⟨new, hnew⟩
      exact ⟨te, new, hte, hnew⟩
  | fired s k te hte hlive hdue =>
      rcases fireTimer_visited env n te s k hte hlive with ⟨new, hnew⟩
      exact ⟨te, new, hte, hnew⟩
  | waiting s k te hte hlive hdue =>
      exact ⟨te, [], hte, rfl, Nat.le_succ _, rfl, Or.inl rfl, fun _ hreached =>
        absurd hreached hdue, fun m x _ hx => Or.inl hx⟩

/-! ### The record of a pass -/

/-- The record when the loop has come to an index, since it started. -/
structure Swept (env : Env H D) (s : State H D) (n : Nat) (r : State H D × Nat)
    (new : List (Label H D)) : Prop where
  log : r.1.log = new ++ s.log
  length : n ≤ s.loop.timeEvents.length
  clocks : s.clocks ≤ r.1.clocks
  processed : r.2 = (calledIds new).length
  order : (calledIds new).Pairwise (· < ·)
  started : ∀ id ∈ calledIds new, ∃ (m : Nat) (te : TimeEvent H D), n ≤ m ∧
    s.loop.timeEvents[m]? = some te ∧ te.id = id ∧ te.id ≠ aeDeletedEventId
  shows : Shows n s r.1 new
  due : ∀ (m : Nat) (te : TimeEvent H D), n ≤ m → s.loop.timeEvents[m]? = some te →
    te.id ≠ aeDeletedEventId → te.due.reached (aeGetTime env s).1 = true →
      te.id ∈ calledIds new ∨ Label.cancelled te.id ∈ new

theorem swept_start (env : Env H D) (s : State H D) :
    Swept env s s.loop.timeEvents.length (s, 0) [] := by
  refine ⟨rfl, Nat.le_refl _, Nat.le_refl _, rfl, List.Pairwise.nil,
    fun id hid => absurd hid List.not_mem_nil, fun m te _ hte => Or.inl hte,
    fun m te hm hte => ?_⟩
  exact absurd hm (Nat.not_le.mpr (List.getElem?_eq_some_iff.mp hte).1)

/-- A visit keeps the record in order. -/
theorem swept_visit (env : Env H D) (s : State H D) (hs : Sound s)
    (hclock : ∀ k, s.clocks ≤ k → env.clock s.clocks ≤ env.clock k)
    (n : Nat) (r r' : State H D × Nat) (as bs : List (Label H D)) (te : TimeEvent H D)
    (h : Swept env s (n + 1) r as) (hte : r.1.loop.timeEvents[n]? = some te)
    (hvisit : Visited env n te r r' bs) : Swept env s n r' (bs ++ as) := by
  have hn : n < s.loop.timeEvents.length := h.length
  -- The event visited is the one that stood there, unless that has been deleted.
  have hget : s.loop.timeEvents[n]? = some s.loop.timeEvents[n] := List.getElem?_eq_getElem hn
  have hfrom : s.loop.timeEvents[n] = te ∨ te.id = aeDeletedEventId ∧
      ((s.loop.timeEvents[n]).id = aeDeletedEventId ∨
        Label.cancelled (s.loop.timeEvents[n]).id ∈ as) := by
    rcases h.shows n _ (Nat.lt_succ_self n) hget with hsame | ⟨hdel, hwhy⟩
    · exact Or.inl (Option.some.inj (hsame.symm.trans hte))
    · exact Or.inr ⟨(congrArg TimeEvent.id (Option.some.inj (hdel.symm.trans hte))).symm, hwhy⟩
  have hstood : te.id ≠ aeDeletedEventId → s.loop.timeEvents[n]? = some te := by
    intro hlive
    rcases hfrom with hsame | ⟨hdel, _⟩
    · rw [hget, hsame]
    · exact absurd hdel hlive
  refine ⟨?_, Nat.le_of_lt hn, Nat.le_trans h.clocks hvisit.clocks, ?_, ?_, fun id hid => ?_,
    shows_trans (shows_mono h.shows) hvisit.others, fun m x hm hx hlive hdue => ?_⟩
  · rw [hvisit.log, h.log, List.append_assoc]
  · rw [hvisit.processed, h.processed, calledIds_append, List.length_append, Nat.add_comm]
  · rw [calledIds_append]
    rcases hvisit.none_or_one with hnone | ⟨hone, hlive⟩
    · rw [hnone]
      exact h.order
    · rw [hone]
      refine List.pairwise_cons.mpr ⟨fun id hid => ?_, h.order⟩
      rcases h.started id hid with ⟨m, x, hm, hx, rfl, hxlive⟩
      rcases List.getElem?_eq_some_iff.mp hx with ⟨hmlt, rfl⟩
      rcases List.getElem?_eq_some_iff.mp (hstood hlive) with ⟨_, rfl⟩
      rcases List.pairwise_iff_getElem.mp hs.times.ordered n m hn hmlt hm with hdel | hdel | hlt
      · exact absurd hdel hlive
      · exact absurd hdel hxlive
      · exact hlt
  · rw [calledIds_append] at hid
    rcases List.mem_append.mp hid with hid | hid
    · rcases hvisit.none_or_one with hnone | ⟨hone, hlive⟩
      · rw [hnone] at hid
        exact absurd hid List.not_mem_nil
      · rw [hone] at hid
        exact ⟨n, te, Nat.le_refl n, hstood hlive, (List.mem_singleton.mp hid).symm, hlive⟩
    · rcases h.started id hid with ⟨m, x, hm, hx⟩
      exact ⟨m, x, Nat.le_of_succ_le hm, hx⟩
  · rw [calledIds_append]
    rcases Nat.eq_or_lt_of_le hm with heq | hlt
    · rw [← heq, hget, Option.some.injEq] at hx
      rcases hfrom with hsame | ⟨_, hdel | hcancelled⟩
      · have hreached : te.due.reached (aeGetTime env r.1).1 = true := by
          rw [← hsame, hx]
          exact reached_mono x.due (hclock _ h.clocks) hdue
        rw [hx] at hsame
        rw [hvisit.due (hsame ▸ hlive) hreached, hsame]
        exact Or.inl List.mem_cons_self
      · exact absurd (hx ▸ hdel) hlive
      · exact Or.inr (List.mem_append_right _ (hx ▸ hcancelled))
    · rcases h.due m x hlt hx hlive hdue with hcalled | hcancelled
      · exact Or.inl (List.mem_append_right _ hcalled)
      · exact Or.inr (List.mem_append_right _ hcancelled)

theorem passStart_clocks (env : Env H D) (s : State H D) : (passStart env s).clocks = s.clocks := by
  unfold passStart
  by_cases hback : env.time s.times < s.loop.lastTime
  · simp only [if_pos hback]
    rfl
  · simp only [if_neg hback]

/-- The record of a whole pass. -/
theorem timeLoop_swept (env : Env H D) (hquiet : env.Quiet) (s : State H D) (hs : Sound s)
    (hclock : ∀ k, s.clocks ≤ k → env.clock s.clocks ≤ env.clock k) :
    ∃ new, Swept env (passStart env s) 0 (processTimeEvents env s) new := by
  have hstart := (passStart_refines env s hs).1
  rw [← passStart_clocks env s] at hclock
  rw [processTimeEvents_eq]
  refine (timeLoop_rule env hquiet _ (passStart_maxId env s hs)
    (fun n r => ∃ new, Swept env (passStart env s) n r new) ?_ _ none (passStart env s, 0)
    (passStart_standing env s hs) rfl ⟨[], swept_start env _⟩).1
  rintro n r r' hstand ⟨as, has⟩ hvisit
  rcases visit_visited env n r r' hquiet hstand.sound hvisit with ⟨te, bs, hte, hbs⟩
  exact ⟨bs ++ as, swept_visit env _ hstart hclock n r r' as bs te has hte hbs⟩

/-- What a pass starts from. If the clock has been set back, every event is
    due. -/
theorem passStart_cases (env : Env H D) (s : State H D) :
    (¬env.time s.times < s.loop.lastTime ∧ (passStart env s).log = s.log ∧
        (passStart env s).loop.timeEvents = s.loop.timeEvents) ∨
      env.time s.times < s.loop.lastTime ∧ (passStart env s).log = .skewed :: s.log ∧
        (passStart env s).loop.timeEvents = s.loop.timeEvents.map TimeEvent.hasten := by
  unfold passStart
  by_cases hback : env.time s.times < s.loop.lastTime
  · refine Or.inr ⟨hback, ?_, ?_⟩
    · simp only [if_pos hback, skew, State.note]
    · simp only [if_pos hback, skew, State.note]
  · refine Or.inl ⟨hback, ?_, ?_⟩
    · simp only [if_neg hback]
    · simp only [if_neg hback]

/-- The events that are on the agenda are in the list. -/
theorem mem_of_lookup (l : List (TimeEvent H D)) (id : Int) (e : Entry H D)
    (h : lookup l id = some e) :
    ∃ te ∈ l, te.id = id ∧ te.id ≠ aeDeletedEventId ∧ te.entry = e := by
  unfold lookup at h
  by_cases hid : id = aeDeletedEventId
  · rw [if_pos hid] at h
    cases h
  · rw [if_neg hid] at h
    rcases Option.map_eq_some_iff.mp h with ⟨te, hfind, hentry⟩
    have hte : te.id = id := by
      have hfound := List.find?_some hfind
      exact of_decide_eq_true hfound
    exact ⟨te, List.mem_of_find?_eq_some hfind, hte, hte ▸ hid, hentry⟩

/-- A time event is to be called by a pass: it is due when the pass begins, or
    the clock has been set back. -/
def Awaited (env : Env H D) (s : State H D) (e : Entry H D) : Prop :=
  e.due.reached (aeGetTime env s).1 = true ∨ env.time s.times < s.loop.lastTime

theorem awaited_due (env : Env H D) (s : State H D) (te : TimeEvent H D)
    (hpast : 1000 ≤ env.clock s.clocks) (hte : te ∈ s.loop.timeEvents)
    (h : Awaited env s te.entry) :
    ∃ te' ∈ (passStart env s).loop.timeEvents, te'.id = te.id ∧
      te'.due.reached (aeGetTime env (passStart env s)).1 = true := by
  have htime : (aeGetTime env (passStart env s)).1 = timeOf (env.clock s.clocks) := by
    rw [← passStart_clocks env s]
    rfl
  rw [htime]
  rcases passStart_cases env s with ⟨hforth, _, hlist⟩ | ⟨_, _, hlist⟩
  · rw [hlist]
    exact ⟨te, hte, rfl, h.resolve_right hforth⟩
  · rw [hlist]
    exact ⟨te.hasten, List.mem_map_of_mem hte, rfl, reached_hasten te.due.ms hpast⟩

/-- What a pass over the time events records. -/
structure PassRecord (env : Env H D) (s : State H D) (r : State H D × Nat)
    (new : List (Label H D)) : Prop where
  log : r.1.log = new ++ s.log
  descending : (calledIds new.reverse).Pairwise (· > ·)
  processed : (calledIds new.reverse).length = r.2
  onAgenda : ∀ id ∈ calledIds new.reverse, ((s.agenda none).timers id).isSome = true
  awaited : ∀ id e, (s.agenda none).timers id = some e → Awaited env s e →
    id ∈ calledIds new.reverse ∨ Label.cancelled id ∈ new

theorem passStart_shows (env : Env H D) (s : State H D) :
    ∃ first, (passStart env s).log = first ++ s.log ∧ calledIds first = [] := by
  rcases passStart_cases env s with ⟨_, hlog, _⟩ | ⟨_, hlog, _⟩
  · exact ⟨[], hlog, rfl⟩
  · exact ⟨[.skewed], hlog, rfl⟩

theorem calledIds_reverse (ls : List (Label H D)) :
    calledIds ls.reverse = (calledIds ls).reverse := List.filterMap_reverse

theorem processTimeEvents_record (env : Env H D) (hquiet : env.Quiet) (s : State H D) (hs : Sound s)
    (hclock : ∀ k, s.clocks ≤ k → env.clock s.clocks ≤ env.clock k)
    (hpast : 1000 ≤ env.clock s.clocks) :
    ∃ new, PassRecord env s (processTimeEvents env s) new := by
  rcases timeLoop_swept env hquiet s hs hclock with ⟨new, hswept⟩
  rcases passStart_shows env s with ⟨first, hfirst, hnone⟩
  have hids : calledIds (new ++ first).reverse = (calledIds new).reverse := by
    rw [calledIds_reverse, calledIds_append, hnone, List.append_nil]
  refine ⟨new ++ first, ?_, ?_, ?_, fun id hid => ?_, fun id e he hawaited => ?_⟩
  · rw [hswept.log, hfirst, List.append_assoc]
  · rw [hids]
    exact List.pairwise_reverse.mpr hswept.order
  · rw [hids, List.length_reverse, hswept.processed]
  · rw [hids] at hid
    rcases hswept.started id (List.mem_reverse.mp hid) with ⟨m, te, _, hte, rfl, hlive⟩
    have hstart := lookup_at (passStart_refines env s hs).1 hte hlive
    rcases passStart_cases env s with ⟨_, _, hlist⟩ | ⟨_, _, hlist⟩
    · rw [hlist] at hstart
      exact Option.isSome_iff_exists.mpr ⟨_, hstart⟩
    · rw [hlist, lookup_hasten] at hstart
      rcases Option.map_eq_some_iff.mp hstart with ⟨e, he, _⟩
      exact Option.isSome_iff_exists.mpr ⟨e, he⟩
  · rcases mem_of_lookup _ id e he with ⟨te, hmem, rfl, hlive, rfl⟩
    rcases awaited_due env s te hpast hmem hawaited with ⟨te', hmem', hid, hdue⟩
    rcases List.getElem?_of_mem hmem' with ⟨m, hm⟩
    rw [hids, List.mem_reverse, ← hid]
    exact (hswept.due m te' (Nat.zero_le m) hm (hid ▸ hlive) hdue).imp_right
      (List.mem_append_left first)

/-- A pass calls each time event once at most, and all that are due, if
    finalizers create none and the clock is past its first second and shows no
    time before that at which the pass begins. It may have been set back
    before the pass. -/
theorem pass_once [DecidableEq H] (env : Env H D) (hquiet : env.Quiet) (setsize : Nat)
    (s : State H D) (h : Reaches (step env) (aeCreateEventLoop env setsize) s)
    (hclock : ∀ k, s.clocks ≤ k → env.clock s.clocks ≤ env.clock k)
    (hpast : 1000 ≤ env.clock s.clocks) :
    ∃ new, PassRecord env s (processTimeEvents env s) new :=
  processTimeEvents_record env hquiet s (reachable_refines env hquiet setsize s h).1 hclock hpast

theorem sample_pass_once :
    ∃ new, PassRecord sampleEnv (sampleRun.get rfl) (processTimeEvents sampleEnv (sampleRun.get rfl))
      new :=
  pass_once sampleEnv sample_quiet 10 _ (reaches_get _ _ _ rfl) (fun _ h => sample_clock h)
    (sample_past _)

end Ae

end Wrk
