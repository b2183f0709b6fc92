import Wrk.Ae.Agenda

/-!
# The List of Time Events

The list of `ae.c` against the agenda: which time event an identifier stands
for, and what deleting, deferring, removing and adding an event does to that.

Identifiers are given out in order and new events are put at one end of the
list, so that the events that are not deleted stand in the order of their
identifiers.

## Main definitions

* `lookup`: The time event with an identifier.
* `Timetable`: The identifiers of a list.
* `Kept`: What calls do to the list.

## Theorems

* `lookup_delete`, `lookup_defer`, `lookup_remove`, `lookup_hasten`,
  `lookup_schedule`: How the events change.
* `timetable_replace`, `timetable_remove`, `timetable_schedule`: The list
  stays a timetable.
* `timetable_unique`: An identifier stands at one place.
* `markDeleted_spec`: What `aeDeleteTimeEvent` finds.
-/

namespace Wrk

namespace Ae

variable {H D : Type}

/-- A time event, without its identifier and its finalizer. -/
def TimeEvent.entry (te : TimeEvent H D) : Entry H D := ⟨te.due, te.timeProc, te.clientData⟩

/-- The time event with an identifier. -/
def lookup (l : List (TimeEvent H D)) (id : Int) : Option (Entry H D) :=
  if id = aeDeletedEventId then none
  else (l.find? fun te => decide (te.id = id)).map TimeEvent.entry

/-- The identifiers of time events have been given out, in order, unless the
    event is deleted. -/
structure Timetable (next : Int) (l : List (TimeEvent H D)) : Prop where
  fresh : 0 ≤ next
  known : ∀ te ∈ l, te.id = aeDeletedEventId ∨ 0 ≤ te.id ∧ te.id < next
  ordered : l.Pairwise fun a b =>
    a.id = aeDeletedEventId ∨ b.id = aeDeletedEventId ∨ a.id < b.id

/-- A deleted time event. -/
def TimeEvent.deleted (te : TimeEvent H D) : TimeEvent H D := { te with id := aeDeletedEventId }

/-- A time event with another time. -/
def TimeEvent.defer (te : TimeEvent H D) (due : When) : TimeEvent H D := { te with due := due }

theorem lookup_deletedEventId (l : List (TimeEvent H D)) : lookup l aeDeletedEventId = none :=
  if_pos rfl

/-- Taking off what is not there. -/
theorem update_lookup_none (l : List (TimeEvent H D)) (id : Int) (h : lookup l id = none) :
    Function.update (lookup l) id none = lookup l := by
  rw [Function.update_eq_self_iff]
  exact h.symm

theorem lookup_of_forall_ne (l : List (TimeEvent H D)) (id : Int) (h : ∀ te ∈ l, te.id ≠ id) :
    lookup l id = none := by
  unfold lookup
  rw [List.find?_eq_none.mpr (fun te hte => by simpa only [decide_eq_true_eq] using h te hte)]
  exact ite_self none

theorem lookup_append (l k : List (TimeEvent H D)) (id : Int) :
    lookup (l ++ k) id = (lookup l id).or (lookup k id) := by
  unfold lookup
  by_cases hid : id = aeDeletedEventId
  · simp only [if_pos hid, Option.or_none]
  · simp only [if_neg hid, List.find?_append, Option.map_or]

theorem lookup_cons (te : TimeEvent H D) (l : List (TimeEvent H D)) (id : Int) :
    lookup (te :: l) id =
      if te.id = id ∧ id ≠ aeDeletedEventId then some te.entry else lookup l id := by
  unfold lookup
  by_cases hid : id = aeDeletedEventId
  · rw [if_pos hid, if_pos hid, if_neg (fun h => h.2 hid)]
  · rw [if_neg hid, if_neg hid, List.find?_cons]
    by_cases hte : te.id = id
    · rw [if_pos ⟨hte, hid⟩, decide_eq_true hte]
      rfl
    · rw [if_neg (fun h => hte h.1), decide_eq_false hte]

/-- Where nothing but one event differs, and no other has its identifier. -/
theorem timetable_other {next : Int} {a b : List (TimeEvent H D)} {te : TimeEvent H D}
    (h : Timetable next (a ++ te :: b)) (hte : te.id ≠ aeDeletedEventId) :
    (∀ x ∈ a, x.id ≠ te.id) ∧ ∀ x ∈ b, x.id ≠ te.id := by
  rcases List.pairwise_append.mp h.ordered with ⟨_, hb, hab⟩
  refine ⟨fun x hx heq => ?_, fun x hx heq => ?_⟩
  · rcases hab x hx te List.mem_cons_self with hdel | hdel | hlt
    · exact hte (heq ▸ hdel)
    · exact hte hdel
    · exact absurd heq (ne_of_lt hlt)
  · rcases (List.pairwise_cons.mp hb).1 x hx with hdel | hdel | hlt
    · exact hte hdel
    · exact hte (heq ▸ hdel)
    · exact absurd heq (ne_of_gt hlt)

/-- One event is put in the place of another that is on the agenda. -/
theorem lookup_replace {next : Int} {a b : List (TimeEvent H D)} {te te' : TimeEvent H D}
    (h : Timetable next (a ++ te :: b)) (hte : te.id ≠ aeDeletedEventId)
    (hid : te'.id = te.id ∨ te'.id = aeDeletedEventId) :
    lookup (a ++ te' :: b) =
      Function.update (lookup (a ++ te :: b)) te.id
        (if te'.id = te.id then some te'.entry else none) := by
  rcases timetable_other h hte with ⟨ha, hb⟩
  funext id
  by_cases heq : id = te.id
  · rw [heq, Function.update_self, lookup_append, lookup_of_forall_ne a te.id ha, Option.none_or,
      lookup_cons, lookup_of_forall_ne b te.id hb]
    by_cases hid' : te'.id = te.id
    · rw [if_pos ⟨hid', hte⟩, if_pos hid']
    · rw [if_neg (fun h => hid' h.1), if_neg hid']
  · have hne' : ¬(te'.id = id ∧ id ≠ aeDeletedEventId) := by
      rintro ⟨rfl, hdel⟩
      exact hid.elim heq hdel
    rw [Function.update_of_ne heq, lookup_append, lookup_append, lookup_cons, lookup_cons,
      if_neg hne', if_neg (fun h => heq h.1.symm)]

/-- An event is deleted. -/
theorem lookup_delete {next : Int} {a b : List (TimeEvent H D)} {te : TimeEvent H D}
    (h : Timetable next (a ++ te :: b)) :
    lookup (a ++ te.deleted :: b) = Function.update (lookup (a ++ te :: b)) te.id none := by
  by_cases hte : te.id = aeDeletedEventId
  · have hsame : te.deleted = te := by
      unfold TimeEvent.deleted
      rw [← hte]
    rw [hsame, hte, Function.eq_update_iff]
    exact ⟨lookup_deletedEventId _, fun _ _ => rfl⟩
  · rw [lookup_replace h hte (Or.inr rfl), if_neg (fun heq => hte heq.symm)]

/-- An event is given another time. -/
theorem lookup_defer {next : Int} {a b : List (TimeEvent H D)} {te : TimeEvent H D}
    (h : Timetable next (a ++ te :: b)) (due : When) :
    lookup (a ++ te.defer due :: b) =
      Function.update (lookup (a ++ te :: b)) te.id
        ((lookup (a ++ te :: b) te.id).map (·.defer due)) := by
  by_cases hte : te.id = aeDeletedEventId
  · rw [Function.eq_update_iff]
    refine ⟨?_, fun id hid => ?_⟩
    · rw [hte, lookup_deletedEventId, lookup_deletedEventId, Option.map_none]
    · have hne : ¬(te.id = id ∧ id ≠ aeDeletedEventId) := fun h => hid h.1.symm
      rw [lookup_append, lookup_append, lookup_cons, lookup_cons, if_neg hne]
      exact congrArg _ (if_neg hne)
  · have hself : lookup (a ++ te :: b) te.id = some te.entry := by
      rw [lookup_append, lookup_of_forall_ne a te.id (timetable_other h hte).1, Option.none_or,
        lookup_cons, if_pos ⟨rfl, hte⟩]
    have hid : (te.defer due).id = te.id := rfl
    rw [lookup_replace h hte (Or.inl hid), if_pos hid, hself]
    rfl

/-- A deleted event is removed. -/
theorem lookup_remove (a b : List (TimeEvent H D)) (te : TimeEvent H D)
    (hte : te.id = aeDeletedEventId) : lookup (a ++ b) = lookup (a ++ te :: b) := by
  funext id
  rw [lookup_append, lookup_append, lookup_cons,
    if_neg (fun h => h.2 (h.1.symm.trans hte))]

/-- Every event is made due. -/
theorem lookup_hasten (l : List (TimeEvent H D)) (id : Int) :
    lookup (l.map TimeEvent.hasten) id =
      (lookup l id).map fun e => e.defer ⟨0, e.due.ms⟩ := by
  induction l with
  | nil =>
      unfold lookup
      rw [List.map_nil, List.find?_nil, Option.map_none, ite_self, Option.map_none]
  | cons te l ih =>
      rw [List.map_cons, lookup_cons, lookup_cons, ih, show te.hasten.id = te.id from rfl]
      by_cases hte : te.id = id ∧ id ≠ aeDeletedEventId
      · rw [if_pos hte, if_pos hte]
        rfl
      · rw [if_neg hte, if_neg hte]

/-- A new event is put at the end. -/
theorem lookup_schedule {next : Int} {l : List (TimeEvent H D)} (h : Timetable next l)
    (te : TimeEvent H D) (hte : te.id = next) :
    lookup (l ++ [te]) = Function.update (lookup l) next (some te.entry) := by
  have hnext : next ≠ aeDeletedEventId := by
    have hfresh := h.fresh
    unfold aeDeletedEventId
    omega
  have hother : ∀ x ∈ l, x.id ≠ next := by
    intro x hx heq
    rcases h.known x hx with hdel | ⟨_, hlt⟩
    · exact hnext (heq ▸ hdel)
    · exact absurd heq (ne_of_lt hlt)
  funext id
  rw [lookup_append, lookup_cons]
  by_cases hid : id = next
  · rw [hid, Function.update_self, lookup_of_forall_ne l next hother, if_pos ⟨hte, hnext⟩,
      Option.none_or]
  · rw [Function.update_of_ne hid, if_neg (fun h => hid (h.1.symm.trans hte))]
    unfold lookup
    rw [List.find?_nil, Option.map_none, ite_self, Option.or_none]

/-! ### Timetables -/

/-- An event keeps its identifier, or is deleted. -/
theorem timetable_replace {next : Int} {a b : List (TimeEvent H D)} {te te' : TimeEvent H D}
    (h : Timetable next (a ++ te :: b)) (hid : te'.id = te.id ∨ te'.id = aeDeletedEventId) :
    Timetable next (a ++ te' :: b) := by
  rcases List.pairwise_append.mp h.ordered with ⟨ha, hb, hab⟩
  rcases List.pairwise_cons.mp hb with ⟨hte, hb'⟩
  refine ⟨h.fresh, fun x hx => ?_, List.pairwise_append.mpr
    ⟨ha, List.pairwise_cons.mpr ⟨fun x hx => ?_, hb'⟩, fun x hx y hy => ?_⟩⟩
  · rcases List.mem_append.mp hx with hx | hx
    · exact h.known x (List.mem_append_left _ hx)
    · rcases List.mem_cons.mp hx with rfl | hx
      · rcases hid with hid | hid
        · rw [hid]
          exact h.known te (List.mem_append_right _ List.mem_cons_self)
        · exact Or.inl hid
      · exact h.known x (List.mem_append_right _ (List.mem_cons_of_mem _ hx))
  · rcases hid with hid | hid
    · rw [hid]
      exact hte x hx
    · exact Or.inl hid
  · rcases List.mem_cons.mp hy with rfl | hy
    · rcases hid with hid | hid
      · rw [hid]
        exact hab x hx te List.mem_cons_self
      · exact Or.inr (Or.inl hid)
    · exact hab x hx y (List.mem_cons_of_mem _ hy)

theorem timetable_remove {next : Int} {a b : List (TimeEvent H D)} {te : TimeEvent H D}
    (h : Timetable next (a ++ te :: b)) : Timetable next (a ++ b) := by
  have hsub : List.Sublist (a ++ b) (a ++ te :: b) :=
    List.Sublist.append_left (List.sublist_cons_self te b) a
  exact ⟨h.fresh, fun x hx => h.known x (hsub.subset hx), h.ordered.sublist hsub⟩

theorem timetable_hasten {next : Int} {l : List (TimeEvent H D)} (h : Timetable next l) :
    Timetable next (l.map TimeEvent.hasten) := by
  refine ⟨h.fresh, fun x hx => ?_, List.pairwise_map.mpr h.ordered⟩
  rcases List.mem_map.mp hx with ⟨te, hte, rfl⟩
  exact h.known te hte

theorem timetable_schedule {next : Int} {l : List (TimeEvent H D)} (h : Timetable next l)
    (te : TimeEvent H D) (hte : te.id = next) : Timetable (next + 1) (l ++ [te]) := by
  have hfresh := h.fresh
  refine ⟨by omega, fun x hx => ?_, List.pairwise_append.mpr
    ⟨h.ordered, List.pairwise_singleton _ te, fun x hx y hy => ?_⟩⟩
  · rcases List.mem_append.mp hx with hx | hx
    · rcases h.known x hx with hdel | ⟨hnonneg, hlt⟩
      · exact Or.inl hdel
      · exact Or.inr ⟨hnonneg, by omega⟩
    · rw [List.mem_singleton.mp hx, hte]
      exact Or.inr ⟨hfresh, by omega⟩
  · rw [List.mem_singleton.mp hy, hte]
    rcases h.known x hx with hdel | ⟨_, hlt⟩
    · exact Or.inl hdel
    · exact Or.inr (Or.inr hlt)

/-- Two events with one identifier are one. -/
theorem timetable_unique {next : Int} {l : List (TimeEvent H D)} (h : Timetable next l) {m n : Nat}
    {x y : TimeEvent H D} (hx : l[m]? = some x) (hy : l[n]? = some y) (hid : x.id = y.id)
    (hlive : x.id ≠ aeDeletedEventId) : m = n := by
  rcases List.getElem?_eq_some_iff.mp hx with ⟨hm, rfl⟩
  rcases List.getElem?_eq_some_iff.mp hy with ⟨hn, rfl⟩
  have hpair := List.pairwise_iff_getElem.mp h.ordered
  rcases Nat.lt_trichotomy m n with hlt | heq | hlt
  · rcases hpair m n hm hn hlt with hdel | hdel | hless
    · exact absurd hdel hlive
    · exact absurd (hid.trans hdel) hlive
    · exact absurd hid (ne_of_lt hless)
  · exact heq
  · rcases hpair n m hn hm hlt with hdel | hdel | hless
    · exact absurd (hid.trans hdel) hlive
    · exact absurd hdel hlive
    · exact absurd hid.symm (ne_of_lt hless)

/-- What `aeDeleteTimeEvent` finds. -/
theorem markDeleted_spec (id : Int) (l found : List (TimeEvent H D))
    (h : markDeleted id l = some found) :
    ∃ a te b, l = a ++ te :: b ∧ te.id = id ∧ found = a ++ te.deleted :: b := by
  induction l generalizing found with
  | nil => cases h
  | cons te l ih =>
      unfold markDeleted at h
      by_cases hte : te.id = id
      · rw [if_pos hte, Option.some.injEq] at h
        exact ⟨[], te, l, rfl, hte, h.symm⟩
      · rw [if_neg hte] at h
        rcases Option.map_eq_some_iff.mp h with ⟨rest, hrest, rfl⟩
        rcases ih rest hrest with ⟨a, te', b, rfl, hid, rfl⟩
        exact ⟨te :: a, te', b, rfl, hid, rfl⟩

/-! ### What calls do -/

/-- What calls do to the list of time events: events are deleted where they
    stand, and new ones are put at the end. -/
structure Kept (l l' : EventLoop H D) : Prop where
  next : l.timeEventNextId ≤ l'.timeEventNextId
  old : ∀ (n : Nat) (te : TimeEvent H D), l.timeEvents[n]? = some te →
    l'.timeEvents[n]? = some te ∨ l'.timeEvents[n]? = some te.deleted
  new : ∀ (n : Nat) (te : TimeEvent H D), l'.timeEvents[n]? = some te → te.id ≠ aeDeletedEventId →
    l.timeEvents[n]? = some te ∨ l.timeEventNextId ≤ te.id
  length : l.timeEvents.length ≤ l'.timeEvents.length

theorem kept_of_eq {l l' : EventLoop H D} (h : l'.timeEvents = l.timeEvents)
    (hnext : l'.timeEventNextId = l.timeEventNextId) : Kept l l' :=
  ⟨le_of_eq hnext.symm, fun _ _ hte => Or.inl (h ▸ hte), fun _ _ hte _ => Or.inl (h ▸ hte),
    le_of_eq (congrArg List.length h).symm⟩

/-- One event is deleted. -/
theorem kept_delete {l l' : EventLoop H D} {a b : List (TimeEvent H D)} {te : TimeEvent H D}
    (hl : l.timeEvents = a ++ te :: b) (hl' : l'.timeEvents = a ++ te.deleted :: b)
    (hnext : l'.timeEventNextId = l.timeEventNextId) : Kept l l' := by
  have hset : l'.timeEvents = l.timeEvents.set a.length te.deleted := by
    rw [hl, hl', List.set_append_right _ _ (Nat.le_refl _), Nat.sub_self, List.set_cons_zero]
  have hte : l.timeEvents[a.length]? = some te := by
    rw [hl, List.getElem?_append_right (Nat.le_refl _), Nat.sub_self, List.getElem?_cons_zero]
  have hlt : a.length < l.timeEvents.length := (List.getElem?_eq_some_iff.mp hte).1
  refine ⟨le_of_eq hnext.symm, fun n x hx => ?_, fun n x hx hlive => ?_, ?_⟩
  · rw [hset, List.getElem?_set]
    by_cases hn : a.length = n
    · rw [← hn, hte, Option.some.injEq] at hx
      rw [if_pos hn, if_pos hlt, ← hx]
      exact Or.inr rfl
    · rw [if_neg hn]
      exact Or.inl hx
  · rw [hset, List.getElem?_set] at hx
    by_cases hn : a.length = n
    · rw [if_pos hn, if_pos hlt, Option.some.injEq] at hx
      exact absurd (congrArg TimeEvent.id hx).symm hlive
    · rw [if_neg hn] at hx
      exact Or.inl hx
  · rw [hset, List.length_set]

theorem kept_trans {l m r : EventLoop H D} (h1 : Kept l m) (h2 : Kept m r) : Kept l r := by
  refine ⟨Int.le_trans h1.next h2.next, fun n te hte => ?_, fun n te hte hlive => ?_,
    Nat.le_trans h1.length h2.length⟩
  · rcases h1.old n te hte with hsame | hdel
    · exact h2.old n te hsame
    · rcases h2.old n te.deleted hdel with hsame | hdel'
      · exact Or.inr hsame
      · exact Or.inr hdel'
  · rcases h2.new n te hte hlive with hold | hnew
    · exact h1.new n te hold hlive
    · exact Or.inr (Int.le_trans h1.next hnew)

end Ae

end Wrk
