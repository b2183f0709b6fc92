import Wrk.Connection.Calls

/-!
# Attempts that Fail

A connection whose attempt to connect fails keeps the number of the descriptor
that it had before. What it does next it does to that number. That has no
effect as long as nobody else holds the number by then: `epoll_ctl` refuses
what is not open, no loop has an entry for it, and closing it changes nothing.

An attempt takes several calls, and other threads run between them. How it
ends is known beforehand here, and the calls answer accordingly; in the end
the event loop has for a connection what its handlers have left it.

## Main definitions

* `Process.admits`: What a call may answer.
* `Process.ends`: The calls that end an attempt.
* `Process.apart`: No call acts on a descriptor that something else holds.
* `Stands`: Where a connection stands, and what it will have.
* `Settled`: All connections, as long as they stay apart.

## Theorems

* `call_settled`: A call keeps the connections settled.
* `mine_runProc`: The calls of a handler do not depend on whose they are.
* `begin_settled`: A handler that is called keeps them settled.
* `table_settled`: So does the rest of the process.
* `entry_view`: What an entry of a loop says of its connection.
-/

namespace Wrk

namespace Descriptor

variable {T C : Type}

/-! ### What the calls answer -/

/-- What a call may answer, with how the attempt under way will end. Only a
    number that is not open is refused. -/
def Process.admits (p : Setup T C) (s : Process T C) (result : ConnectResult) (c : C)
    (ok : Bool) : Task → Bool
  | .create fd _ _ => ok == (holder s.table fd).isSome
  | .createOwn => ok == (holder s.table (s.fd c)).isSome
  | .socket => ok || decide (result = .refused)
  | .connect _ => ok == decide (result ≠ .refused)
  | .register fd => (ok && decide (fd < p.setsize)) == decide (result = .ok)
  | _ => ok

/-- A call that ends an attempt. -/
def ends (p : Setup T C) (ok : Bool) : Task → Bool
  | .socket => !ok
  | .register fd => ok && decide (fd < p.setsize)
  | .closeNew _ => true
  | _ => false

/-- The next call of a thread acts on nothing that is held by another than its
    connection. -/
def Process.apart [DecidableEq C] (s : Process T C) (j : T) : Bool :=
  match s.work j with
  | [] => true
  | t :: _ =>
      match actsOn s t with
      | none => true
      | some (c, fd) =>
          decide (holder s.table fd = none) || decide (holder s.table fd = some (.conn c))

/-! ### Where a connection stands -/

/-- What the event loop has for a connection without a descriptor. -/
def closedView (n : Nat) : View := ⟨false, none, none, n⟩

/-- A connection holds a descriptor and no other. -/
def HoldsOnly (s : Process T C) (c : C) (f : Nat) : Prop :=
  ∀ g, holder s.table g = some (.conn c) ↔ g = f

def HoldsNone (s : Process T C) (c : C) : Prop := ∀ g, holder s.table g ≠ some (.conn c)

/-- The calls of a connection without a descriptor. -/
inductive Closing : List Task → Prop
  | follows (tasks : List Task) : (∀ g, Follows g tasks) → Closing tasks
  | close (rest : List Task) : (∀ g, Follows g rest) → Closing (.closeOwn :: .socket :: rest)
  | socket (rest : List Task) : (∀ g, Follows g rest) → Closing (.socket :: rest)

/-- The next call of an attempt on a descriptor, with how it will end. -/
inductive Attempting (result : ConnectResult) (f : Nat) : Task → Prop
  | connect : Attempting result f (.connect f)
  | register : result ≠ .refused → Attempting result f (.register f)
  | closeNew : result ≠ .ok → Attempting result f (.closeNew f)

/-- Where a connection stands, by the calls that are still to be made, and what
    the event loop has for it after them. So many attempts are over. -/
inductive Stands (p : Setup T C) (s : Process T C) (env : Env) (c : C) (n : Nat) (v : View) :
    List Task → Prop
  | registered (tasks : List Task) (r : Registration C) :
      HoldsOnly s c (s.fd c) → s.loop (p.thread c) (s.fd c) = some r → r.client = c →
        r.readable ≠ none → s.fd c < p.setsize → Follows (s.fd c) tasks →
          replies env ⟨true, r.readable, r.writable, n⟩ tasks = v → Stands p s env c n v tasks
  | deleted (rest : List Task) :
      HoldsOnly s c (s.fd c) → NoEntry s c → (∀ g, Follows g rest) →
        replies env (closedView n) (.socket :: rest) = v →
          Stands p s env c n v (.closeOwn :: .socket :: rest)
  | closed (tasks : List Task) :
      HoldsNone s c → NoEntry s c → Closing tasks → replies env (closedView n) tasks = v →
        Stands p s env c n v tasks
  | attempting (f : Nat) (t : Task) (rest : List Task) :
      HoldsOnly s c f → NoEntry s c → Attempting (env.connect n) f t → (∀ g, Follows g rest) →
        replies env (closedView n) (.socket :: rest) = v → Stands p s env c n v (t :: rest)

variable [DecidableEq C]

/-- Every connection stands somewhere. -/
structure Settled (p : Setup T C) (env : C → Env) (s : Process T C) (tried : C → Nat)
    (views : C → View) : Prop where
  stands : ∀ c, Stands p s (env c) c (tried c) (views c) (mine c (s.work (p.thread c)))
  loops : ∀ j f r, s.loop j f = some r → p.thread r.client = j ∧ s.fd r.client = f
  threads : ∀ j t, t ∈ s.work j → p.thread t.1 = j

omit [DecidableEq C] in
/-- A connection stands where it stood if what it holds is what it held, and
    registered as it was. -/
theorem stands_frame (p : Setup T C) (s s' : Process T C) (env : Env) (d : C) (n : Nat) (v : View)
    (tasks : List Task)
    (hheld : ∀ g, holder s.table g = some (.conn d) ↔ holder s'.table g = some (.conn d))
    (hfd : s'.fd d = s.fd d)
    (hloop : ∀ g, holder s.table g = some (.conn d) →
      s'.loop (p.thread d) g = s.loop (p.thread d) g)
    (hno : NoEntry s d → NoEntry s' d) (h : Stands p s env d n v tasks) :
    Stands p s' env d n v tasks := by
  have honly : ∀ f, HoldsOnly s d f → HoldsOnly s' d f :=
    fun f hf g => (hheld g).symm.trans (hf g)
  cases h with
  | registered _ r hf hr hclient hreadable hsmall hfollows hv =>
      refine .registered tasks r (hfd ▸ honly _ hf) ?_ hclient hreadable (hfd ▸ hsmall)
        (hfd ▸ hfollows) hv
      rw [hfd, hloop _ ((hf _).mpr rfl)]
      exact hr
  | deleted rest hf hentry hrest hv =>
      exact .deleted rest (hfd ▸ honly _ hf) (hno hentry) hrest hv
  | closed _ hnone hentry hclosing hv =>
      exact .closed tasks (fun g hg => hnone g ((hheld g).mpr hg)) (hno hentry) hclosing hv
  | attempting f t rest hf hentry ht hrest hv =>
      exact .attempting f t rest (honly f hf) (hno hentry) ht hrest hv

/-- What has an entry in a loop is held by its connection, which shows it. -/
theorem entry_view (p : Setup T C) (env : C → Env) (s : Process T C) (tried : C → Nat)
    (views : C → View) (h : Settled p env s tried views) (k : T) (f : Nat) (r : Registration C)
    (hr : s.loop k f = some r) :
    p.thread r.client = k ∧ s.fd r.client = f ∧ holder s.table f = some (.conn r.client) ∧
      (s.work k = [] → views r.client = ⟨true, r.readable, r.writable, tried r.client⟩) := by
  rcases h.loops k f r hr with ⟨hk, hf⟩
  have hstands := h.stands r.client
  refine ⟨hk, hf, ?_⟩
  generalize hmine : mine r.client (s.work (p.thread r.client)) = tasks at hstands
  cases hstands with
  | registered _ x hheld hx hclient _ _ _ hv =>
      have hsame : x = r := by
        rw [hk, hf] at hx
        exact Option.some.inj (hx.symm.trans hr)
      refine ⟨(hheld f).mpr hf.symm, fun hidle => ?_⟩
      rw [hk, hidle] at hmine
      rw [← hv, ← hmine, hsame]
      rfl
  | deleted _ _ hno _ _ => exact absurd rfl (hno k f r hr)
  | closed _ _ hno _ _ => exact absurd rfl (hno k f r hr)
  | attempting _ _ _ _ hno _ _ _ => exact absurd rfl (hno k f r hr)

/-- The connections stay settled if the one that is concerned does. -/
theorem settled_of_spares (p : Setup T C) (env : C → Env) (s s' : Process T C) (tried : C → Nat)
    (views views' : C → View) (c : C) (n : Nat) (h : Settled p env s tried views)
    (hspares : Spares p s s' c) (hviews : ∀ d, d ≠ c → views' d = views d)
    (hstands : Stands p s' (env c) c n (views' c) (mine c (s'.work (p.thread c))))
    (hclient : ∀ k g r, s'.loop k g = some r → r.client = c → p.thread c = k ∧ s'.fd c = g)
    (hthreads : ∀ k t, t ∈ s'.work k → p.thread t.1 = k) :
    Settled p env s' (Function.update tried c n) views' where
  stands d := by
    by_cases hd : d = c
    · rw [hd, Function.update_self]
      exact hstands
    · rw [Function.update_of_ne hd, hviews d hd, hspares.mine d hd]
      refine stands_frame p s s' (env d) d _ _ _ (fun g => hspares.held d g hd)
        (hspares.fd d hd) (fun g => hspares.loop d _ g hd) (fun hno k g r hr => ?_) (h.stands d)
      rcases hspares.entry k g r hr with hc | hold
      · rw [hc]
        exact fun h => hd h.symm
      · exact hno k g r hold
  loops k g r hr := by
    by_cases hd : r.client = c
    · rw [hd]
      exact hclient k g r hr hd
    · rcases hspares.entry k g r hr with hc | hold
      · exact absurd hc hd
      · rw [hspares.fd _ hd]
        exact h.loops k g r hold
  threads := hthreads

/-! ### One call -/

variable [DecidableEq T]

/-- An entry for the descriptor of a connection is replaced by another for the
    same connection, or removed. -/
theorem settled_setLoop (p : Setup T C) (env : C → Env) (s : Process T C) (tried : C → Nat)
    (views : C → View) (c : C) (t : Task) (rest : List (C × Task))
    (h : Settled p env s tried views) (hwork : s.work (p.thread c) = (c, t) :: rest)
    (hheld : HoldsOnly s c (s.fd c)) (r : Option (Registration C))
    (hr : ∀ x, r = some x → x.client = c)
    (hstands : Stands p
      ({ s with work := Function.update s.work (p.thread c) rest }.setLoop (p.thread c) (s.fd c) r)
      (env c) c (tried c) (views c) (mine c rest)) :
    Settled p env ({ s with work := Function.update s.work (p.thread c) rest }.setLoop
      (p.thread c) (s.fd c) r) tried views := by
  have hget := setLoop_loop { s with work := Function.update s.work (p.thread c) rest }
    (p.thread c)
  rw [← Function.update_eq_self c tried]
  refine settled_of_spares p env s _ tried views views c (tried c) h
    ⟨fun _ _ _ => Iff.rfl, fun _ _ => rfl, fun d k g hd hg => ?_, fun k g x hx => ?_,
      fun d hd => mine_update p s c t rest rest hwork (fun _ _ => rfl) d hd⟩
    (fun _ _ => rfl) ?_ (fun k g x hx hclient => ?_)
    (threads_update p s h.threads _ rest (rest_threads p s c t rest h.threads hwork))
  · rw [hget k, if_neg]
    -- The slot that is written is that of a descriptor of this connection.
    rintro ⟨_, rfl⟩
    rw [(hheld _).mpr rfl] at hg
    exact hd (Holder.conn.inj (Option.some.inj hg)).symm
  · rw [hget k] at hx
    split_ifs at hx with heq
    · exact Or.inl (hr x hx)
    · exact Or.inr hx
  · change Stands p _ _ c _ _ (mine c (Function.update s.work (p.thread c) rest (p.thread c)))
    rw [Function.update_self]
    exact hstands
  · rw [hget k] at hx
    split_ifs at hx with heq
    · exact ⟨heq.1.symm, heq.2.symm⟩
    · have hold := h.loops k g x hx
      rwa [hclient] at hold

/-- The other changes: of the work and the table, but not of the loops. -/
theorem settled_change (p : Setup T C) (env : C → Env) (s : Process T C) (tried : C → Nat)
    (views : C → View) (c : C) (t : Task) (rest new : List (C × Task))
    (table : List (Option (Holder C))) (n : Nat) (h : Settled p env s tried views)
    (hwork : s.work (p.thread c) = (c, t) :: rest) (hnew : ∀ d, d ≠ c → mine d new = mine d rest)
    (hthreads : ∀ u ∈ new, p.thread u.1 = p.thread c)
    (hheld : ∀ d g, d ≠ c →
      (holder s.table g = some (.conn d) ↔ holder table g = some (.conn d)))
    (hstands : Stands p
      { s with work := Function.update s.work (p.thread c) new, table := table } (env c) c n
      (views c) (mine c new)) :
    Settled p env { s with work := Function.update s.work (p.thread c) new, table := table }
      (Function.update tried c n) views := by
  refine settled_of_spares p env s _ tried views views c n h
    ⟨hheld, fun _ _ => rfl, fun _ _ _ _ _ => rfl, fun _ _ _ hr => Or.inr hr,
      fun d hd => mine_update p s c t rest new hwork hnew d hd⟩
    (fun _ _ => rfl) ?_ (fun k g r hr hclient => ?_)
    (threads_update p s h.threads _ new hthreads)
  · change Stands p _ _ c _ _ (mine c (Function.update s.work (p.thread c) new (p.thread c)))
    rw [Function.update_self]
    exact hstands
  · have hold := h.loops k g r hr
    rwa [hclient] at hold

/-- A call that is the last of what its connection does to the table. -/
theorem settled_rest (p : Setup T C) (env : C → Env) (s : Process T C) (tried : C → Nat)
    (views : C → View) (c : C) (t : Task) (rest : List (C × Task))
    (table : List (Option (Holder C))) (n : Nat) (h : Settled p env s tried views)
    (hwork : s.work (p.thread c) = (c, t) :: rest)
    (hheld : ∀ d g, d ≠ c →
      (holder s.table g = some (.conn d) ↔ holder table g = some (.conn d)))
    (hstands : Stands p
      { s with work := Function.update s.work (p.thread c) rest, table := table } (env c) c n
      (views c) (mine c rest)) :
    Settled p env { s with work := Function.update s.work (p.thread c) rest, table := table }
      (Function.update tried c n) views :=
  settled_change p env s tried views c t rest rest table n h hwork (fun _ _ => rfl)
    (rest_threads p s c t rest h.threads hwork) hheld hstands

/-- A call that is followed by another of the same attempt. -/
theorem settled_next (p : Setup T C) (env : C → Env) (s : Process T C) (tried : C → Nat)
    (views : C → View) (c : C) (t u : Task) (rest : List (C × Task))
    (table : List (Option (Holder C))) (n : Nat) (h : Settled p env s tried views)
    (hwork : s.work (p.thread c) = (c, t) :: rest)
    (hheld : ∀ d g, d ≠ c →
      (holder s.table g = some (.conn d) ↔ holder table g = some (.conn d)))
    (hstands : Stands p
      { s with work := Function.update s.work (p.thread c) ((c, u) :: rest), table := table }
      (env c) c n (views c) (u :: mine c rest)) :
    Settled p env
      { s with work := Function.update s.work (p.thread c) ((c, u) :: rest), table := table }
      (Function.update tried c n) views := by
  refine settled_change p env s tried views c t rest _ table n h hwork
    (fun d hd => mine_cons_other d c u rest (fun heq => hd heq.symm))
    (List.forall_mem_cons.mpr ⟨rfl, rest_threads p s c t rest h.threads hwork⟩) hheld ?_
  rw [mine_cons_self]
  exact hstands

/-- The last call of an attempt that succeeds. -/
theorem settled_register (p : Setup T C) (env : C → Env) (s : Process T C) (tried : C → Nat)
    (views : C → View) (c : C) (f n : Nat) (rest : List (C × Task))
    (h : Settled p env s tried views) (hwork : s.work (p.thread c) = (c, .register f) :: rest)
    (hheld : HoldsOnly s c f) (hno : NoEntry s c) (hfollows : Follows f (mine c rest))
    (hsmall : f < p.setsize) (r : Registration C) (hclient : r.client = c)
    (hreadable : r.readable ≠ none)
    (hv : replies (env c) ⟨true, r.readable, r.writable, n⟩ (mine c rest) = views c) :
    Settled p env { ({ s with work := Function.update s.work (p.thread c) rest }.setLoop
      (p.thread c) f (some r)) with fd := Function.update s.fd c f }
      (Function.update tried c n) views := by
  have hget := setLoop_loop { s with work := Function.update s.work (p.thread c) rest }
    (p.thread c)
  refine settled_of_spares p env s _ tried views views c n h
    ⟨fun _ _ _ => Iff.rfl, fun d hd => Function.update_of_ne hd _ _, fun d k g hd hg => ?_,
      fun k g x hx => ?_, fun d hd => mine_update p s c _ rest rest hwork (fun _ _ => rfl) d hd⟩
    (fun _ _ => rfl) ?_ (fun k g x hx hc => ?_)
    (threads_update p s h.threads _ rest (rest_threads p s c _ rest h.threads hwork))
  · refine (hget k f g _).trans (if_neg ?_)
    rintro ⟨_, rfl⟩
    rw [(hheld _).mpr rfl] at hg
    exact hd (Holder.conn.inj (Option.some.inj hg)).symm
  · have hx' := (hget k f g (some r)).symm.trans hx
    split_ifs at hx' with heq
    · rw [← Option.some.inj hx']
      exact Or.inl hclient
    · exact Or.inr hx'
  · -- The new descriptor is the connection's, and it is registered for reading.
    change Stands p _ _ c _ _ (mine c (Function.update s.work (p.thread c) rest (p.thread c)))
    have hfd : Function.update s.fd c f c = f := Function.update_self c f s.fd
    rw [Function.update_self]
    refine .registered _ r (fun g => ?_) ?_ hclient hreadable ?_ ?_ hv
    · change holder s.table g = some (.conn c) ↔ g = Function.update s.fd c f c
      rw [hfd]
      exact hheld g
    · change Process.loop _ (p.thread c) (Function.update s.fd c f c) = some r
      rw [hfd]
      exact (hget _ f f _).trans (if_pos ⟨rfl, rfl⟩)
    · change Function.update s.fd c f c < p.setsize
      rw [hfd]
      exact hsmall
    · change Follows (Function.update s.fd c f c) _
      rw [hfd]
      exact hfollows
  · have hx' := (hget k f g (some r)).symm.trans hx
    change p.thread c = k ∧ Function.update s.fd c f c = g
    rw [Function.update_self]
    split_ifs at hx' with heq
    · exact ⟨heq.1.symm, heq.2.symm⟩
    · exact absurd hc (hno k g x hx')

/-- `aeCreateFileEvent` on the descriptor of a registered connection. -/
theorem create_settled (p : Setup T C) (env : C → Env) (s : Process T C) (tried : C → Nat)
    (views : C → View) (c : C) (t : Task) (rest : List (C × Task))
    (h : Settled p env s tried views) (hwork : s.work (p.thread c) = (c, t) :: rest)
    (r : Registration C) (hheld : HoldsOnly s c (s.fd c))
    (hr : s.loop (p.thread c) (s.fd c) = some r) (hreadable : r.readable ≠ none)
    (hsmall : s.fd c < p.setsize) (hfollows : Follows (s.fd c) (mine c rest)) (rd : Bool)
    (proc : Proc)
    (hv : replies (env c) ⟨true, if rd then some proc else r.readable,
      if !rd then some proc else r.writable, tried c⟩ (mine c rest) = views c) :
    Settled p env ((createFileEvent p { s with work := Function.update s.work (p.thread c) rest }
      (p.thread c) (s.fd c) rd (!rd) proc c true).getD
        { s with work := Function.update s.work (p.thread c) rest }) tried views := by
  unfold createFileEvent
  rw [if_pos ⟨hsmall, rfl⟩, Option.getD_some]
  simp only [hr, Option.bind_some]
  refine settled_setLoop p env s tried views c t rest h hwork hheld _ (fun x hx => ?_)
    (.registered _ _ hheld ((setLoop_loop _ _ _ _ _ _).trans (if_pos ⟨rfl, rfl⟩)) rfl ?_ hsmall
      hfollows hv)
  · rw [← Option.some.inj hx]
  · -- The connection stays registered for reading, whichever event is created.
    cases rd
    · exact hreadable
    · exact Option.some_ne_none proc

/-- `aeDeleteFileEvent` for writing: the registration for reading remains. -/
theorem delete_settled (p : Setup T C) (env : C → Env) (s : Process T C) (tried : C → Nat)
    (views : C → View) (c : C) (t : Task) (rest : List (C × Task))
    (h : Settled p env s tried views) (hwork : s.work (p.thread c) = (c, t) :: rest)
    (r : Registration C) (hheld : HoldsOnly s c (s.fd c))
    (hr : s.loop (p.thread c) (s.fd c) = some r) (hclient : r.client = c)
    (hreadable : r.readable ≠ none) (hsmall : s.fd c < p.setsize)
    (hfollows : Follows (s.fd c) (mine c rest))
    (hv : replies (env c) ⟨true, r.readable, none, tried c⟩ (mine c rest) = views c) :
    Settled p env (deleteFileEvent p { s with work := Function.update s.work (p.thread c) rest }
      (p.thread c) (s.fd c) false true) tried views := by
  unfold deleteFileEvent
  rw [if_neg (Nat.not_le.mpr hsmall)]
  simp only [hr, Bool.false_eq_true, if_false, if_true, and_true, hreadable]
  refine settled_setLoop p env s tried views c t rest h hwork hheld _ (fun x hx => ?_)
    (.registered _ { r with writable := none } hheld ?_ hclient hreadable hsmall hfollows hv)
  · rw [← Option.some.inj hx]
    exact hclient
  · rw [setLoop_loop, if_pos ⟨rfl, rfl⟩]

/-- `aeDeleteFileEvent` in `reconnect_socket`: no entry for the connection is
    left, since there was none but this. -/
theorem deleteOwn_settled (p : Setup T C) (env : C → Env) (s : Process T C) (tried : C → Nat)
    (views : C → View) (c : C) (t : Task) (rest : List (C × Task)) (after : List Task)
    (h : Settled p env s tried views) (hwork : s.work (p.thread c) = (c, t) :: rest)
    (r : Registration C) (hheld : HoldsOnly s c (s.fd c))
    (hr : s.loop (p.thread c) (s.fd c) = some r) (hsmall : s.fd c < p.setsize)
    (hmine : mine c rest = .closeOwn :: .socket :: after) (hafter : ∀ g, Follows g after)
    (hv : replies (env c) (closedView (tried c)) (.socket :: after) = views c) :
    Settled p env (deleteFileEvent p { s with work := Function.update s.work (p.thread c) rest }
      (p.thread c) (s.fd c) true true) tried views := by
  unfold deleteFileEvent
  rw [if_neg (Nat.not_le.mpr hsmall)]
  simp only [hr, if_true, and_true]
  refine settled_setLoop p env s tried views c t rest h hwork hheld none
    (fun y hy => absurd hy.symm (Option.some_ne_none y)) ?_
  rw [hmine]
  refine .deleted after hheld (fun k g x hx hc => ?_) hafter hv
  rw [setLoop_loop] at hx
  split_ifs at hx with heq
  have hold := h.loops k g x hx
  rw [hc] at hold
  exact heq ⟨hold.1.symm, hold.2.symm⟩

omit [DecidableEq T] [DecidableEq C] in
/-- The calls that may follow whatever the descriptor is. -/
theorem follows_any (t : Task) (after : List Task) (h : ∀ g, Follows g (t :: after)) :
    (t = .createOwn ∧ ∀ g, Follows g after) ∨
      ∃ rest, t = .deleteOwn ∧ after = .closeOwn :: .socket :: rest ∧ ∀ g, Follows g rest := by
  cases h 0 with
  | create => cases h 1
  | delete => cases h 1
  | createOwn =>
      refine Or.inl ⟨rfl, fun g => ?_⟩
      cases h g with
      | createOwn _ _ hafter => exact hafter
  | reconnect _ rest hafter => exact Or.inr ⟨rest, rfl, rfl, hafter⟩

/-- A descriptor that is opened is held by its connection, which holds no
    other. Without one the attempt is over. -/
theorem socket_settled (p : Setup T C) (env : C → Env) (s : Process T C) (tried : C → Nat)
    (views : C → View) (c : C) (rest : List (C × Task)) (ok : Bool)
    (h : Settled p env s tried views) (hwork : s.work (p.thread c) = (c, .socket) :: rest)
    (hnone : HoldsNone s c) (hno : NoEntry s c) (hafter : ∀ g, Follows g (mine c rest))
    (hv : replies (env c) (closedView (tried c)) (.socket :: mine c rest) = views c)
    (hok : s.admits p ((env c).connect (tried c)) c ok .socket = true) :
    Settled p env (runTask p s (p.thread c) c rest ok .socket)
      (Function.update tried c (if ends p ok .socket then tried c + 1 else tried c)) views := by
  cases ok with
  | true =>
      refine settled_next p env s tried views c .socket _ rest _ (tried c) h hwork
        (fun d g hd => holder_openFd_other s.table (.conn c) (.conn d) g
          fun hc => hd (Holder.conn.inj hc).symm) ?_
      refine .attempting (lowest s.table) _ _ (fun g => ?_) hno .connect hafter hv
      rw [holder_openFd]
      by_cases hg : g = lowest s.table
      · rw [if_pos hg]
        exact ⟨fun _ => hg, fun _ => rfl⟩
      · rw [if_neg hg]
        exact ⟨fun hc => absurd hc (hnone g), fun hc => absurd hc hg⟩
  | false =>
      have hrefused : (env c).connect (tried c) = .refused := of_decide_eq_true hok
      refine settled_rest p env s tried views c .socket rest s.table (tried c + 1) h hwork
        (fun _ _ _ => Iff.rfl) (.closed _ hnone hno (.follows _ hafter) ?_)
      rw [← hv]
      simp only [replies, List.foldl_cons, answer, closedView, hrefused]

/-- The descriptor of an attempt that has failed is closed again. -/
theorem closeNew_settled (p : Setup T C) (env : C → Env) (s : Process T C) (tried : C → Nat)
    (views : C → View) (c : C) (f : Nat) (rest : List (C × Task))
    (h : Settled p env s tried views) (hwork : s.work (p.thread c) = (c, .closeNew f) :: rest)
    (hheld : HoldsOnly s c f) (hno : NoEntry s c) (hnotOk : (env c).connect (tried c) ≠ .ok)
    (hafter : ∀ g, Follows g (mine c rest))
    (hv : replies (env c) (closedView (tried c)) (.socket :: mine c rest) = views c) :
    Settled p env { s with
      work := Function.update s.work (p.thread c) rest, table := closeFd s.table f }
      (Function.update tried c (tried c + 1)) views := by
  refine settled_rest p env s tried views c _ rest _ (tried c + 1) h hwork (fun d g hd => ?_)
    (.closed _ (fun g hg => ?_) hno (.follows _ hafter) ?_)
  · refine holder_closeFd_other s.table f g (.conn d) fun hg => ?_
    rw [(hheld f).mpr rfl] at hg
    exact hd (Holder.conn.inj (Option.some.inj hg)).symm
  · change holder (closeFd s.table f) g = _ at hg
    rw [holder_closeFd] at hg
    split_ifs at hg with heq
    exact heq ((hheld g).mp hg)
  · rw [← hv]
    cases hc : (env c).connect (tried c) with
    | ok => exact absurd hc hnotOk
    | refused | unregistered =>
        simp only [replies, List.foldl_cons, answer, closedView, hc]

/-- What a connection without a descriptor does to its old number has no
    effect: the process and what the connection shows stay as they are. -/
theorem closing_settled (p : Setup T C) (env : C → Env) (s : Process T C) (tried : C → Nat)
    (views : C → View) (c : C) (t : Task) (rest : List (C × Task)) (ok : Bool)
    (h : Settled p env s tried views) (hwork : s.work (p.thread c) = (c, t) :: rest)
    (hnone : HoldsNone s c) (hno : NoEntry s c) (hclosing : Closing (t :: mine c rest))
    (hv : replies (env c) (closedView (tried c)) (t :: mine c rest) = views c)
    (hok : s.admits p ((env c).connect (tried c)) c ok t = true)
    (hfree : t ≠ .socket → holder s.table (s.fd c) = none) :
    Settled p env (runTask p s (p.thread c) c rest ok t)
      (Function.update tried c (if ends p ok t then tried c + 1 else tried c)) views := by
  -- Only the work changes.
  have hsame : ∀ table : List (Option (Holder C)), (∀ g, holder table g = holder s.table g) →
      Closing (mine c rest) → replies (env c) (closedView (tried c)) (mine c rest) = views c →
        Settled p env { s with work := Function.update s.work (p.thread c) rest, table := table }
          (Function.update tried c (tried c)) views := by
    intro table htable hclosing hv
    exact settled_rest p env s tried views c t rest table (tried c) h hwork
      (fun d g _ => by rw [htable])
      (.closed _ (fun g hg => hnone g (by rw [← htable]; exact hg)) hno hclosing hv)
  -- What nobody holds has no entry in any loop.
  have hentry : t ≠ .socket → ∀ k, s.loop k (s.fd c) = none := by
    intro ht k
    by_contra hsome
    rcases Option.ne_none_iff_exists'.mp hsome with ⟨r, hr⟩
    have hheld := (entry_view p env s tried views h k _ r hr).2.2.1
    rw [hfree ht] at hheld
    cases hheld
  generalize hmine : mine c rest = after at hclosing hv hsame
  cases hclosing with
  | follows _ hfollows =>
      rcases follows_any t after hfollows with ⟨rfl, hafter⟩ | ⟨rest', rfl, rfl, hafter⟩
      · -- `epoll_ctl` refuses a number that is not open.
        have hfalse : ok = false := by
          rw [Process.admits, hfree (fun heq => Task.noConfusion heq)] at hok
          exact eq_of_beq hok
        rw [runTask, hfalse]
        unfold createFileEvent
        rw [if_neg (fun hand => Bool.false_ne_true hand.2), Option.getD_none]
        exact hsame s.table (fun _ => rfl) (.follows _ hafter) hv
      · have hdelete : deleteFileEvent p
            { s with work := Function.update s.work (p.thread c) rest } (p.thread c) (s.fd c)
            true true = { s with work := Function.update s.work (p.thread c) rest } := by
          unfold deleteFileEvent
          simp only [hentry (fun heq => Task.noConfusion heq) (p.thread c), ite_self]
        rw [runTask, hdelete]
        exact hsame s.table (fun _ => rfl) (.close rest' hafter) hv
  | close rest' hafter =>
      refine hsame _ (fun g => ?_) (.socket rest' hafter) hv
      rw [holder_closeFd]
      by_cases hg : g = s.fd c
      · rw [if_pos hg, hg, hfree (fun heq => Task.noConfusion heq)]
      · rw [if_neg hg]
  | socket _ hafter =>
      exact socket_settled p env s tried views c rest ok h hwork hnone hno (hmine ▸ hafter)
        (hmine ▸ hv) hok

/-- An attempt that is under way goes on, or ends. -/
theorem attempting_settled (p : Setup T C) (env : C → Env) (s : Process T C) (tried : C → Nat)
    (views : C → View) (c : C) (f : Nat) (t : Task) (rest : List (C × Task)) (ok : Bool)
    (h : Settled p env s tried views) (hwork : s.work (p.thread c) = (c, t) :: rest)
    (hheld : HoldsOnly s c f) (hno : NoEntry s c)
    (ht : Attempting ((env c).connect (tried c)) f t) (hafter : ∀ g, Follows g (mine c rest))
    (hv : replies (env c) (closedView (tried c)) (.socket :: mine c rest) = views c)
    (hok : s.admits p ((env c).connect (tried c)) c ok t = true) :
    Settled p env (runTask p s (p.thread c) c rest ok t)
      (Function.update tried c (if ends p ok t then tried c + 1 else tried c)) views := by
  -- The attempt goes on with another call.
  have hgoes : ∀ u, Attempting ((env c).connect (tried c)) f u →
      Settled p env { s with work := Function.update s.work (p.thread c) ((c, u) :: rest) }
        (Function.update tried c (tried c)) views := fun u hu =>
    settled_next p env s tried views c t u rest s.table (tried c) h hwork (fun _ _ _ => Iff.rfl)
      (.attempting f u _ hheld hno hu hafter hv)
  cases ht with
  | connect =>
      have hresult : ok = decide ((env c).connect (tried c) ≠ .refused) := eq_of_beq hok
      cases ok with
      | true => exact hgoes (.register f) (.register (of_decide_eq_true hresult.symm))
      | false =>
          refine hgoes (.closeNew f) (.closeNew fun hc => ?_)
          rw [hc] at hresult
          exact absurd hresult (by decide)
  | register hno' =>
      have hresult : (ok && decide (f < p.setsize)) = decide ((env c).connect (tried c) = .ok) :=
        eq_of_beq hok
      -- The loop may be too small for the number, and then `epoll_ctl` is not asked.
      by_cases hregisters : (ok && decide (f < p.setsize)) = true
      · have hand := Bool.and_eq_true_iff.mp hregisters
        have hsmall : f < p.setsize := of_decide_eq_true hand.2
        have hcok : (env c).connect (tried c) = .ok :=
          of_decide_eq_true (hresult.symm.trans hregisters)
        rw [runTask, ends, if_pos hregisters]
        unfold createFileEvent
        rw [if_pos ⟨hsmall, hand.1⟩]
        refine settled_register p env s tried views c f (tried c + 1) rest h hwork hheld hno
          (hafter f) hsmall _ rfl (Option.some_ne_none _) ?_
        rw [← hv]
        simp only [replies, List.foldl_cons, answer, closedView, hcok, if_true]
      · have hfails : ¬ (f < p.setsize ∧ ok = true) := fun hand =>
          hregisters (Bool.and_eq_true_iff.mpr ⟨hand.2, decide_eq_true hand.1⟩)
        rw [runTask, ends, if_neg hregisters]
        unfold createFileEvent
        rw [if_neg hfails]
        refine hgoes (.closeNew f) (.closeNew fun hc => hregisters ?_)
        rw [hresult, hc]
        rfl
  -- The attempt has failed, and its descriptor is nobody's again.
  | closeNew hnotOk =>
      exact closeNew_settled p env s tried views c f rest h hwork hheld hno hnotOk hafter hv

omit [DecidableEq T] in
/-- What a connection without a descriptor acts on is held by nobody. -/
theorem apart_free (s : Process T C) (j : T) (c : C) (t : Task) (rest : List (C × Task))
    (hwork : s.work j = (c, t) :: rest) (hapart : s.apart j = true) (hnone : HoldsNone s c)
    (hclosing : Closing (t :: mine c rest)) (ht : t ≠ .socket) :
    holder s.table (s.fd c) = none := by
  have hacts : actsOn s (c, t) = some (c, s.fd c) := by
    generalize mine c rest = after at hclosing
    cases hclosing with
    | follows _ hfollows =>
        rcases follows_any t after hfollows with ⟨rfl, _⟩ | ⟨_, rfl, _, _⟩ <;> rfl
    | close => rfl
    | socket => exact absurd rfl ht
  unfold Process.apart at hapart
  simp only [hwork, hacts, Bool.or_eq_true, decide_eq_true_eq] at hapart
  exact hapart.resolve_right (hnone _)

omit [DecidableEq C] in
theorem createFileEvent_timers (p : Setup T C) (s s' : Process T C) (j : T) (fd : Nat)
    (r w : Bool) (proc : Proc) (c : C) (ok : Bool)
    (h : createFileEvent p s j fd r w proc c ok = some s') : s'.timers = s.timers := by
  unfold createFileEvent at h
  by_cases hok : fd < p.setsize ∧ ok = true
  · rw [if_pos hok] at h
    rw [← Option.some.inj h]
    rfl
  · rw [if_neg hok] at h
    cases h

omit [DecidableEq C] in
theorem deleteFileEvent_timers (p : Setup T C) (s : Process T C) (j : T) (fd : Nat) (r w : Bool) :
    (deleteFileEvent p s j fd r w).timers = s.timers := by
  unfold deleteFileEvent
  split
  · rfl
  · split <;> rfl

/-- No call of a thread concerns a timer. -/
theorem runTask_timers (p : Setup T C) (s : Process T C) (j : T) (c : C) (rest : List (C × Task))
    (ok : Bool) (t : Task) (d : C) : (runTask p s j c rest ok t).timers d = s.timers d := by
  have hcreate : ∀ (u : Process T C) fd r w proc,
      ((createFileEvent p u j fd r w proc c ok).getD u).timers = u.timers := by
    intro u fd r w proc
    cases hres : createFileEvent p u j fd r w proc c ok with
    | none => rfl
    | some u' => exact createFileEvent_timers p u u' j fd r w proc c ok hres
  cases t with
  | create fd r proc => exact congrFun (hcreate _ fd r (!r) proc) d
  | createOwn => exact congrFun (hcreate _ _ _ _ _) d
  | delete fd => exact congrFun (deleteFileEvent_timers p _ j fd false true) d
  | deleteOwn => exact congrFun (deleteFileEvent_timers p _ j _ true true) d
  | closeOwn | closeNew | connect => rfl
  | socket => cases ok <;> rfl
  | register fd =>
      rw [runTask]
      cases hres : createFileEvent p { s with work := Function.update s.work j rest } j fd true
          true .socketConnected c ok with
      | none => rfl
      | some u => exact congrFun (createFileEvent_timers p _ u j fd _ _ _ c ok hres) d

/-- A call keeps the connections settled, if it acts on nothing of another's.
    The cases are those of where its connection stands. -/
theorem call_settled (p : Setup T C) (env : C → Env) (s : Process T C) (tried : C → Nat)
    (views : C → View) (j : T) (c : C) (t : Task) (rest : List (C × Task)) (ok : Bool)
    (h : Settled p env s tried views) (hwork : s.work j = (c, t) :: rest)
    (hok : s.admits p ((env c).connect (tried c)) c ok t = true) (hapart : s.apart j = true) :
    Settled p env (runTask p s j c rest ok t)
      (Function.update tried c (if ends p ok t then tried c + 1 else tried c)) views := by
  have hj : p.thread c = j := h.threads j (c, t) (hwork ▸ List.mem_cons_self)
  subst hj
  have hstands := h.stands c
  rw [hwork, mine_cons_self] at hstands
  generalize hmine : mine c rest = after at hstands
  -- A call that does not end an attempt.
  have hgoes : ∀ s' : Process T C, Settled p env s' tried views → ends p ok t = false →
      Settled p env s' (Function.update tried c (if ends p ok t then tried c + 1 else tried c))
        views := by
    intro s' hs' hends
    rw [hends, if_neg Bool.false_ne_true, Function.update_eq_self]
    exact hs'
  cases hstands with
  | registered _ r hheld hr hclient hreadable hsmall hfollows hv =>
      have hopen : holder s.table (s.fd c) = some (.conn c) := (hheld _).mpr rfl
      cases hfollows with
      | create _ rd proc _ hfollows =>
          have htrue : ok = true := by
            rw [Process.admits, hopen] at hok
            exact eq_of_beq hok
          rw [htrue]
          refine htrue ▸ hgoes _ (create_settled p env s tried views c _ rest h hwork r hheld hr
            hreadable hsmall (hmine ▸ hfollows) rd proc ?_) rfl
          rw [hmine, ← hv]
          cases rd <;> rfl
      | createOwn _ _ hfollows =>
          have htrue : ok = true := by
            rw [Process.admits, hopen] at hok
            exact eq_of_beq hok
          rw [htrue]
          refine htrue ▸ hgoes _ (create_settled p env s tried views c _ rest h hwork r hheld hr
            hreadable hsmall (hmine ▸ hfollows) false .socketWriteable ?_) rfl
          rw [hmine, ← hv]
          rfl
      | delete _ _ hfollows =>
          refine hgoes _ (delete_settled p env s tried views c _ rest h hwork r hheld hr hclient
            hreadable hsmall (hmine ▸ hfollows) ?_) rfl
          rw [hmine, ← hv]
          rfl
      | reconnect _ after' hafter =>
          refine hgoes _ (deleteOwn_settled p env s tried views c _ rest after' h hwork r hheld hr
            hsmall hmine hafter ?_) rfl
          rw [← hv]
          rfl
  | deleted after' hheld hno hafter hv =>
      -- Another connection has another descriptor, which stays open.
      refine settled_change p env s tried views c _ rest rest _ (tried c) h hwork
        (fun _ _ => rfl) (rest_threads p s c _ rest h.threads hwork) (fun d g hd => ?_) ?_
      · refine holder_closeFd_other s.table (s.fd c) g (.conn d) fun hg => ?_
        rw [(hheld _).mpr rfl] at hg
        exact hd (Holder.conn.inj (Option.some.inj hg)).symm
      · rw [hmine]
        refine .closed _ (fun g hg => ?_) hno (.socket after' hafter) hv
        change holder (closeFd s.table (s.fd c)) g = _ at hg
        rw [holder_closeFd] at hg
        split_ifs at hg with heq
        exact heq ((hheld g).mp hg)
  | closed _ hnone hno hclosing hv =>
      exact closing_settled p env s tried views c t rest ok h hwork hnone hno (hmine ▸ hclosing)
        (hmine ▸ hv) hok (apart_free s _ c t rest hwork hapart hnone (hmine ▸ hclosing))
  | attempting f _ _ hheld hno ht hafter hv =>
      exact attempting_settled p env s tried views c f t rest ok h hwork hheld hno ht
        (hmine ▸ hafter) (hmine ▸ hv) hok

/-! ### The handlers -/

omit [DecidableEq T] in
theorem mine_responses (c : C) (responses : List Response) (error : Bool) :
    mine c (socketReadable c responses error) = mine () (socketReadable () responses error) := by
  have hreconnect : mine c (reconnectSocket c) = mine () (reconnectSocket ()) := by
    rw [mine_reconnect, mine_reconnect]
  have hresponse : ∀ r : Response, mine c (responseComplete c r) = mine () (responseComplete () r) := by
    intro r
    unfold responseComplete
    rw [mine_append, mine_append]
    congr 1
    · cases r.last
      · rfl
      · simp only [if_true, mine_cons_self]
        rfl
    · cases r.keep
      · exact hreconnect
      · rfl
  unfold socketReadable
  rw [mine_append, mine_append]
  congr 1
  · induction responses with
    | nil => rfl
    | cons r responses ih =>
        rw [List.flatMap_cons, List.flatMap_cons, mine_append, mine_append, hresponse, ih]
  · cases error
    · rfl
    · exact hreconnect

omit [DecidableEq T] in
/-- The calls of a handler do not depend on whose they are. -/
theorem mine_runProc (o : Outcome) (c : C) (f : Nat) (proc : Proc) :
    mine c (runProc o c f proc) = mine () (runProc o () f proc) := by
  cases proc with
  | socketConnected =>
      simp only [runProc]
      cases o.connect with
      | ok => simp only [socketConnected, mine_cons_self]; rfl
      | error => exact (mine_reconnect c).trans (mine_reconnect ()).symm
      | retry => rfl
  | socketWriteable =>
      simp only [runProc]
      cases o.write with
      | delayed | finished => simp only [socketWriteable, mine_cons_self]; rfl
      | error => exact (mine_reconnect c).trans (mine_reconnect ()).symm
      | retry | partly => rfl
  | socketReadable => exact mine_responses c o.responses o.error

/-- A thread that waited for events has work for one of its connections. -/
theorem begin_settled (p : Setup T C) (env : C → Env) (s : Process T C) (tried : C → Nat)
    (views : C → View) (c : C) (new : List (C × Task)) (timers : C → Nat) (v : View)
    (h : Settled p env s tried views) (hidle : s.work (p.thread c) = [])
    (hnew : ∀ t ∈ new, t.1 = c) (hfollows : Follows (s.fd c) (mine c new))
    (hclosing : NoEntry s c → ∀ g, Follows g (mine c new))
    (hv : replies (env c) (views c) (mine c new) = v) :
    Settled p env { s with work := Function.update s.work (p.thread c) new, timers := timers }
      tried (Function.update views c v) := by
  rw [← Function.update_eq_self c tried]
  refine settled_of_spares p env s _ tried views _ c (tried c) h
    ⟨fun _ _ _ => Iff.rfl, fun _ _ => rfl, fun _ _ _ _ _ => rfl, fun _ _ _ hr => Or.inr hr,
      fun d hd => ?_⟩ (fun d hd => Function.update_of_ne hd v views) ?_ (fun k g r hr hclient => ?_)
    (threads_update p s h.threads _ new fun u hu => congrArg p.thread (hnew u hu))
  · change mine d (Function.update s.work (p.thread c) new (p.thread d)) = _
    by_cases hk : p.thread d = p.thread c
    · rw [hk, Function.update_self, mine_of_client c d new hnew hd, hidle]
      rfl
    · rw [Function.update_of_ne hk]
  · have hstands := h.stands c
    rw [hidle] at hstands
    change Stands p _ _ c _ _ (mine c (Function.update s.work (p.thread c) new (p.thread c)))
    rw [Function.update_self, Function.update_self]
    -- Between events a connection is registered, or has no descriptor.
    generalize hviews : views c = shown at hstands hv
    cases hstands with
    | registered _ r hheld hr hclient hreadable hsmall _ hshown =>
        rw [← hshown] at hv
        exact .registered _ r hheld hr hclient hreadable hsmall hfollows hv
    | closed _ hnone hno _ hshown =>
        rw [← hshown] at hv
        exact .closed _ hnone hno (.follows _ (hclosing hno)) hv
  · have hold := h.loops k g r hr
    rwa [hclient] at hold

omit [DecidableEq T] in
/-- Something else in the process opens or closes a descriptor. -/
theorem table_settled (p : Setup T C) (env : C → Env) (s : Process T C) (tried : C → Nat)
    (views : C → View) (table : List (Option (Holder C))) (h : Settled p env s tried views)
    (hheld : ∀ g c, holder s.table g = some (.conn c) ↔ holder table g = some (.conn c)) :
    Settled p env { s with table := table } tried views where
  stands c := stands_frame p s _ (env c) c _ _ _ (fun g => hheld g c) rfl (fun _ _ => rfl) id
    (h.stands c)
  loops := h.loops
  threads := h.threads

end Descriptor

end Wrk
