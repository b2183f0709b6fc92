import Wrk.Connection.Writer

/-!
# Framing on the Wire

Without a `delay` function no timer ever exists, so that `socket_writeable`
runs only on an established connection, whose `written` was cleared when it
was established. What a descriptor accepts is then whole batches and the
beginning of one more, in every run.

The invariant says more of the descriptor in use: after the whole batches
stand exactly the first `written` bytes of the request being written. A
response that completes in the middle of a batch leaves both alone, and the
request text is replaced only while `written` is zero.

## Main definitions

* `Batch`: The static request, or a result of `request()`.
* `Framed`: Whole batches followed by the beginning of one.
* `Framing`: The invariant.

## Theorems

* `framing_move`: Every move keeps it.
* `wire_framed`: Every descriptor of every run is framed.
-/

namespace Wrk

open HttpParser

/-- The texts that are written: the static request, or what the script
    returns. -/
def Batch (cfg : Config) (env : Env) (text : Bytes) : Prop :=
  if cfg.dynamic then ∃ i, text = env.request i else text = cfg.request

/-- Whole batches. -/
def Whole (cfg : Config) (env : Env) (sent : Bytes) : Prop :=
  ∃ batches : List Bytes, (∀ text ∈ batches, Batch cfg env text) ∧ sent = batches.flatten

/-- Whole batches followed by the beginning of one. -/
def Framed (cfg : Config) (env : Env) (sent : Bytes) : Prop :=
  ∃ whole text n, Whole cfg env whole ∧ Batch cfg env text ∧ sent = whole ++ text.take n

theorem whole_nil (cfg : Config) (env : Env) : Whole cfg env [] :=
  ⟨[], fun _ h => absurd h List.not_mem_nil, rfl⟩

theorem whole_append (cfg : Config) (env : Env) (sent text : Bytes) (hs : Whole cfg env sent)
    (ht : Batch cfg env text) : Whole cfg env (sent ++ text) := by
  rcases hs with ⟨batches, hb, rfl⟩
  refine ⟨batches ++ [text], fun b h => ?_, ?_⟩
  · rcases List.mem_append.mp h with h | h
    · exact hb b h
    · rw [List.mem_singleton.mp h]
      exact ht
  · rw [List.flatten_append, List.flatten_singleton]

/-- There is always some batch to be the beginning of. -/
theorem framed_of_whole (cfg : Config) (env : Env) (sent : Bytes) (hs : Whole cfg env sent) :
    Framed cfg env sent := by
  by_cases hd : cfg.dynamic = true
  · refine ⟨sent, env.request 0, 0, hs, ?_, ?_⟩
    · rw [Batch, if_pos hd]
      exact ⟨0, rfl⟩
    · rw [List.take_zero, List.append_nil]
  · refine ⟨sent, cfg.request, 0, hs, ?_, ?_⟩
    · rw [Batch, if_neg hd]
    · rw [List.take_zero, List.append_nil]

/-- What holds of a connection that never delays. -/
structure Framing (cfg : Config) (env : Env) (wr : Writer) : Prop where
  prompt : wr.timers = 0 ∧ wr.delayed = false
  armed : wr.armed = true → wr.mode = .up
  fd : wr.mode ≠ .closed → wr.fd < wr.connects
  fresh : ∀ fd, wr.connects ≤ fd → wire fd wr.log = []
  static : cfg.dynamic = false → wr.request = cfg.request
  bounded : wr.written = 0 ∨ wr.written < wr.request.length
  framed : ∀ fd, Framed cfg env (wire fd wr.log)
  silent : wr.mode = .connecting → wire wr.fd wr.log = []
  here : wr.mode = .up → (wr.written ≠ 0 → Batch cfg env wr.request) ∧
    ∃ whole, Whole cfg env whole ∧ wire wr.fd wr.log = whole ++ wr.request.take wr.written
  only : OnlyEstablished wr.log

theorem framing_zero (cfg : Config) (env : Env) (hdelay : cfg.delay = false) :
    Framing cfg env (Writer.zero cfg) := by
  refine ⟨⟨rfl, hdelay⟩, fun h => ?_, fun h => absurd rfl h, fun _ _ => rfl, fun hd => ?_,
    Or.inl rfl, fun fd => framed_of_whole cfg env [] (whole_nil cfg env), fun _ => rfl,
    fun h => Mode.noConfusion h, trivial⟩
  · exact absurd h Bool.false_ne_true
  · simp only [Writer.zero, Conn.writer, Conn.zero, hd, Bool.false_eq_true, if_false]

/-- Only the record and the number of pending responses change, and the
    record says the same about what was sent. -/
theorem framing_log (cfg : Config) (env : Env) (wr : Writer) (log : List Obs) (pending : Nat)
    (h : Framing cfg env wr) (hw : ∀ fd, wire fd log = wire fd wr.log)
    (ho : OnlyEstablished log = OnlyEstablished wr.log) :
    Framing cfg env { wr with log := log, pending := pending } := by
  refine ⟨h.prompt, h.armed, h.fd, fun fd hfd => ?_, h.static, h.bounded, fun fd => ?_,
    fun hm => ?_, fun hm => ?_, ?_⟩
  · rw [hw]
    exact h.fresh fd hfd
  · rw [hw]
    exact h.framed fd
  · rw [hw]
    exact h.silent hm
  · rw [hw]
    exact h.here hm
  · rw [ho]
    exact h.only

theorem framing_completed (cfg : Config) (env : Env) (wr : Writer) (status : Nat)
    (told : List Obs) (htold : ∀ o ∈ told, o.heard = true) (h : Framing cfg env wr) :
    Framing cfg env (wr.completed status told) := by
  refine framing_log cfg env wr _ _ h (fun fd => ?_) ?_
  · exact append_skip (wire fd) (wire_heard fd) told _ htold
  · exact append_skip OnlyEstablished onlyEstablished_heard told _ htold

/-- The next batch keeps the framing, and what is then written is a batch. -/
theorem framing_offer (cfg : Config) (env : Env) (wr : Writer) (text : Bytes)
    (ht : Offered cfg env wr text) (hmode : wr.mode = .up) (h : Framing cfg env wr) :
    Framing cfg env (wr.offer cfg text) ∧ Batch cfg env (wr.offer cfg text).request ∧
      (wr.offer cfg text).mode = .up := by
  have hbatch : Batch cfg env text := by
    unfold Offered at ht
    unfold Batch
    by_cases hd : cfg.dynamic = true
    · rw [if_pos hd] at ht ⊢
      exact ht
    · rw [if_neg hd] at ht ⊢
      rw [ht]
      exact h.static (Bool.eq_false_iff.mpr hd)
  rcases h.here hmode with ⟨hrequest, whole, hwhole, hwire⟩
  unfold Writer.offer
  by_cases hw : wr.written = 0
  · rw [if_pos hw]
    have htext : Framing cfg env { wr with request := text } := by
      refine ⟨h.prompt, h.armed, h.fd, h.fresh, fun hd => ?_, Or.inl hw, h.framed, h.silent,
        fun _ => ⟨fun _ => hbatch, whole, hwhole, ?_⟩, h.only⟩
      · rw [Batch, if_neg (by rw [hd]; exact Bool.false_ne_true)] at hbatch
        exact hbatch
      · -- Nothing of the batch is written yet, so its text does not matter.
        rw [hwire, hw, List.take_zero, List.take_zero]
    exact ⟨framing_log cfg env _ (.batch wr.fd text :: wr.log) cfg.pipeline htext
      (fun _ => rfl) rfl, hbatch, hmode⟩
  · rw [if_neg hw]
    exact ⟨h, hrequest hw, hmode⟩

/-- Bytes of a batch are accepted on the established descriptor. -/
theorem framing_accepted (cfg : Config) (env : Env) (wr : Writer) (data : Bytes)
    (log : List Obs) (armed : Bool) (written : Nat) (hlog : ∀ fd, wire fd log =
      wire fd (.accepted wr.fd wr.written data :: wr.log))
    (he : established wr.log = some wr.fd)
    (ho : OnlyEstablished log = OnlyEstablished (.accepted wr.fd wr.written data :: wr.log))
    (hmode : wr.mode = .up) (hbound : written = 0 ∨ written < wr.request.length)
    (hbatch : Batch cfg env wr.request) (h : Framing cfg env wr)
    (hdata : ∀ whole, Whole cfg env whole → ∃ whole', Whole cfg env whole' ∧
      whole ++ wr.request.take wr.written ++ data = whole' ++ wr.request.take written) :
    Framing cfg env { wr with armed := armed, written := written, log := log } := by
  have hhere : ∃ whole, Whole cfg env whole ∧ wire wr.fd log =
      whole ++ wr.request.take written := by
    rcases h.here hmode with ⟨_, whole, hwhole, hwire⟩
    rcases hdata whole hwhole with ⟨whole', hwhole', heq⟩
    refine ⟨whole', hwhole', ?_⟩
    rw [hlog, wire, if_pos rfl, hwire, heq]
  -- The bytes go to this descriptor alone.
  have hother : ∀ fd, wr.fd ≠ fd → wire fd log = wire fd wr.log := by
    intro fd hfd
    rw [hlog, wire, if_neg hfd]
  refine ⟨h.prompt, fun _ => hmode, h.fd, fun fd hfd => ?_, h.static, hbound, fun fd => ?_,
    fun hm => ?_, fun _ => ⟨fun _ => hbatch, hhere⟩, ?_⟩
  · have hne : wr.fd ≠ fd := by
      have hlt := h.fd (by rw [hmode]; exact Mode.noConfusion)
      change wr.connects ≤ fd at hfd
      omega
    rw [hother fd hne]
    exact h.fresh fd hfd
  · by_cases hfd : wr.fd = fd
    · rcases hhere with ⟨whole, hwhole, hwire⟩
      rw [← hfd]
      exact ⟨whole, wr.request, written, hwhole, hbatch, hwire⟩
    · rw [hother fd hfd]
      exact h.framed fd
  · exact absurd (hmode.symm.trans hm) (by exact Mode.noConfusion)
  · rw [ho]
    exact ⟨he, h.only⟩

theorem framing_acceptAll (cfg : Config) (env : Env) (wr : Writer) (hmode : wr.mode = .up)
    (he : established wr.log = some wr.fd)
    (hbatch : Batch cfg env wr.request) (h : Framing cfg env wr) :
    Framing cfg env wr.acceptAll := by
  refine framing_accepted cfg env wr (wr.request.drop wr.written) _ false 0 (fun _ => rfl) he rfl
    hmode (Or.inl rfl) hbatch h (fun whole hwhole => ?_)
  refine ⟨whole ++ wr.request, whole_append cfg env whole wr.request hwhole hbatch, ?_⟩
  rw [List.append_assoc, List.take_append_drop, List.take_zero, List.append_nil]

theorem framing_acceptSome (cfg : Config) (env : Env) (wr : Writer) (more : Nat)
    (hmode : wr.mode = .up) (he : established wr.log = some wr.fd)
    (hbatch : Batch cfg env wr.request)
    (hn : wr.written + wr.room more ≠ wr.request.length) (h : Framing cfg env wr) :
    Framing cfg env (wr.acceptSome (wr.room more)) := by
  have hbound : wr.written + wr.room more < wr.request.length := by
    have hb := h.bounded
    unfold Writer.room at hn ⊢
    omega
  refine framing_accepted cfg env wr _ _ wr.armed _ (fun _ => rfl) he rfl hmode (Or.inr hbound)
    hbatch h (fun whole hwhole => ⟨whole, hwhole, ?_⟩)
  rw [List.take_add, List.append_assoc]

/-- Every move keeps the framing of a connection that never delays. -/
theorem framing_move (cfg : Config) (env : Env) (hdelay : cfg.delay = false) (wr wr' : Writer)
    (hs : Standing wr) (h : Framing cfg env wr) (hm : Move cfg env wr wr') : Framing cfg env wr' := by
  cases hm with
  | hear o ho =>
      exact framing_log cfg env wr (o :: wr.log) wr.pending h (fun fd => wire_heard fd o _ ho)
        (onlyEstablished_heard o _ ho)
  | complete status told _ htold _ => exact framing_completed cfg env wr status told htold h
  | completeLast status told latency accepted hmode htold _ =>
      have hc := framing_completed cfg env wr status told htold h
      exact ⟨⟨hc.prompt.1, hdelay⟩, fun _ => hmode, hc.fd, hc.fresh, hc.static, hc.bounded,
        hc.framed, hc.silent, hc.here, hc.only⟩
  | close state headers body =>
      exact ⟨h.prompt, fun ha => absurd ha Bool.false_ne_true, fun hm => absurd rfl hm, h.fresh,
        h.static, h.bounded, h.framed, fun hm => Mode.noConfusion hm,
        fun hm => Mode.noConfusion hm, h.only⟩
  | opened hmode _ =>
      -- Nothing has been sent on a descriptor that has not been used.
      exact ⟨h.prompt, fun ha => absurd ha Bool.false_ne_true, fun _ => Nat.lt_succ_self _,
        fun fd hfd => h.fresh fd (Nat.le_of_succ_le hfd), h.static, h.bounded, h.framed,
        fun _ => h.fresh wr.connects (Nat.le_refl _), fun hm => Mode.noConfusion hm, h.only⟩
  | failed hmode _ =>
      exact ⟨h.prompt, h.armed, fun hm => absurd hmode hm,
        fun fd hfd => h.fresh fd (Nat.le_of_succ_le hfd), h.static, h.bounded, h.framed,
        h.silent, h.here, h.only⟩
  | established hmode =>
      -- `written` is cleared here, and the descriptor is still unused.
      have hfd := h.fd (by rw [hmode]; exact Mode.noConfusion)
      refine ⟨h.prompt, fun _ => rfl, fun _ => hfd, h.fresh, h.static, Or.inl rfl, h.framed,
        fun hm => Mode.noConfusion hm, fun _ => ⟨fun hw => absurd rfl hw, [],
        whole_nil cfg env, ?_⟩, h.only⟩
      exact h.silent hmode
  | delay ms _ hd =>
      rw [h.prompt.2] at hd
      exact absurd hd Bool.false_ne_true
  | offer text ha _ ht => exact (framing_offer cfg env wr text ht (h.armed ha) h).1
  | acceptAll text ha _ ht =>
      rcases framing_offer cfg env wr text ht (h.armed ha) h with ⟨ho, hb, hmode⟩
      have he := (standing_offer cfg wr text hs).log
      rw [if_pos hmode] at he
      exact framing_acceptAll cfg env _ hmode he hb ho
  | acceptSome text more ha _ ht hn =>
      rcases framing_offer cfg env wr text ht (h.armed ha) h with ⟨ho, hb, hmode⟩
      have he := (standing_offer cfg wr text hs).log
      rw [if_pos hmode] at he
      exact framing_acceptSome cfg env _ more hmode he hb hn ho
  | fire ht =>
      rw [h.prompt.1] at ht
      exact absurd ht (Nat.lt_irrefl 0)

/-- Without a `delay` function, every descriptor of every run accepts whole
    batches and the beginning of one more, all of it while the connection is
    established on it, and the position in the batch never passes its end. -/
theorem wire_framed (cfg : Config) (env : Env) (hdelay : cfg.delay = false) (t : Thread)
    (as : List Act) (w : World)
    (hrun : Transition.run (step cfg env) (threadMain cfg env t) as = some w) :
    (∀ fd, Framed cfg env (wire fd w.c.log)) ∧ OnlyEstablished w.c.log ∧
      (w.c.written = 0 ∨ w.c.written < w.c.request.length) := by
  have h := run_writer_invariant cfg env (Framing cfg env) (framing_zero cfg env hdelay)
    (fun wr wr' hs hwr hm => framing_move cfg env hdelay wr wr' hs hwr hm) t as w hrun
  exact ⟨h.2.framed, h.2.only, h.2.bounded⟩

/-- A whole request and three bytes of the next. -/
def framedActs : List Act :=
  [.writable (.serving 0 []), .writable (.serving 99 []),
    .readable (.serving 0 [bytes "HTTP/1.1 200 OK\r\nContent-Length: 0\r\n\r\n"]),
    .writable (.serving 2 [])]

theorem wire_framed_two_batches :
    ∃ w, Transition.run (step .plain .plain) (threadMain .plain .plain (.zero 10)) framedActs =
        some w ∧ wire 0 w.c.log = Config.plain.request ++ bytes "GET" ∧
      (∀ fd, Framed .plain .plain (wire fd w.c.log)) ∧ OnlyEstablished w.c.log ∧
      (w.c.written = 0 ∨ w.c.written < w.c.request.length) := by
  have h : (Transition.run (step .plain .plain) (threadMain .plain .plain (.zero 10))
      framedActs).map (fun w => wire 0 w.c.log) =
        some (Config.plain.request ++ bytes "GET") := by decide +kernel
  rcases Option.map_eq_some_iff.mp h with ⟨w, hw, hwire⟩
  exact ⟨w, hw, hwire, wire_framed .plain .plain rfl (.zero 10) framedActs w hw⟩

end Wrk
