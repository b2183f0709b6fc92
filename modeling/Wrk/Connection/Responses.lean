import Wrk.Connection.Reader

/-!
# Handing Responses to the Script

What the script is told, over whole runs. A response with headers is handed
over exactly if nothing was left from before it, and what can be left is of
two kinds.

`reconnect_socket` does not empty the buffers, nor reset the state of the
header callbacks. A descriptor that is closed in the middle of a response
leaves its first part to the next response, on another descriptor.

Whether the script wants responses at all is read off the header buffer. A
response without headers is not handed over as long as there is no buffer.
Once there is one, its empty table is decoded from the zero byte just stored
and whatever earlier responses left behind it.

The script gets the headers as a table, in which a name has one value. Of
several headers with the same name it gets the last.

## Main definitions

* `CleanCloses`: No descriptor is closed in the middle of a response.
* `Headed`: Every response has headers, with different names.
* `completions`, `responses`: What completed, and what the script is told.

## Theorems

* `run_told`: What holds of every run.
* `firstResponse_exact`: After clean closes, the first response on a
  descriptor is handed over exactly.
* `abortedResponse_leaks`: After one that is not, it is not.
* `responses_exact`: If every response has headers with different names, all
  are handed over.
* `headless_untold`: A response without headers is not, nor one that repeats a
  name.
-/

namespace Wrk

open HttpParser

/-- Every descriptor that is closed leaves nothing collected. -/
def CleanCloses : List Obs → Prop
  | [] => True
  | .closed _ _ state headers body :: log =>
      (state = .field ∧ headers = 0 ∧ body = 0) ∧ CleanCloses log
  | _ :: log => CleanCloses log

/-- Every response that completes has a header, no two with the same name,
    and none contains a zero byte. -/
def Headed : List Obs → Prop
  | [] => True
  | .complete _ _ _ _ :: log =>
      ((reading log).headers ≠ [] ∧ NulFree (reading log).headers ∧
        ((reading log).headers.map Prod.fst).Nodup) ∧ Headed log
  | _ :: log => Headed log

/-- No response has completed on the descriptor in use. -/
def Unused : List Obs → Prop
  | [] => True
  | .closed _ _ _ _ _ :: _ => True
  | .complete _ _ _ _ :: _ => False
  | _ :: log => Unused log

/-- A response as the script gets it, with the entries of its table of
    headers. -/
structure Response where
  status : Nat
  headers : Option (List (Bytes × Bytes))
  body : Bytes
  deriving Repr, DecidableEq

/-- The responses that have completed, as they were reported: a table for the
    script would have these headers as its entries. -/
def completions : List Obs → List Response
  | [] => []
  | .complete _ status _ _ :: log =>
      completions log ++ [⟨status, some (reading log).headers, (reading log).body⟩]
  | _ :: log => completions log

/-- The responses that the script has been told of. -/
def responses : List Obs → List Response
  | [] => []
  | .response status headers body :: log => responses log ++ [⟨status, headers, body⟩]
  | _ :: log => responses log

theorem cleanCloses_suffix (pre log : List Obs) (h : CleanCloses (pre ++ log)) :
    CleanCloses log := by
  induction pre with
  | nil => exact h
  | cons o pre ih =>
      cases o with
      | closed => exact ih h.2
      | _ => exact ih h

theorem fit_of_unused (log : List Obs) (hc : CleanCloses log) (hu : Unused log) : Fit log := by
  induction log with
  | nil => trivial
  | cons o log ih =>
      cases o with
      | closed => exact hc.1
      | complete => exact hu.elim
      | _ => exact ih hc hu

theorem fit_of_headed (log : List Obs) (hc : CleanCloses log) (hh : Headed log) : Fit log := by
  induction log with
  | nil => trivial
  | cons o log ih =>
      cases o with
      | closed => exact hc.1
      | complete => exact ⟨ih hc hh.2, hh.1.1⟩
      | _ => exact ih hc hh

/-- In every run the script is told of responses when they complete, and of
    one that is due exactly as it was reported. -/
theorem run_told (cfg : Config) (env : Env) (t : Thread) (as : List Act) (w : World)
    (hrun : Transition.run (step cfg env) (threadMain cfg env t) as = some w) :
    Told w.c.log := by
  have hzero : Waiting (Conn.zero cfg) :=
    ⟨sound_empty, sound_empty, fun h => FieldState.noConfusion h, fun _ => ⟨rfl, rfl, rfl⟩,
      trivial⟩
  have h := run_holds cfg env _ _ (keeps_collected cfg env) t
    (waiting_aside (Conn.zero cfg) _ (connectSocket_aside env _) hzero) as w hrun
  by_cases hup : w.c.up
  · rcases h.up hup with ⟨_, _, hc⟩
    exact hc.told
  · exact (h.down hup).told

/-- A response that was due when it completed was handed over next. -/
theorem told_due (all : List Obs) (h : Told all) (newer log : List Obs)
    (fd status pending timers : Nat)
    (hall : all = newer ++ .complete fd status pending timers :: log) (hdue : Due log) :
    ∃ newer', newer = newer' ++
      [.response status (some (headerTable (reading log).headers)) (reading log).body] := by
  fun_induction Told all generalizing newer with
  | case1 => exact absurd hall.symm (List.append_ne_nil_of_right_ne_nil _ (List.cons_ne_nil _ _))
  | case2 st hs bd fd' st' p' t' log' ih =>
      -- The response and its completion, and what came before them.
      cases newer with
      | nil => exact Obs.noConfusion (List.cons.inj hall).1
      | cons o newer =>
          rw [List.cons_append, List.cons.injEq] at hall
          rcases hall with ⟨rfl, hall⟩
          cases newer with
          | nil =>
              rw [List.nil_append, List.cons.injEq, Obs.complete.injEq] at hall
              rcases hall with ⟨⟨_, rfl, _, _⟩, rfl⟩
              rcases h.1 hdue with ⟨rfl, rfl, rfl⟩
              exact ⟨[], rfl⟩
          | cons o newer =>
              rw [List.cons_append, List.cons.injEq] at hall
              rcases ih h.2 newer hall.2 with ⟨newer', rfl⟩
              exact ⟨_ :: _ :: newer', rfl⟩
  | case3 => exact h.elim
  | case4 fd' st' p' t' log' ih =>
      cases newer with
      | nil =>
          rw [List.nil_append, List.cons.injEq] at hall
          rw [hall.2] at h
          exact absurd hdue h.1
      | cons o newer =>
          rw [List.cons_append, List.cons.injEq] at hall
          rcases ih h.2 newer hall.2 with ⟨newer', rfl⟩
          exact ⟨_ :: newer', rfl⟩
  | case5 o log' _ _ hne ih =>
      cases newer with
      | nil =>
          rw [List.nil_append, List.cons.injEq] at hall
          exact (hne _ _ _ _ hall.1).elim
      | cons o newer =>
          rw [List.cons_append, List.cons.injEq] at hall
          rcases ih h newer hall.2 with ⟨newer', rfl⟩
          exact ⟨_ :: newer', rfl⟩

/-- In every run in which each descriptor that was closed had left nothing
    collected, the first response to complete on a descriptor is handed to the
    script exactly as it was reported, with the table of its headers, if it has
    headers without zero bytes. -/
theorem firstResponse_exact (cfg : Config) (env : Env) (t : Thread) (as : List Act) (w : World)
    (hrun : Transition.run (step cfg env) (threadMain cfg env t) as = some w)
    (hc : CleanCloses w.c.log) (newer log : List Obs) (fd status pending timers : Nat)
    (hlog : w.c.log = newer ++ .complete fd status pending timers :: log) (hu : Unused log)
    (hh : (reading log).headers ≠ []) (hnul : NulFree (reading log).headers) :
    ∃ newer', newer = newer' ++
      [.response status (some (headerTable (reading log).headers)) (reading log).body] := by
  rw [hlog] at hc
  have hclean : CleanCloses log :=
    cleanCloses_suffix newer (.complete fd status pending timers :: log) hc
  exact told_due w.c.log (run_told cfg env t as w hrun) newer log fd status pending timers hlog
    ⟨fit_of_unused log hclean hu, hh, hnul⟩

/-- The plain setting with a script that wants responses. -/
def listening : Config := { Config.plain with wantResponse := true }

/-- What the connection is after these events. -/
def listeningRun (acts : List Act) : Option World :=
  Transition.run (step listening .plain) (threadMain listening .plain (.zero 10)) acts

/-- A request is written, this much of its response comes before the server
    closes the connection, and on the next one a whole response comes. -/
def abortedAfter (part : String) : List Act :=
  [.writable (.serving 0 []), .writable (.serving 99 []),
    .readable (.serving 0 [bytes part]), .readable (.serving 0 [[]]),
    .writable (.serving 0 []), .writable (.serving 99 []),
    .readable (.serving 0 [bytes "HTTP/1.1 200 OK\r\nContent-Length: 0\r\n\r\n"])]

/-- The record of that, up to the completion, with what was collected when the
    first descriptor was closed. -/
def abortedLog (state : FieldState) (headers : Nat) (heard : List Obs) : List Obs :=
  [.headerValue (bytes "0"), .headerField (bytes "Content-Length"), .finished 1 1 0,
    .accepted 1 0 listening.request, .batch 1 listening.request, .connected 1, .opened 1,
    .sslSetOptions, .closed 0 0 state headers 0] ++ heard ++
    [.finished 0 1 0, .accepted 0 0 listening.request, .batch 0 listening.request, .connected 0,
      .opened 0, .sslSetOptions]

theorem firstResponse_exact_statusLine :
    ∃ w, listeningRun (abortedAfter "HTTP/1.1 200 OK\r\n") = some w ∧
      ∃ newer', w.c.log.take 2 = newer' ++
        [.response 200 (some [(bytes "Content-Length", bytes "0")]) []] := by
  have h : (listeningRun (abortedAfter "HTTP/1.1 200 OK\r\n")).map
      (fun w => (w.c.log.take 2, w.c.log.drop 2)) =
        some ([.recorded 0 1, .response 200 (some [(bytes "Content-Length", bytes "0")]) []],
          .complete 1 200 1 0 :: abortedLog .field 0 []) := by decide +kernel
  rcases Option.map_eq_some_iff.mp h with ⟨w, hw, hend⟩
  simp only [Prod.mk.injEq] at hend
  have hlog : w.c.log = w.c.log.take 2 ++ .complete 1 200 1 0 :: abortedLog .field 0 [] := by
    rw [← hend.2, List.take_append_drop]
  refine ⟨w, hw, firstResponse_exact listening .plain (.zero 10) _ w hw ?_ _ _ 1 200 1 0 hlog
    trivial ?_ ?_⟩
  · rw [hlog, hend.1]
    exact ⟨⟨rfl, rfl, rfl⟩, trivial⟩
  · exact List.cons_ne_nil _ _
  · intro p hp
    rw [List.mem_singleton.mp hp]
    decide +kernel

/-- A header of the aborted response is handed over with the next response,
    which has one header of its own. -/
theorem abortedResponse_leaks :
    ∃ w, listeningRun (abortedAfter "HTTP/1.1 200 OK\r\nX-Old: b") = some w ∧
      w.c.log =
        [.recorded 0 1,
          .response 200
            (some [(bytes "X-Old", bytes "b"), (bytes "Content-Length", bytes "0")]) []] ++
          .complete 1 200 1 0 ::
            abortedLog .value 7 [.headerValue (bytes "b"), .headerField (bytes "X-Old")] ∧
      Unused (abortedLog .value 7 [.headerValue (bytes "b"), .headerField (bytes "X-Old")]) ∧
      (reading
        (abortedLog .value 7 [.headerValue (bytes "b"), .headerField (bytes "X-Old")])).headers =
          [(bytes "Content-Length", bytes "0")] := by
  have h : (listeningRun (abortedAfter "HTTP/1.1 200 OK\r\nX-Old: b")).map (fun w => w.c.log) =
      some ([.recorded 0 1,
        .response 200
          (some [(bytes "X-Old", bytes "b"), (bytes "Content-Length", bytes "0")]) []] ++
        .complete 1 200 1 0 ::
          abortedLog .value 7 [.headerValue (bytes "b"), .headerField (bytes "X-Old")]) := by
    decide +kernel
  rcases Option.map_eq_some_iff.mp h with ⟨w, hw, hlog⟩
  exact ⟨w, hw, hlog, trivial, rfl⟩

/-- In every run in which every response has headers, with different names and
    without zero bytes, and no descriptor was closed in the middle of one, the
    script is told of exactly the responses that completed, in order. -/
theorem responses_exact (cfg : Config) (env : Env) (t : Thread) (as : List Act) (w : World)
    (hrun : Transition.run (step cfg env) (threadMain cfg env t) as = some w)
    (hc : CleanCloses w.c.log) (hh : Headed w.c.log) : responses w.c.log = completions w.c.log := by
  have htold := run_told cfg env t as w hrun
  generalize w.c.log = log at hc hh htold
  fun_induction Told log with
  | case1 => rfl
  | case2 st hs bd fd st' p t log ih =>
      have hdue : Due log := ⟨fit_of_headed log hc hh.2, hh.1.1, hh.1.2.1⟩
      rcases htold.1 hdue with ⟨rfl, rfl, rfl⟩
      simp only [responses, completions]
      rw [ih hc hh.2 htold.2, headerTable_of_nodup _ hh.1.2.2]
  | case3 => exact htold.elim
  | case4 fd st p t log ih =>
      exact absurd ⟨fit_of_headed log hc hh.2, hh.1.1, hh.1.2.1⟩ htold.1
  | case5 o log h1 h2 h3 ih =>
      cases o with
      | closed => exact ih hc.2 hh htold
      | complete => exact (h3 _ _ _ _ rfl).elim
      | response => exact (h2 _ _ _ rfl).elim
      | _ => exact ih hc hh htold

/-- A request, and this answer, twice on one connection. -/
def answeredTwice (first second : String) : List Act :=
  [.writable (.serving 0 []), .writable (.serving 99 []),
    .readable (.serving 0 [bytes first]), .writable (.serving 99 []),
    .readable (.serving 0 [bytes second])]

theorem responses_exact_twice :
    ∃ w, listeningRun (answeredTwice "HTTP/1.1 200 OK\r\nContent-Length: 2\r\n\r\nhi"
        "HTTP/1.1 404 No\r\nContent-Length: 0\r\n\r\n") = some w ∧
      completions w.c.log =
        [⟨200, some [(bytes "Content-Length", bytes "2")], bytes "hi"⟩,
          ⟨404, some [(bytes "Content-Length", bytes "0")], []⟩] ∧
      responses w.c.log = completions w.c.log := by
  have h : (listeningRun (answeredTwice "HTTP/1.1 200 OK\r\nContent-Length: 2\r\n\r\nhi"
      "HTTP/1.1 404 No\r\nContent-Length: 0\r\n\r\n")).map (fun w => w.c.log) =
        some [.recorded 0 1,
          .response 404 (some [(bytes "Content-Length", bytes "0")]) [], .complete 0 404 1 0,
          .headerValue (bytes "0"), .headerField (bytes "Content-Length"), .finished 0 1 0,
          .accepted 0 0 listening.request, .batch 0 listening.request, .recorded 0 1,
          .response 200 (some [(bytes "Content-Length", bytes "2")]) (bytes "hi"),
          .complete 0 200 1 0, .body (bytes "hi"), .headerValue (bytes "2"),
          .headerField (bytes "Content-Length"), .finished 0 1 0,
          .accepted 0 0 listening.request, .batch 0 listening.request, .connected 0, .opened 0,
          .sslSetOptions] := by decide +kernel
  rcases Option.map_eq_some_iff.mp h with ⟨w, hw, hlog⟩
  refine ⟨w, hw, by rw [hlog]; rfl,
    responses_exact listening .plain (.zero 10) _ w hw (by rw [hlog]; trivial) ?_⟩
  rw [hlog]
  -- Neither the name nor a value holds the terminator of the buffer.
  have hname : (0 : Byte) ∉ bytes "Content-Length" := by decide +kernel
  have hnul : ∀ value : Bytes, (0 : Byte) ∉ value → NulFree [(bytes "Content-Length", value)] := by
    intro value hv p hp
    rw [List.mem_singleton.mp hp]
    exact ⟨hname, hv⟩
  exact ⟨⟨List.cons_ne_nil _ _, hnul _ (by decide +kernel), List.pairwise_singleton _ _⟩,
    ⟨List.cons_ne_nil _ _, hnul _ (by decide +kernel), List.pairwise_singleton _ _⟩, trivial⟩

/-- A response without headers is not handed over before any other, and after
    another with the rest of that one's header. Of two headers with one name
    the first is not handed over. -/
theorem headless_untold :
    (∃ w, listeningRun (answeredTwice "HTTP/1.1 204 No Content\r\n\r\n" "") = some w ∧
        completions w.c.log = [⟨204, some [], []⟩] ∧ responses w.c.log = []) ∧
      (∃ w, listeningRun (answeredTwice
          "HTTP/1.1 204 No Content\r\nSet-Cookie: a=1\r\nSet-Cookie: b=2\r\n\r\n" "") =
            some w ∧
        completions w.c.log =
          [⟨204, some [(bytes "Set-Cookie", bytes "a=1"), (bytes "Set-Cookie", bytes "b=2")],
            []⟩] ∧
        responses w.c.log = [⟨204, some [(bytes "Set-Cookie", bytes "b=2")], []⟩]) ∧
      ∃ w, listeningRun (answeredTwice "HTTP/1.1 200 OK\r\nContent-Length: 0\r\n\r\n"
          "HTTP/1.1 204 No Content\r\n\r\n") = some w ∧
        completions w.c.log =
          [⟨200, some [(bytes "Content-Length", bytes "0")], []⟩, ⟨204, some [], []⟩] ∧
        responses w.c.log =
          [⟨200, some [(bytes "Content-Length", bytes "0")], []⟩,
            ⟨204, some [([], bytes "ontent-Length")], []⟩] := by
  refine ⟨?_, ?_, ?_⟩
  · have h : (listeningRun (answeredTwice "HTTP/1.1 204 No Content\r\n\r\n" "")).map
        (fun w => (completions w.c.log, responses w.c.log)) =
          some ([⟨204, some [], []⟩], []) := by decide +kernel
    rcases Option.map_eq_some_iff.mp h with ⟨w, hw, hend⟩
    exact ⟨w, hw, congrArg Prod.fst hend, congrArg Prod.snd hend⟩
  · have h : (listeningRun (answeredTwice
        "HTTP/1.1 204 No Content\r\nSet-Cookie: a=1\r\nSet-Cookie: b=2\r\n\r\n" "")).map
        (fun w => (completions w.c.log, responses w.c.log)) =
          some ([⟨204, some [(bytes "Set-Cookie", bytes "a=1"), (bytes "Set-Cookie", bytes "b=2")],
            []⟩], [⟨204, some [(bytes "Set-Cookie", bytes "b=2")], []⟩]) := by decide +kernel
    rcases Option.map_eq_some_iff.mp h with ⟨w, hw, hend⟩
    exact ⟨w, hw, congrArg Prod.fst hend, congrArg Prod.snd hend⟩
  · have h : (listeningRun (answeredTwice "HTTP/1.1 200 OK\r\nContent-Length: 0\r\n\r\n"
        "HTTP/1.1 204 No Content\r\n\r\n")).map
        (fun w => (completions w.c.log, responses w.c.log)) =
          some ([⟨200, some [(bytes "Content-Length", bytes "0")], []⟩, ⟨204, some [], []⟩],
            [⟨200, some [(bytes "Content-Length", bytes "0")], []⟩,
              ⟨204, some [([], bytes "ontent-Length")], []⟩]) := by decide +kernel
    rcases Option.map_eq_some_iff.mp h with ⟨w, hw, hend⟩
    exact ⟨w, hw, congrArg Prod.fst hend, congrArg Prod.snd hend⟩

end Wrk
