import Wrk.Connection.Pending
import Wrk.HttpParser.Framed

/-!
# Responses and the Method of the Request

What the callbacks of a connection make of a response is decided by the parser
alone: they treat it as callbacks do that only collect messages. None of them
tells it the method of the request, so it cannot know that a response to HEAD
has no body, nor that CONNECT ends the use of the connection.

## Main definitions

* `Quiet`, `Once`: No response, and one response, taken off those pending.

## Theorems

* `connection_matches`: The callbacks count what they are given.
* `method_unseen`: A response to HEAD that is not reported.
* `response_once_iff`: Exactly the framed responses are reported once.
-/

namespace Wrk

open HttpParser

/-- Nothing has completed. -/
def Quiet (w w' : World) : Prop :=
  completes w'.c.log = completes w.c.log ∧ w'.c.pending = w.c.pending

/-- One response has completed and has been taken off those pending. -/
def Once (w w' : World) : Prop :=
  completes w'.c.log = completes w.c.log + 1 ∧ w'.c.pending = sub64 w.c.pending 1

/-- As many responses have completed as messages were collected. -/
def Counts (w : World) (done : List HttpParser) (w' : World) (done' : List HttpParser) : Prop :=
  ∃ k, done'.length = done.length + k ∧ completes w'.c.log = completes w.c.log + k ∧
    w'.c.pending = (fun n => sub64 n 1)^[k] w.c.pending

/-! ### The callbacks -/

/-- What the callbacks count. -/
def World.count (w : World) : Nat × Nat := (completes w.c.log, w.c.pending)

theorem createWritable_count (w : World) (p : Proc) : (createWritable w p).count = w.count :=
  createWritable_frame World.count w p rfl

theorem tellScript_count (status : Nat) (w : World) : (tellScript status w).count = w.count :=
  tellScript_frame World.count status w rfl

theorem lastResponse_count (cfg : Config) (now : Nat) (w : World) :
    (lastResponse cfg now w).count = w.count := by
  unfold lastResponse
  split_ifs
  · exact createWritable_count _ _
  · rfl

/-- A response that completes is counted once. -/
theorem countResponse_count (cfg : Config) (env : Env) (status : Nat) (w : World) :
    (countResponse cfg env status w).count =
      (completes w.c.log + 1, sub64 w.c.pending 1) := by
  have htold := tellScript_count status (countComplete status (timeUs env w).2)
  rw [countResponse, lastResponse_count]
  exact congrArg (fun x : Nat × Nat => (x.1, sub64 x.2 1)) htold

theorem reconnectSocket_count (env : Env) (w : World) :
    (reconnectSocket env w).count = w.count := by
  unfold reconnectSocket connectSocket
  dsimp only
  split <;> rfl

theorem responseComplete_count (cfg : Config) (env : Env) (q : HttpParser) (w : World) :
    (responseComplete cfg env q w).2.count = (completes w.c.log + 1, sub64 w.c.pending 1) := by
  have hcount := countResponse_count cfg env q.statusCode w
  unfold responseComplete
  dsimp only
  split_ifs
  · exact (reconnectSocket_count env _).trans hcount
  · exact hcount

theorem counts_refl (w : World) (done : List HttpParser) : Counts w done w done :=
  ⟨0, rfl, rfl, rfl⟩

/-- The callbacks of a connection do to the parser what those do that collect
    messages, and count a response for every message. -/
theorem connection_matches (cfg : Config) (env : Env) (w : World) (done : List HttpParser) :
    Matches (parserSettings cfg env) collect (Counts w done) := by
  constructor
  · intro m d u v h
    rw [collect_data v m d v rfl]
    rcases h with ⟨k, hlen, hcount, hpending⟩
    refine ⟨k, hlen, ?_, ?_⟩
    · rw [← hcount]
      cases m <;> (dsimp only [Settings.onData, parserSettings]; split_ifs <;> rfl)
    · rw [← hpending]
      cases m <;> (dsimp only [Settings.onData, parserSettings]; split_ifs <;> rfl)
  · -- Both close the connection, or keep it, by what the parser says.
    intro q u v
    dsimp only [parserSettings, responseComplete, collect]
    cases httpShouldKeepAlive q <;> rfl
  · rintro q u v ⟨k, hlen, hcount, hpending⟩
    have hdone := responseComplete_count cfg env q u
    -- One message more, one completion more, one response less pending.
    refine ⟨k + 1, ?_, ?_, ?_⟩
    · exact congrArg (· + 1) hlen
    · exact (congrArg Prod.fst hdone).trans (congrArg (· + 1) hcount)
    · rw [Function.iterate_succ_apply', ← hpending]
      exact congrArg Prod.snd hdone

theorem counts_quiet (w w' : World) (done done' : List HttpParser) (h : Counts w done w' done') :
    Same done done' ↔ completes w'.c.log = completes w.c.log := by
  rcases h with ⟨k, hlen, hcount, _⟩
  unfold Same
  omega

theorem counts_once (w w' : World) (done done' : List HttpParser) (h : Counts w done w' done') :
    More done done' ↔ completes w'.c.log = completes w.c.log + 1 := by
  rcases h with ⟨k, hlen, hcount, _⟩
  unfold More
  omega

/-- What is counted is also taken off. -/
theorem quiet_of_counts (w w' : World) (done done' : List HttpParser)
    (h : Counts w done w' done') (hsame : Same done done') : Quiet w w' := by
  refine ⟨(counts_quiet w w' done done' h).mp hsame, ?_⟩
  rcases h with ⟨k, hlen, _, hpending⟩
  have hk : k = 0 := by
    unfold Same at hsame
    omega
  rw [hpending, hk]
  rfl

theorem once_of_counts (w w' : World) (done done' : List HttpParser)
    (h : Counts w done w' done') (hmore : More done done') : Once w w' := by
  refine ⟨(counts_once w w' done done' h).mp hmore, ?_⟩
  rcases h with ⟨k, hlen, _, hpending⟩
  have hk : k = 1 := by
    unfold More at hmore
    omega
  rw [hpending, hk]
  rfl

/-! ### Responses -/

variable (cfg : Config) (env : Env)

theorem connection_follows : Follows (parserSettings cfg env) collect Quiet Once Same More :=
  fun w => ⟨[], Counts w [], connection_matches cfg env w [], counts_refl w [], fun w' done' h =>
    ⟨quiet_of_counts w w' [] done' h, once_of_counts w w' [] done' h⟩⟩

/-- In the other direction any connection will do. -/
theorem collect_follows : Follows collect (parserSettings cfg env) Same More Quiet Once := by
  intro done
  -- What the first connection counts is as good as what any other does.
  let w := threadMain cfg env (Thread.zero 0)
  have hm := connection_matches cfg env w done
  refine ⟨w, fun done' w' => Counts w done w' done', matches_flip _ _ _ hm, counts_refl w done,
    fun done' w' h => ?_⟩
  exact ⟨fun hq => (counts_quiet w w' done done' h).mpr hq.1,
    fun ho => (counts_once w w' done done' h).mpr ho.1⟩

/-- What a connection reports is what is collected. -/
theorem delivered_collect (method : Bytes) (r : Http.Response) :
    Delivered (parserSettings cfg env) Quiet Once method r ↔
      Delivered collect Same More method r := by
  have hto := connection_follows cfg env
  have hfrom := collect_follows cfg env
  unfold Delivered
  split_ifs
  · exact ⟨deliversAtEnd_follows _ _ _ _ _ _ _ hfrom, deliversAtEnd_follows _ _ _ _ _ _ _ hto⟩
  · exact ⟨delivers_follows _ _ _ _ _ _ _ hfrom, delivers_follows _ _ _ _ _ _ _ hto⟩

/-- A response is reported exactly once, at its end, if and only if its head
    fits and the parser frames it as the protocol does for the method. -/
theorem response_once_iff (method : Bytes) (r : Http.Response)
    (hr : Http.Conforming method r) :
    Delivered (parserSettings cfg env) Quiet Once method r ↔
      fitsHead r.head = true ∧ framed method r = true :=
  (delivered_collect cfg env method r).trans (delivered_iff method r hr)

/-! ### A response with a length -/

/-- A length of five. -/
def lengthOfFive : Http.Field :=
  { name := bytes "Content-Length"
    lead := [Http.SP]
    value := bytes "5"
    trail := []
    named := by decide
    token := by decide +kernel
    blank := by decide
    text := by decide
    first := by decide
    last := by decide
    empty := by decide }

/-- A head with that length. -/
def headOfFive : Http.Head :=
  { status := 200
    reason := bytes "OK"
    fields := [lengthOfFive]
    code := by decide
    text := by decide }

/-- The response to GET, and the one to HEAD, which has no body. -/
def responseToGet : Http.Response := ⟨headOfFive, .content (bytes "hello")⟩
def responseToHead : Http.Response := ⟨headOfFive, .none⟩

theorem responseToGet_conforming : Http.Conforming (bytes "GET") responseToGet := by
  have hframing : Http.framing (bytes "GET") headOfFive = .exactly 5 := by decide +kernel
  refine ⟨?_, by decide +kernel, by decide +kernel, by decide +kernel, by decide +kernel⟩
  change (Http.framing (bytes "GET") headOfFive).Allows _
  rw [hframing]
  rfl

theorem responseToHead_conforming : Http.Conforming Http.HEAD responseToHead := by
  have hframing : Http.framing Http.HEAD headOfFive = .none := by decide +kernel
  refine ⟨?_, by decide +kernel, by decide +kernel, by decide +kernel, by decide +kernel⟩
  change (Http.framing Http.HEAD headOfFive).Allows _
  rw [hframing]
  exact trivial

theorem response_once_get : Http.Conforming (bytes "GET") responseToGet ∧
    Delivered (parserSettings Config.plain Env.plain) Quiet Once (bytes "GET") responseToGet :=
  ⟨responseToGet_conforming,
    (response_once_iff Config.plain Env.plain _ _ responseToGet_conforming).mpr
      ⟨by decide +kernel, by decide +kernel⟩⟩

/-- The same head in response to HEAD: the parser waits for five bytes. -/
theorem method_unseen : ¬ ∀ (cfg : Config) (env : Env) (method : Bytes) (r : Http.Response),
    Http.Conforming method r → Delivered (parserSettings cfg env) Quiet Once method r := by
  intro h
  -- The five bytes announced to HEAD never come, so nothing has completed.
  have hno : completes ((Exec.start httpParserInit
      (threadMain Config.plain Env.plain (Thread.zero 10))).feed
        (parserSettings Config.plain Env.plain) responseToHead.bytes).user.c.log = 0 := by
    decide +kernel
  have hdelivered := h Config.plain Env.plain Http.HEAD responseToHead responseToHead_conforming
  unfold Delivered at hdelivered
  rw [if_neg (by decide +kernel)] at hdelivered
  rcases hdelivered (Exec.start httpParserInit
    (threadMain Config.plain Env.plain (Thread.zero 10))) ⟨rfl, rfl, rfl, rfl⟩ []
    responseToHead.bytes (fun _ hd => absurd hd List.not_mem_nil) (by decide +kernel) rfl with
    ⟨y, hy, _, honce⟩
  rw [← Option.some.inj hy] at honce
  have hone := honce.1
  rw [hno] at hone
  exact absurd hone (Nat.zero_ne_add_one _)

end Wrk
