import Wrk.Connection.Peer
import Wrk.Connection.Requests
import Wrk.Connection.Worker
import Wrk.HttpParser.Body

/-!
# A Response That Ends With Its Stream

A response over a plain transport whose body lasts until the server closes the
connection. The last read finds nothing, and the parser completes the message.
The callback then replaces the descriptor, since the connection cannot be
kept, and leaves the parser where it is. The handler takes a parser in that
state for one that was cut off: it counts a read error and replaces the
descriptor once more.

## Main definitions

* `readEvents`: Reading a response in several events.
* `CompletedByEnd`: The response is counted, and nothing else is.

## Theorems

* `readEvents_trails`: The parser after a response, however it is split.
* `socketReadable_end`: What the last read does.
* `end_is_readError`: A response that ends with its stream counts as a read
  error, and costs two descriptors.
-/

namespace Wrk

open HttpParser

/-- Several events of `socket_readable`, one after another. -/
def readEvents (cfg : Config) (env : Env) (events : List (List ReadStep)) (w : World) : World :=
  events.foldl (fun w reads => socketReadable cfg env reads w) w

/-- A read that finds the end of the stream. -/
def ReadStep.atEnd (more : Bool) : ReadStep := ⟨.ok [], more⟩

/-- Between two states one response has been counted and one descriptor
    replaced, and no read error has been counted. -/
structure CompletedByEnd (w w' : World) : Prop where
  complete : w'.thread.complete = wrap64 (w.thread.complete + 1)
  reconnect : closes w'.c.log = closes w.c.log + 1
  read : w'.thread.errors.read = w.thread.errors.read

/-! ### Before the end -/

/-- Callbacks that are told nothing by a response in progress. -/
theorem completes_trivially (s : Settings World) : Completes s (fun _ _ => True) :=
  ⟨fun _ _ _ _ _ => trivial, fun _ _ _ _ _ => trivial⟩

/-- The parser after a response without its end, however it is split into
    events and reads. -/
theorem readEvents_trails (cfg : Config) (env : Env) (events : List (List ReadStep))
    (q q' : HttpParser) (k : Nat) (w : World) (hserved : ∀ reads ∈ events, served reads = true)
    (htrails : Trails w.c.parser q)
    (hdata : bytewise q (events.map delivered).flatten = some (q', k)) :
    Trails (readEvents cfg env events w).c.parser q' := by
  induction events generalizing q k w with
  | nil =>
      simp only [List.map_nil, List.flatten_nil, bytewise, Option.some.injEq,
        Prod.mk.injEq] at hdata
      rw [← hdata.1]
      exact htrails
  | cons reads events ih =>
      rw [List.map_cons, List.flatten_cons] at hdata
      rcases bytewise_split q q' _ _ k hdata with ⟨mid, i, j, hi, hj, rfl⟩
      have hread := (socketReadable_completes cfg env (fun _ _ => True)
        (completes_trivially (parserSettings cfg env)) (fun _ _ _ _ => trivial)
        (fun _ _ _ _ => trivial) reads q mid i 0 w (hserved reads List.mem_cons_self) htrails hi
        trivial).1
      exact ih mid j _ (fun r hr => hserved r (List.mem_cons_of_mem reads hr)) hread hj

/-! ### At the end -/

/-- The read errors are not touched by a completed response. -/
theorem countResponse_read (cfg : Config) (env : Env) (status : Nat) (w : World) :
    (countResponse cfg env status w).thread.errors.read = w.thread.errors.read := by
  have htell : ∀ v : World, (tellScript status v).thread = v.thread :=
    fun v => tellScript_frame World.thread status v rfl
  have hwritable : ∀ v : World, (createWritable v .socketWriteable).thread = v.thread :=
    fun v => createWritable_frame World.thread v .socketWriteable rfl
  unfold countResponse lastResponse
  split_ifs
  · unfold batchDone
    dsimp only
    rw [hwritable]
    dsimp only [World.note, dropPending]
    rw [htell]
    rfl
  · dsimp only [dropPending]
    rw [htell]
    rfl

theorem connectSocket_read (env : Env) (w : World) :
    (connectSocket env w).thread.errors.read = w.thread.errors.read ∧
      (connectSocket env w).thread.complete = w.thread.complete := by
  unfold connectSocket
  dsimp only
  cases env.connect w.c.connects with
  | ok => exact ⟨rfl, rfl⟩
  | refused => exact ⟨rfl, rfl⟩
  | unregistered => exact ⟨rfl, rfl⟩

/-- The last read completes the message, fails and replaces the descriptor a
    second time. -/
theorem socketReadable_end (cfg : Config) (env : Env) (w : World) (more : Bool)
    (rs : List ReadStep) (hok : w.c.parser.httpErrno = .ok)
    (hstate : w.c.parser.state = .bodyIdentityEof)
    (hkeep : httpShouldKeepAlive w.c.parser = false) :
    socketReadable cfg env (ReadStep.atEnd more :: rs) w =
      reconnectSocket env (readError
        ((reconnectSocket env (countResponse cfg env w.c.parser.statusCode w)).setParser
          w.c.parser)) := by
  have hexec : execute (parserSettings cfg env) w.c.parser w [] =
      (w.c.parser, reconnectSocket env (countResponse cfg env w.c.parser.statusCode w), 0) := by
    unfold execute
    rw [if_neg (not_not.mpr hok), if_pos rfl, hstate]
    simp only [parserSettings, responseComplete, hkeep, Bool.not_false, if_true]
  have hfinal : httpBodyIsFinal w.c.parser = false := by
    rw [httpBodyIsFinal, hstate]
    rfl
  unfold socketReadable
  simp only [ReadStep.atEnd, List.take_nil, readChunk, hexec, List.length_nil, ne_eq,
    not_true_eq_false, if_false, World.setParser, hfinal, decide_true, Bool.not_false,
    Bool.and_self, if_true]

/-- What the end of the stream costs. -/
theorem end_counts (cfg : Config) (env : Env) (w : World) (more : Bool) (rs : List ReadStep)
    (hok : w.c.parser.httpErrno = .ok) (hstate : w.c.parser.state = .bodyIdentityEof)
    (hkeep : httpShouldKeepAlive w.c.parser = false) :
    let w' := socketReadable cfg env (ReadStep.atEnd more :: rs) w
    w'.thread.complete = wrap64 (w.thread.complete + 1) ∧
      w'.thread.errors.read = wrap32 (w.thread.errors.read + 1) ∧
      closes w'.c.log = closes w.c.log + 2 := by
  dsimp only
  rw [socketReadable_end cfg env w more rs hok hstate hkeep]
  -- The parser has completed the message and had the connection closed, when
  -- the loop takes the end for an error and closes it again.
  generalize hv : (reconnectSocket env (countResponse cfg env w.c.parser.statusCode w)).setParser
    w.c.parser = v
  have hread : v.thread.errors.read = w.thread.errors.read := by
    rw [← hv]
    exact (connectSocket_read env _).1.trans (countResponse_read cfg env _ w)
  have hcomplete : v.thread.complete = wrap64 (w.thread.complete + 1) := by
    rw [← hv]
    exact (connectSocket_read env _).2.trans
      (congrArg Prod.fst (countResponse_tally cfg env w.c.parser.statusCode w))
  have hcloses : closes v.c.log = closes w.c.log + 1 := by
    rw [← hv]
    change closes (reconnectSocket env _).c.log = _
    rw [(reconnectSocket_readOnly env _).2, (countResponse_readUp cfg env _ w).closes]
  refine ⟨?_, ?_, ?_⟩
  · rw [← hcomplete]
    exact (connectSocket_read env (closeSocket (readError v))).2
  · rw [← hread]
    exact (connectSocket_read env (closeSocket (readError v))).1
  · rw [(reconnectSocket_readOnly env (readError v)).2]
    change closes v.c.log + 1 = _
    rw [hcloses]

theorem wrap32_succ_ne (n : Nat) : wrap32 (n + 1) ≠ n := by
  unfold wrap32
  omega

/-- A response that ends with its stream is counted, but also as a read error,
    and its descriptor is replaced twice. -/
theorem end_is_readError (cfg : Config) (env : Env) (w : World) (text : Bytes) (q : HttpParser)
    (events : List (List ReadStep)) (more : Bool) (rs : List ReadStep)
    (hfresh : w.c.parser = httpParserInit) (hclose : UntilClose text q)
    (hserved : ∀ reads ∈ events, served reads = true)
    (hsplit : (events.map delivered).flatten = text) :
    let v := readEvents cfg env events w
    let w' := socketReadable cfg env (ReadStep.atEnd more :: rs) v
    w'.thread.complete = wrap64 (v.thread.complete + 1) ∧
      w'.thread.errors.read = wrap32 (v.thread.errors.read + 1) ∧
      closes w'.c.log = closes v.c.log + 2 ∧ ¬ CompletedByEnd v w' := by
  dsimp only
  rw [← hsplit] at hclose
  have htrails := readEvents_trails cfg env events httpParserInit q 0 w hserved
    (by rw [hfresh]; exact trails_init) hclose.1
  have hkeep := untilClose_not_kept _ q hclose
  have hstate := hclose.2
  -- From here on, only what the parser is left with counts.
  generalize readEvents cfg env events w = v at htrails ⊢
  have hok : v.c.parser.httpErrno = .ok := by
    rw [htrails.parser]
    exact bytewise_ok httpParserInit q _ 0 hclose.1 rfl
  have hcounts := end_counts cfg env v more rs hok ?_ ?_
  · refine ⟨hcounts.1, hcounts.2.1, hcounts.2.2, fun h => ?_⟩
    exact wrap32_succ_ne v.thread.errors.read (hcounts.2.1.symm.trans h.read)
  · rw [htrails.parser]
    exact hstate
  · rw [htrails.parser]
    exact hkeep

/-- A connection that has just been established. -/
def World.established : World :=
  socketConnected Env.plain .ok (threadMain Config.plain Env.plain (Thread.zero 10))

/-- A response without a length, in two reads. -/
def hello : List (List ReadStep) :=
  [[⟨.ok (bytes "HTTP/1.1 200 OK\r\n\r\nhel"), false⟩], [⟨.ok (bytes "lo"), false⟩]]

theorem end_is_readError_hello :
    let v := readEvents Config.plain Env.plain hello World.established
    let w' := socketReadable Config.plain Env.plain [ReadStep.atEnd false] v
    w'.thread.complete = wrap64 (v.thread.complete + 1) ∧
      w'.thread.errors.read = wrap32 (v.thread.errors.read + 1) ∧
      closes w'.c.log = closes v.c.log + 2 ∧ ¬ CompletedByEnd v w' := by
  have hclose : (bytewise httpParserInit (bytes "HTTP/1.1 200 OK\r\n\r\nhello")).map
      (fun x => (x.1.state, x.2)) = some (.bodyIdentityEof, 0) := by
    decide +kernel
  rcases Option.map_eq_some_iff.mp hclose with ⟨x, hx, hpair⟩
  simp only [Prod.mk.injEq] at hpair
  refine end_is_readError Config.plain Env.plain World.established
    (bytes "HTTP/1.1 200 OK\r\n\r\nhello") x.1 hello false [] (by decide +kernel) ⟨?_, hpair.1⟩
    (by decide +kernel) (by decide +kernel)
  rw [hx, ← hpair.2]

/-- The end of that stream counts a read error. -/
theorem hello_not_completed :
    ¬ CompletedByEnd (readEvents Config.plain Env.plain hello World.established)
      (socketReadable Config.plain Env.plain [ReadStep.atEnd false]
        (readEvents Config.plain Env.plain hello World.established)) := by
  intro h
  exact absurd h.read (by decide +kernel)

end Wrk
