import Wrk.Connection.EndOfStream
import Wrk.HttpParser.Bodies

/-!
# The Two Transports

The functions of `net.c` and of `ssl.c` behind `struct sock`, over what the
transport has for a connection: data, nothing yet, the end of the stream, or a
failure. Both report a failure as an error, and what they do with data is the
same. Nothing yet is an error to `sock_read`, which does not look at `errno`,
though `sock_write` does. The end of the stream is data of length zero to
`sock_read` and an error to `ssl_read`.

How much is left to read, which decides whether a call reads again, is reported
by different functions too. A stream that is read in other portions leaves the
same state, so that this makes no difference.

## Main definitions

* `Arrival`: What the transport has for a read.
* `sockRead`, `sslRead`, `sockWrite`, `sslWrite`: The functions of the table.
* `Exhausts`: An event makes all of these reads.
* `Interchangeable`: Two runs return the same statuses and leave the same
  counters.

## Theorems

* `readEvents_foldl`: Events are the reads they make, one after another.
* `interchangeable_iff`: The transports are interchangeable exactly as long as
  there is data, or a failure.
* `blocked_tls`, `blocked_plain`: A read that would block.
* `ended_counts`, `ended_completes`: The end of the stream.
* `sockWrite_eq_sslWrite`: Writing is the same on both.
-/

namespace Wrk

open HttpParser

/-- Data that a single read can return. -/
abbrev Chunk := {data : Bytes // data ≠ [] ∧ data.length ≤ recvBuf}

/-- What the transport has for a read. -/
inductive Arrival where
  | data (chunk : Chunk)
  | nothing
  | ended
  | failed

/-- `errno` after a system call that returned `-1`. -/
inductive Errno where
  | eagain
  | other
  deriving DecidableEq, Repr

/-- What `SSL_get_error` returns after a call that did not succeed. -/
inductive SslError where
  | wantRead
  | wantWrite
  | zeroReturn
  | other
  deriving DecidableEq, Repr

/-- `read`, into the buffer of the connection. -/
def sysRead : Arrival → Except Errno Bytes
  | .data chunk => .ok chunk
  | .nothing => .error .eagain
  | .ended => .ok []
  | .failed => .error .other

/-- `SSL_read`, and `SSL_get_error` when it returns zero or less. -/
def sslReadCall : Arrival → Except SslError Bytes
  | .data chunk => .ok chunk
  | .nothing => .error .wantRead
  | .ended => .error .zeroReturn
  | .failed => .error .other

/-- `sock_read`. -/
def sockRead (a : Arrival) : ReadResult :=
  match sysRead a with
  | .ok data => .ok data
  | .error _ => .error

/-- `ssl_read`. -/
def sslRead (a : Arrival) : ReadResult :=
  match sslReadCall a with
  | .ok data => .ok data
  | .error .wantRead => .retry
  | .error .wantWrite => .retry
  | .error _ => .error

/-- `sock_readable`, for what `ioctl` reports, if it succeeds. -/
def sockReadable (queued : Option Nat) : Nat := queued.getD 0

/-- `ssl_readable`, for what `SSL_pending` reports. -/
def sslReadable (pending : Nat) : Nat := pending

/-- A read over each of the transports, with what is then reported as left. -/
structure SockStep where
  arrival : Arrival
  queued : Option Nat

structure SslStep where
  arrival : Arrival
  pending : Nat

def SockStep.read (s : SockStep) : ReadStep :=
  ⟨sockRead s.arrival, decide (0 < sockReadable s.queued)⟩

def SslStep.read (s : SslStep) : ReadStep :=
  ⟨sslRead s.arrival, decide (0 < sslReadable s.pending)⟩

/-! ### Portions -/

/-- The handler goes on to another read after this one. -/
def goesOn (cfg : Config) (env : Env) (w : World) (r : ReadStep) : Bool :=
  match r.result with
  | .ok data =>
      let data := data.take recvBuf
      let r' := readChunk cfg env data w
      decide (r'.2 = data.length) && !(decide (data = []) && !httpBodyIsFinal r'.1.c.parser) &&
        (decide (data.length = recvBuf) && r.more)
  | _ => false

/-- One read, as an event of its own. -/
def readOne (cfg : Config) (env : Env) (w : World) (r : ReadResult) : World :=
  socketReadable cfg env [⟨r, false⟩] w

theorem socketReadable_cons (cfg : Config) (env : Env) (w : World) (r : ReadStep)
    (rs : List ReadStep) :
    socketReadable cfg env (r :: rs) w =
      if goesOn cfg env w r then socketReadable cfg env rs (readOne cfg env w r.result)
      else readOne cfg env w r.result := by
  unfold readOne goesOn
  rw [socketReadable, socketReadable]
  cases r.result with
  | retry => rfl
  | error => rfl
  | ok data =>
      dsimp only
      by_cases hlen : (readChunk cfg env (data.take recvBuf) w).2 = (data.take recvBuf).length
      · by_cases heof : (decide (data.take recvBuf = []) &&
          !httpBodyIsFinal (readChunk cfg env (data.take recvBuf) w).1.c.parser) = true
        · simp only [hlen, ne_eq, not_true_eq_false, if_false, heof, if_true, decide_true,
            Bool.not_true, Bool.and_false, Bool.false_and, Bool.false_eq_true]
        · simp only [hlen, ne_eq, not_true_eq_false, if_false, heof, decide_true,
            Bool.not_false, Bool.and_true, Bool.true_and, Bool.false_eq_true, Bool.and_false]
      · simp only [hlen, ne_eq, not_false_eq_true, if_true, decide_false, Bool.false_and,
          Bool.false_eq_true, if_false]

/-- An event makes all of these reads: it goes on after each but the last. -/
def Exhausts (cfg : Config) (env : Env) : List ReadStep → World → Prop
  | [], _ => False
  | [r], w => goesOn cfg env w r = false
  | r :: rs, w => goesOn cfg env w r = true ∧ Exhausts cfg env rs (readOne cfg env w r.result)

/-- Each of several events makes all of its reads. -/
def AllExhaust (cfg : Config) (env : Env) : List (List ReadStep) → World → Prop
  | [], _ => True
  | reads :: events, w =>
      Exhausts cfg env reads w ∧ AllExhaust cfg env events (socketReadable cfg env reads w)

theorem socketReadable_foldl (cfg : Config) (env : Env) (reads : List ReadStep) (w : World)
    (h : Exhausts cfg env reads w) :
    socketReadable cfg env reads w = (reads.map ReadStep.result).foldl (readOne cfg env) w := by
  induction reads generalizing w with
  | nil => exact absurd h id
  | cons r reads ih =>
      rw [socketReadable_cons, List.map_cons, List.foldl_cons]
      cases reads with
      | nil =>
          rw [if_neg (by rw [show goesOn cfg env w r = false from h]; exact Bool.false_ne_true)]
          rfl
      | cons r' reads =>
          rw [if_pos h.1]
          exact ih _ h.2

/-- An event ends with a read after which nothing is reported as left. -/
theorem exhausts_last (cfg : Config) (env : Env) (w : World) (r : ReadResult) :
    Exhausts cfg env [⟨r, false⟩] w := by
  unfold Exhausts goesOn
  cases r with
  | ok data => simp only [Bool.and_false]
  | error | retry => rfl

/-- A read that fills the buffer with bytes that the parser accepts is not the
    last of its event, if something is left. -/
theorem goesOn_full (cfg : Config) (env : Env) (w : World) (data : Bytes) (q : HttpParser)
    (k : Nat) (hlen : data.length = recvBuf) (htrails : Trails w.c.parser httpParserInit)
    (hdata : bytewise httpParserInit data = some (q, k)) :
    goesOn cfg env w ⟨.ok data, true⟩ = true := by
  have hne : data ≠ [] := by
    rintro rfl
    cases hlen
  -- The parser stops for no byte that it accepts alone.
  have hread := (execute_bytewise (parserSettings cfg env) (parserSettings_lawful cfg env)
    (fun _ _ => True) ⟨fun _ _ _ _ _ => trivial, fun _ _ _ _ _ => trivial⟩ w.c.parser
    httpParserInit q w data k 0 hne htrails hdata trivial).2.2
  unfold goesOn readChunk
  simp only [List.take_of_length_le (Nat.le_of_eq hlen), hread, hne, hlen, decide_true, decide_false,
    Bool.false_and, Bool.not_false, Bool.and_true]

/-- Events are the reads they make, one after another. -/
theorem readEvents_foldl (cfg : Config) (env : Env) (events : List (List ReadStep)) (w : World)
    (h : AllExhaust cfg env events w) :
    readEvents cfg env events w =
      (events.flatten.map ReadStep.result).foldl (readOne cfg env) w := by
  induction events generalizing w with
  | nil => rfl
  | cons reads events ih =>
      rw [List.flatten_cons, List.map_append, List.foldl_append,
        ← socketReadable_foldl cfg env reads w h.1]
      exact ih _ h.2

/-! ### The transports compared -/

/-- What a read returns, without its data. -/
def ReadResult.status : ReadResult → SockStatus
  | .ok _ => .ok
  | .error => .error
  | .retry => .retry

/-- What is counted: the bytes, the responses, the read errors and the
    descriptors replaced. -/
def World.counts (w : World) : Nat × Nat × Nat × Nat :=
  (w.thread.bytes, w.thread.complete, w.thread.errors.read, closes w.c.log)

/-- Two sequences of events return the same statuses and leave the same
    counters. -/
structure Interchangeable (cfg : Config) (env : Env) (w : World)
    (plain tls : List (List ReadStep)) : Prop where
  statuses : plain.flatten.map (fun r => r.result.status) =
    tls.flatten.map (fun r => r.result.status)
  counts : (readEvents cfg env plain w).counts = (readEvents cfg env tls w).counts

/-- There is data, or a failure. -/
def Arrival.plainly : Arrival → Bool
  | .data _ => true
  | .failed => true
  | _ => false

theorem read_status_iff (a : Arrival) :
    (sockRead a).status = (sslRead a).status ↔ a.plainly = true := by
  cases a with
  | data chunk => exact ⟨fun _ => rfl, fun _ => rfl⟩
  | failed => exact ⟨fun _ => rfl, fun _ => rfl⟩
  | nothing => exact ⟨SockStatus.noConfusion, fun h => absurd h Bool.false_ne_true⟩
  | ended => exact ⟨SockStatus.noConfusion, fun h => absurd h Bool.false_ne_true⟩

theorem read_eq (a : Arrival) (h : a.plainly = true) : sockRead a = sslRead a := by
  cases a with
  | data chunk => rfl
  | failed => rfl
  | nothing => exact absurd h Bool.false_ne_true
  | ended => exact absurd h Bool.false_ne_true

/-- The transports are interchangeable exactly as long as every read finds data
    or a failure, whatever portions the two of them are read in. -/
theorem interchangeable_iff (cfg : Config) (env : Env) (w : World) (arrivals : List Arrival)
    (plain : List (List SockStep)) (tls : List (List SslStep))
    (hplain : plain.flatten.map SockStep.arrival = arrivals)
    (htls : tls.flatten.map SslStep.arrival = arrivals)
    (hp : AllExhaust cfg env (plain.map (List.map SockStep.read)) w)
    (ht : AllExhaust cfg env (tls.map (List.map SslStep.read)) w) :
    Interchangeable cfg env w (plain.map (List.map SockStep.read))
        (tls.map (List.map SslStep.read)) ↔
      ∀ a ∈ arrivals, a.plainly = true := by
  have hpres : (plain.map (List.map SockStep.read)).flatten.map ReadStep.result =
      arrivals.map sockRead := by
    rw [← List.map_flatten, ← hplain, List.map_map, List.map_map]
    rfl
  have htres : (tls.map (List.map SslStep.read)).flatten.map ReadStep.result =
      arrivals.map sslRead := by
    rw [← List.map_flatten, ← htls, List.map_map, List.map_map]
    rfl
  have hstatus : ∀ l : List (List ReadStep), l.flatten.map (fun r => r.result.status) =
      (l.flatten.map ReadStep.result).map ReadResult.status := by
    intro l
    rw [List.map_map]
    rfl
  constructor
  · -- A status that differs already tells the transports apart.
    intro h a ha
    have hs := h.statuses
    rw [hstatus, hstatus, hpres, htres, List.map_map, List.map_map] at hs
    exact (read_status_iff a).mp (List.map_inj_left.mp hs a ha)
  · intro h
    have hsame : arrivals.map sockRead = arrivals.map sslRead :=
      List.map_inj_left.mpr (fun a ha => read_eq a (h a ha))
    refine ⟨?_, ?_⟩
    · rw [hstatus, hstatus, hpres, htres, hsame]
    · rw [readEvents_foldl cfg env _ w hp, readEvents_foldl cfg env _ w ht, hpres, htres, hsame]

/-- The start of a response. -/
def longHead : Bytes := bytes "HTTP/1.1 200 OK\r\nContent-Length: 8153\r\n\r\n"

/-- All of the response but its last two bytes, which fills the buffer. -/
def longChunk : Chunk :=
  ⟨longHead ++ List.replicate 8151 97, List.append_ne_nil_of_left_ne_nil (by decide) _, by
    rw [List.length_append, List.length_replicate]
    decide⟩

def lastChunk : Chunk := ⟨bytes "ab", by decide⟩

theorem longChunk_goesOn :
    goesOn Config.plain Env.plain World.established
      (SockStep.read ⟨.data longChunk, some 2⟩) = true := by
  have hhead : (bytewise httpParserInit longHead).map
      (fun x => (x.1.httpErrno, x.1.state, x.1.contentLength, x.1.nread, x.2)) =
        some (.ok, .bodyIdentity, 8153, 0, 0) := by decide +kernel
  rcases Option.map_eq_some_iff.mp hhead with ⟨⟨q, k⟩, hq, hparts⟩
  simp only [Prod.mk.injEq] at hparts
  rcases hparts with ⟨hok, hstate, hlength, hnread, rfl⟩
  -- The body is too long to be evaluated: it is read by the lemma about bodies.
  have hbody := reads_identity (List.replicate 8151 97) q hok hstate
    (by rw [List.length_replicate, hlength]; decide) 0 (Nat.zero_le _)
  rw [if_pos (Nat.zero_le _), show counted 0 q = q by rw [← hnread]; rfl] at hbody
  have hall := bytewise_append httpParserInit q longHead (List.replicate 8151 97) 0 hq
  rw [hbody] at hall
  refine goesOn_full Config.plain Env.plain World.established longChunk.1 _ _ ?_ trails_init hall
  change (longHead ++ List.replicate 8151 97).length = recvBuf
  rw [List.length_append, List.length_replicate]
  decide

/-- A response and a failure, in two events on one transport and in three on the
    other. -/
theorem interchangeable_portions :
    Interchangeable Config.plain Env.plain World.established
      [[SockStep.read ⟨.data longChunk, some 2⟩, SockStep.read ⟨.data lastChunk, some 0⟩],
        [SockStep.read ⟨.failed, none⟩]]
      [[SslStep.read ⟨.data longChunk, 0⟩], [SslStep.read ⟨.data lastChunk, 0⟩],
        [SslStep.read ⟨.failed, 0⟩]] := by
  refine (interchangeable_iff Config.plain Env.plain World.established
    [.data longChunk, .data lastChunk, .failed]
    [[⟨.data longChunk, some 2⟩, ⟨.data lastChunk, some 0⟩], [⟨.failed, none⟩]]
    [[⟨.data longChunk, 0⟩], [⟨.data lastChunk, 0⟩], [⟨.failed, 0⟩]] rfl rfl
    ⟨⟨longChunk_goesOn, exhausts_last _ _ _ _⟩, exhausts_last _ _ _ _, trivial⟩
    ⟨exhausts_last _ _ _ _, exhausts_last _ _ _ _, exhausts_last _ _ _ _, trivial⟩).mpr ?_
  intro a ha
  simp only [List.mem_cons, List.not_mem_nil, or_false] at ha
  rcases ha with rfl | rfl | rfl <;> rfl
/-- A read that would block is a read error on one transport and nothing on the
    other. -/
theorem blocked_differs :
    ¬ Interchangeable Config.plain Env.plain World.established
      [[SockStep.read ⟨.nothing, some 0⟩]] [[SslStep.read ⟨.nothing, 0⟩]] := by
  intro h
  exact absurd h.counts (by decide +kernel)

/-! ### One read that finds no data -/

/-- Nothing is touched when a read over TLS would block. -/
theorem blocked_tls (cfg : Config) (env : Env) (w : World) :
    readOne cfg env w (sslRead .nothing) = w := rfl

/-- Over a plain transport it costs a read error and a descriptor. -/
theorem blocked_plain (cfg : Config) (env : Env) (w : World) :
    readOne cfg env w (sockRead .nothing) = reconnectSocket env (readError w) := rfl

/-- The end of the stream counts the same on both, unless it completes a
    message. -/
theorem ended_counts (cfg : Config) (env : Env) (w : World)
    (hstate : w.c.parser.state ≠ .bodyIdentityEof) (hdone : w.c.parser.state ≠ .messageDone) :
    (readOne cfg env w (sockRead .ended)).counts = (readOne cfg env w (sslRead .ended)).counts := by
  have hplain : ∃ q, readOne cfg env w (sockRead .ended) =
      reconnectSocket env (readError (w.setParser q)) := by
    unfold readOne socketReadable
    simp only [sockRead, sysRead, List.take_nil, readChunk, List.length_nil, decide_true,
      Bool.true_and]
    unfold execute
    by_cases hok : w.c.parser.httpErrno = .ok
    · rw [if_neg (not_not.mpr hok), if_pos rfl]
      cases hs : w.c.parser.state with
      | bodyIdentityEof => exact absurd hs hstate
      | messageDone => exact absurd hs hdone
      | dead | startRes =>
          refine ⟨w.c.parser, ?_⟩
          simp only [World.setParser, httpBodyIsFinal, hs, ne_eq, not_true_eq_false, if_false,
            reduceCtorEq, decide_false, Bool.not_false, if_true]
      | _ => exact ⟨_, if_pos (Nat.succ_ne_zero 0)⟩
    · rw [if_pos hok]
      refine ⟨w.c.parser, ?_⟩
      simp only [World.setParser, httpBodyIsFinal, hdone, ne_eq, not_true_eq_false, if_false,
        decide_false, Bool.not_false, if_true]
  -- The parser that is left behind is in none of the counts.
  rcases hplain with ⟨q, hq⟩
  rw [hq]
  have hreconnect : ∀ v : World, (reconnectSocket env v).counts =
      (v.thread.bytes, v.thread.complete, v.thread.errors.read, closes v.c.log + 1) := by
    intro v
    have hread := connectSocket_read env (closeSocket v)
    have hcloses := (reconnectSocket_readOnly env v).2
    have hbytes : (reconnectSocket env v).thread.bytes = v.thread.bytes := by
      unfold reconnectSocket connectSocket
      dsimp only
      cases env.connect (closeSocket v).c.connects <;> rfl
    unfold World.counts
    rw [hcloses, hbytes]
    exact congrArg₂ (fun a b => (v.thread.bytes, a, b, closes v.c.log + 1)) hread.2 hread.1
  change _ = (reconnectSocket env (readError w)).counts
  rw [hreconnect, hreconnect]
  rfl

/-- Where it completes a message, a response and a descriptor more are counted
    over the plain transport. -/
theorem ended_completes (cfg : Config) (env : Env) (w : World) (hok : w.c.parser.httpErrno = .ok)
    (hstate : w.c.parser.state = .bodyIdentityEof)
    (hkeep : httpShouldKeepAlive w.c.parser = false) :
    (readOne cfg env w (sockRead .ended)).thread.complete = wrap64 (w.thread.complete + 1) ∧
      closes (readOne cfg env w (sockRead .ended)).c.log =
        closes (readOne cfg env w (sslRead .ended)).c.log + 1 := by
  have hplain := end_counts cfg env w false [] hok hstate hkeep
  have htls := (reconnectSocket_readOnly env (readError w)).2
  exact ⟨hplain.1, hplain.2.2.trans (congrArg (· + 1) htls).symm⟩

/-! ### Writing -/

/-- What the transport does with bytes that are offered. -/
inductive Departure where
  | accepted (more : Nat)
  | blocked
  | failed

/-- `write`, and `SSL_write` with `SSL_get_error`. -/
def sysWrite : Departure → Except Errno Nat
  | .accepted more => .ok more
  | .blocked => .error .eagain
  | .failed => .error .other

def sslWriteCall : Departure → Except SslError Nat
  | .accepted more => .ok more
  | .blocked => .error .wantWrite
  | .failed => .error .other

/-- `sock_write`. -/
def sockWrite (d : Departure) : WriteResult :=
  match sysWrite d with
  | .ok more => .ok more
  | .error .eagain => .retry
  | .error _ => .error

/-- `ssl_write`. -/
def sslWrite (d : Departure) : WriteResult :=
  match sslWriteCall d with
  | .ok more => .ok more
  | .error .wantRead => .retry
  | .error .wantWrite => .retry
  | .error _ => .error

/-- Writing is the same on both. -/
theorem sockWrite_eq_sslWrite (d : Departure) : sockWrite d = sslWrite d := by
  cases d with
  | accepted more => rfl
  | blocked => rfl
  | failed => rfl

end Wrk
