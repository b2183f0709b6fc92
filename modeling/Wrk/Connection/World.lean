import Wrk.Connection.Buffer
import Wrk.HttpParser.Execute
import Wrk.Stats.Basic

/-!
# One Connection

A connection of a worker thread, with the handlers of `wrk.c` that run on it.
The state is the `connection` structure, the part of the event loop that
concerns its descriptor and its delay timers, and the counters of its thread.

Descriptors are numbered in the order they are opened by the connection, so
that no number is used twice. A timer holds the connection, not the
descriptor; whatever descriptor the connection has when it fires is the one
it registers. Nothing can be registered for a descriptor that is closed: that
its number may be another's by then is left to `Fleet`.

What the environment does is of two kinds. The results of the transport come
with each event. What the system calls and the script return is read from an
oracle, one function for each, indexed by the number of calls made so far.

A handler also records what it does, newest first, with the values of the
fields that matter to an observer at that moment. Nothing reads the record.

## Main definitions

* `Config`, `Env`: What is fixed for a run.
* `Obs`: What is recorded.
* `Conn`, `Thread`, `World`: The state.
* `connectSocket`, `reconnectSocket`: Opening a descriptor, and replacing it.
* `delayRequest`: A timer fires.
* `headerField`, `headerValue`, `responseBody`, `responseComplete`: The
  parser's callbacks.
* `socketConnected`, `socketWriteable`, `socketReadable`: The event handlers.
* `step`: One event.
-/

namespace Wrk

open HttpParser

/-- The fields of `cfg` and `parser_settings` that the handlers read, and the
    request of a script without a `request` function. -/
structure Config where
  pipeline : Nat
  delay : Bool
  dynamic : Bool
  wantResponse : Bool
  request : Bytes

/-- What becomes of an attempt to connect: the descriptor is registered, the
    call itself fails, or the registration does. -/
inductive ConnectResult where
  | ok
  | refused
  | unregistered
  deriving DecidableEq, Repr

/-- The oracle: attempts to connect, readings of the clock, calls of
    `request()` and of `delay()`, and the bytes in fresh memory. -/
structure Env where
  connect : Nat → ConnectResult
  clock : Nat → Nat
  request : Nat → Bytes
  delay : Nat → Nat
  junk : Nat → Byte

/-- The `state` of a connection's header callbacks. -/
inductive FieldState where
  | field
  | value
  deriving DecidableEq, Repr

/-- The handlers that are registered for descriptors. -/
inductive Proc where
  | socketConnected
  | socketWriteable
  | socketReadable
  deriving DecidableEq, Repr

/-- What a handler records. -/
inductive Obs where
  /-- `SSL_set_options` on the handle of the connection. -/
  | sslSetOptions
  /-- A descriptor is opened and registered. -/
  | opened (fd : Nat)
  /-- A descriptor is closed: the live timers, and what the header callbacks
      and the buffers hold. -/
  | closed (fd timers : Nat) (state : FieldState) (headers body : Nat)
  /-- `socket_connected` succeeds. -/
  | connected (fd : Nat)
  /-- The `!written` branch of `socket_writeable`, with the batch. -/
  | batch (fd : Nat) (text : Bytes)
  /-- The transport accepts bytes, from this position of the batch on. -/
  | accepted (fd written : Nat) (data : Bytes)
  /-- The last byte of a batch is accepted: the pending responses and the
      live timers. -/
  | finished (fd pending timers : Nat)
  /-- A delay timer is created. -/
  | delayed (ms : Nat)
  /-- The data callbacks of the parser. -/
  | headerField (at_ : Bytes)
  | headerValue (at_ : Bytes)
  | body (at_ : Bytes)
  /-- `response_complete`: the status, and the pending responses and live
      timers before it. -/
  | complete (fd status pending timers : Nat)
  /-- The latency of a batch is recorded. -/
  | recorded (latency accepted : Nat)
  /-- `script_response`: the status, the table of headers, and the body. -/
  | response (status : Nat) (headers : Option (List (Bytes × Bytes))) (body : Bytes)
  deriving DecidableEq, Repr

/-- The `errors` of a thread. -/
structure Errors where
  connect : Nat
  read : Nat
  write : Nat
  status : Nat
  timeout : Nat
  deriving DecidableEq, Repr

/-- The counters of a thread, and the histogram of latencies. -/
structure Thread where
  complete : Nat
  requests : Nat
  bytes : Nat
  errors : Errors
  latency : Stats

/-- A connection: its structure, what the event loop holds for it, how often
    each oracle has been called, and the record. The length of a request is
    that of its text. -/
structure Conn where
  parser : HttpParser
  state : FieldState
  fd : Nat
  delayed : Bool
  start : Nat
  request : Bytes
  written : Nat
  pending : Nat
  headers : Buffer
  body : Buffer
  fdOpen : Bool
  readable : Option Proc
  writable : Option Proc
  timers : List Nat
  connects : Nat
  clocks : Nat
  requests : Nat
  delays : Nat
  log : List Obs

/-- A connection and its thread. -/
structure World where
  thread : Thread
  c : Conn

/-- Record something. -/
def World.note (w : World) (o : Obs) : World := { w with c := { w.c with log := o :: w.c.log } }

/-- Write to the parser of the connection. -/
def World.setParser (w : World) (q : HttpParser) : World :=
  { w with c := { w.c with parser := q } }

/-- `aeCreateFileEvent` for the descriptor of the connection. It fails on a
    descriptor that is not open, and no caller looks at the result. -/
def createReadable (w : World) (p : Proc) : World :=
  if w.c.fdOpen then { w with c := { w.c with readable := some p } } else w

def createWritable (w : World) (p : Proc) : World :=
  if w.c.fdOpen then { w with c := { w.c with writable := some p } } else w

/-- `time_us`. -/
def timeUs (env : Env) (w : World) : Nat × World :=
  (env.clock w.c.clocks, { w with c := { w.c with clocks := w.c.clocks + 1 } })

/-- The counting of errors. -/
def connectError (w : World) : World :=
  { w with
    thread :=
      { w.thread with
        errors := { w.thread.errors with connect := wrap32 (w.thread.errors.connect + 1) } } }

def readError (w : World) : World :=
  { w with
    thread :=
      { w.thread with
        errors := { w.thread.errors with read := wrap32 (w.thread.errors.read + 1) } } }

def writeError (w : World) : World :=
  { w with
    thread :=
      { w.thread with
        errors := { w.thread.errors with write := wrap32 (w.thread.errors.write + 1) } } }

/-- `connect_socket`. A descriptor that is not registered is closed at once,
    and the connection keeps the number of the one it had. -/
def connectSocket (env : Env) (w : World) : World :=
  -- Descriptors are numbered in the order they are opened.
  let fd := w.c.connects
  let w := { w with c := { w.c with connects := fd + 1 } }
  match env.connect fd with
  | .refused => connectError w
  | .unregistered => connectError (w.note .sslSetOptions)
  | .ok =>
      let w := w.note .sslSetOptions
      { w with
        c :=
          { w.c with
            fd := fd
            fdOpen := true
            readable := some .socketConnected
            writable := some .socketConnected } }.note (.opened fd)

/-- The first half of `reconnect_socket`: the descriptor is unregistered and
    closed. -/
def closeSocket (w : World) : World :=
  { w with
    c := { w.c with fdOpen := false, readable := none, writable := none } }.note
      (.closed w.c.fd w.c.timers.length w.c.state w.c.headers.cursor w.c.body.cursor)

/-- `reconnect_socket`. -/
def reconnectSocket (env : Env) (w : World) : World := connectSocket env (closeSocket w)

/-- `delay_request`, for one of the live timers. -/
def delayRequest (w : World) (i : Nat) : World :=
  createWritable
    { w with c := { w.c with delayed := false, timers := w.c.timers.eraseIdx i } } .socketWriteable

/-- `header_field`. -/
def headerField (env : Env) (data : Bytes) (w : World) : World :=
  -- The value before this name is ended by a zero byte.
  let headers := if w.c.state = .value then pushNul w.c.headers else w.c.headers
  { w with
    c := { w.c with headers := bufferAppend env.junk headers data, state := .field } }.note
      (.headerField data)

/-- `header_value`. -/
def headerValue (env : Env) (data : Bytes) (w : World) : World :=
  -- So is the name before a value.
  let headers := if w.c.state = .field then pushNul w.c.headers else w.c.headers
  { w with
    c := { w.c with headers := bufferAppend env.junk headers data, state := .value } }.note
      (.headerValue data)

/-- `response_body`. -/
def responseBody (env : Env) (data : Bytes) (w : World) : World :=
  { w with c := { w.c with body := bufferAppend env.junk w.c.body data } }.note (.body data)

/-- `script_response`. -/
def scriptResponse (status : Nat) (w : World) : World :=
  { w with
    c :=
      { w.c with
        headers := bufferReset w.c.headers
        body := bufferReset w.c.body } }.note
      (.response status w.c.headers.table w.c.body.content)

/-- The counters of a completed response. -/
def countComplete (status : Nat) (w : World) : World :=
  let errors := w.thread.errors
  -- An error status counts as an error and as a response.
  let status' := if status > 399 then wrap32 (errors.status + 1) else errors.status
  { w with
    thread :=
      { w.thread with
        complete := wrap64 (w.thread.complete + 1)
        requests := wrap64 (w.thread.requests + 1)
        errors := { errors with status := status' } } }.note
    (.complete w.c.fd status w.c.pending w.c.timers.length)

/-- The script is told of the response if any header has ever been
    collected. -/
def tellScript (status : Nat) (w : World) : World :=
  if w.c.headers.isSome then
    scriptResponse status
      { w with c := { w.c with headers := pushNul w.c.headers, state := .field } }
  else w

/-- The last response of a batch: its latency is recorded, and writing is
    armed for the next. -/
def batchDone (cfg : Config) (now : Nat) (w : World) : World :=
  let latency := sub64 now w.c.start
  let r := statsRecord w.thread.latency latency
  -- A latency that the histogram does not take counts as a timeout.
  let timeout := if r.2 = 0 then wrap32 (w.thread.errors.timeout + 1) else w.thread.errors.timeout
  let thread :=
    { w.thread with
      latency := r.1
      errors := { w.thread.errors with timeout := timeout } }
  createWritable
    ({ w with thread := thread, c := { w.c with delayed := cfg.delay } }.note
      (.recorded latency r.2))
    .socketWriteable

/-- `--c->pending`, and what follows when that is zero. -/
def dropPending (w : World) : World :=
  { w with c := { w.c with pending := sub64 w.c.pending 1 } }

def lastResponse (cfg : Config) (now : Nat) (w : World) : World :=
  if w.c.pending = 0 then batchDone cfg now w else w

/-- `response_complete` up to its last test. -/
def countResponse (cfg : Config) (env : Env) (status : Nat) (w : World) : World :=
  lastResponse cfg (timeUs env w).1
    (dropPending (tellScript status (countComplete status (timeUs env w).2)))

/-- `response_complete`. -/
def responseComplete (cfg : Config) (env : Env) (q : HttpParser) (w : World) :
    HttpParser × World :=
  let w := countResponse cfg env q.statusCode w
  -- The parser of a connection that is closed is left as it is.
  if !httpShouldKeepAlive q then (q, reconnectSocket env w) else (httpParserInit, w)

/-- `parser_settings`: the data callbacks are installed when the script wants
    the response. -/
def parserSettings (cfg : Config) (env : Env) : Settings World :=
  { onHeaderField := if cfg.wantResponse then headerField env else fun _ w => w
    onHeaderValue := if cfg.wantResponse then headerValue env else fun _ w => w
    onBody := if cfg.wantResponse then responseBody env else fun _ w => w
    onMessageComplete := responseComplete cfg env }

/-- What `sock.connect` returns. -/
inductive SockStatus where
  | ok
  | error
  | retry
  deriving DecidableEq, Repr

/-- `socket_connected`. -/
def socketConnected (env : Env) (r : SockStatus) (w : World) : World :=
  match r with
  | .retry => w
  | .error => reconnectSocket env (connectError w)
  | .ok =>
      let w := w.setParser httpParserInit
      let w := { w with c := { w.c with written := 0 } }
      (createWritable (createReadable w .socketReadable) .socketWriteable).note (.connected w.c.fd)

/-- What `sock.write` returns. The number of bytes accepted is one more than
    the number here, or all that are offered if that is fewer. -/
inductive WriteResult where
  | ok (more : Nat)
  | error
  | retry
  deriving DecidableEq, Repr

/-- The start of a batch in `socket_writeable`. -/
def startBatch (cfg : Config) (env : Env) (w : World) : World :=
  let w :=
    if cfg.dynamic then
      { w with
        c := { w.c with request := env.request w.c.requests, requests := w.c.requests + 1 } }
    else w
  let now := (timeUs env w).1
  let w := (timeUs env w).2
  { w with c := { w.c with start := now, pending := cfg.pipeline } }.note
    (.batch w.c.fd w.c.request)

/-- The transport accepts `n` bytes of a batch. -/
def acceptBytes (n : Nat) (w : World) : World :=
  let data := (w.c.request.drop w.c.written).take n
  let written := w.c.written + n
  let w := w.note (.accepted w.c.fd w.c.written data)
  -- With its last byte the batch is over, and writing is disarmed.
  if written = w.c.request.length then
    { w with c := { w.c with written := 0, writable := none } }.note
      (.finished w.c.fd w.c.pending w.c.timers.length)
  else { w with c := { w.c with written := written } }

/-- A delayed connection asks the script for the delay and creates a
    timer. -/
def createDelay (env : Env) (w : World) : World :=
  let ms := env.delay w.c.delays
  { w with
    c :=
      { w.c with
        delays := w.c.delays + 1
        writable := none
        timers := w.c.timers ++ [ms] } }.note (.delayed ms)

/-- `socket_writeable`. -/
def socketWriteable (cfg : Config) (env : Env) (r : WriteResult) (w : World) : World :=
  -- A delayed connection writes nothing before its timer fires.
  if w.c.delayed then createDelay env w
  else
    let w := if w.c.written = 0 then startBatch cfg env w else w
    match r with
    | .retry => w
    | .error => reconnectSocket env (writeError w)
    | .ok more => acceptBytes (min (more + 1) (w.c.request.length - w.c.written)) w

/-- What `sock.read` returns. -/
inductive ReadResult where
  | ok (data : Bytes)
  | error
  | retry
  deriving DecidableEq, Repr

/-- One iteration of the loop in `socket_readable`: the read, and whether
    `sock.readable` then reports more. -/
structure ReadStep where
  result : ReadResult
  more : Bool
  deriving DecidableEq, Repr

/-- `RECVBUF`. -/
def recvBuf : Nat := 8192

/-- Hand a chunk to the parser of the connection. While the call runs the
    callbacks see the connection without the parser, which they get
    separately. -/
def readChunk (cfg : Config) (env : Env) (data : Bytes) (w : World) : World × Nat :=
  let x := execute (parserSettings cfg env) w.c.parser w data
  (x.2.1.setParser x.1, x.2.2)

/-- `c->thread->bytes += n`. -/
def countBytes (n : Nat) (w : World) : World :=
  { w with thread := { w.thread with bytes := wrap64 (w.thread.bytes + n) } }

/-- `socket_readable`. A read returns at most a buffer full of bytes. Where
    the environment has nothing more to say, the next read would block. -/
def socketReadable (cfg : Config) (env : Env) : List ReadStep → World → World
  | [], w => w
  | r :: rs, w =>
      match r.result with
      | .retry => w
      | .error => reconnectSocket env (readError w)
      | .ok data =>
          let data := data.take recvBuf
          let r' := readChunk cfg env data w
          -- The parser has not read the whole chunk.
          if r'.2 ≠ data.length then reconnectSocket env (readError r'.1)
          -- The stream ends in the middle of a message.
          else if data = [] && !httpBodyIsFinal r'.1.c.parser then
            reconnectSocket env (readError r'.1)
          -- A full buffer, and more to come.
          else if data.length = recvBuf && r.more then
            socketReadable cfg env rs (countBytes data.length r'.1)
          else countBytes data.length r'.1

/-- The results of the transport during one event. A handler uses those of
    the operations it performs. -/
structure Io where
  connect : SockStatus
  write : WriteResult
  reads : List ReadStep

/-- Call a handler. -/
def runProc (cfg : Config) (env : Env) (io : Io) (w : World) : Proc → World
  | .socketConnected => socketConnected env io.connect w
  | .socketWriteable => socketWriteable cfg env io.write w
  | .socketReadable => socketReadable cfg env io.reads w

/-- An event of the loop that concerns the connection. -/
inductive Act where
  | readable (io : Io)
  | writable (io : Io)
  | timer (i : Nat)

/-- One event, if it can occur. -/
def step (cfg : Config) (env : Env) (w : World) : Act → Option World
  | .readable io => w.c.readable.map (runProc cfg env io w)
  | .writable io => w.c.writable.map (runProc cfg env io w)
  | .timer i => if i < w.c.timers.length then some (delayRequest w i) else none

/-- The connection as `thread_main` sets it up, before its first attempt to
    connect. A zeroed parser is in no state at all; it reads nothing before it
    is initialized. -/
def Conn.zero (cfg : Config) : Conn :=
  { parser := { httpParserInit with state := .dead }
    state := .field
    fd := 0
    delayed := cfg.delay
    start := 0
    request := if cfg.dynamic then [] else cfg.request
    written := 0
    pending := 0
    headers := Buffer.empty
    body := Buffer.empty
    fdOpen := false
    readable := none
    writable := none
    timers := []
    connects := 0
    clocks := 0
    requests := 0
    delays := 0
    log := [] }

/-- A thread that has counted nothing yet, with a histogram of latencies up to
    a maximum. -/
def Thread.zero (M : Nat) : Thread :=
  { complete := 0, requests := 0, bytes := 0, errors := ⟨0, 0, 0, 0, 0⟩, latency := statsAlloc M }

/-- `thread_main`: the connection is set up and connects. -/
def threadMain (cfg : Config) (env : Env) (t : Thread) : World :=
  connectSocket env { thread := t, c := Conn.zero cfg }

/-! ### A plain setting, for runs on fixed inputs -/

/-- One request and no script. -/
def Config.plain : Config :=
  { pipeline := 1
    delay := false
    dynamic := false
    wantResponse := false
    request := bytes "GET / HTTP/1.1\r\n\r\n" }

/-- Connecting succeeds and the clock stands still. -/
def Env.plain : Env :=
  { connect := fun _ => .ok
    clock := fun _ => 0
    request := fun _ => []
    delay := fun _ => 0
    junk := fun _ => 0 }

/-- Everything succeeds: so many bytes more than one can be written, and these
    chunks are there to be read. -/
def Io.serving (more : Nat) (chunks : List Bytes) : Io :=
  ⟨.ok, .ok more, chunks.map (fun data => ⟨.ok data, false⟩)⟩

end Wrk
