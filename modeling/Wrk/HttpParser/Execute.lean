import Wrk.HttpParser.Step

/-!
# Executing the Parser

`http_parser_execute` on one chunk of input, with callbacks that act on a
state of the caller's. The local variables of a call are the marks, which
hold the bytes seen since they were set, the number of bytes the current
pass through a header loop has read, and how far a jump to the end of a line
may look.

Header bytes are counted as the source counts them: one when a byte is read
outside such a pass, and the length of the pass when it ends, also when it
ends only because the chunk does. A chunk boundary inside a header therefore
costs one more than the bytes read.

## Main definitions

* `Settings`: The callbacks.
* `Locals`: The local variables of a call.
* `Exec`: A call in progress.
* `Exec.byte`: One byte of a chunk.
* `Exec.endChunk`: The end of a chunk.
* `execute`: A whole call.
-/

namespace Wrk

namespace HttpParser

/-- The callbacks of `http_parser_settings` that are ever installed. One that
    is not installed is the identity. `on_message_complete` may change the
    parser. -/
structure Settings (σ : Type*) where
  onHeaderField : Bytes → σ → σ
  onHeaderValue : Bytes → σ → σ
  onBody : Bytes → σ → σ
  onMessageComplete : HttpParser → σ → HttpParser × σ

/-- The data callback of a mark. -/
def Settings.onData {σ : Type*} (s : Settings σ) : Mark → Bytes → σ → σ
  | .headerField => s.onHeaderField
  | .headerValue => s.onHeaderValue
  | .body => s.onBody

/-- The local variables of `http_parser_execute`. -/
structure Locals where
  marks : Mark → Option Bytes
  span : Option Nat
  skip : Option Nat

/-- A call in progress: `pos` is `p - data`, and `returned` the value
    returned once there is one. -/
structure Exec (σ : Type*) where
  parser : HttpParser
  locals : Locals
  user : σ
  pos : Nat
  returned : Option Nat

namespace Exec

variable {σ : Type*}

/-- Set one mark. -/
def setMark (x : Exec σ) (m : Mark) (d : Option Bytes) : Exec σ :=
  { x with
    locals := { x.locals with marks := fun k => if k = m then d else x.locals.marks k } }

/-- `COUNT_HEADER_SIZE`. -/
def count (x : Exec σ) (n : Nat) : Exec σ :=
  let x := { x with parser := { x.parser with nread := x.parser.nread + n } }
  if x.parser.nread > httpMaxHeaderSize then
    { x with
      parser := { x.parser with httpErrno := .headerOverflow }
      returned := some x.pos }
  else x

/-- `CALLBACK_DATA`, with bytes past the marked ones. -/
def callbackData (s : Settings σ) (x : Exec σ) (m : Mark) (more : Bytes) : Exec σ :=
  match x.locals.marks m with
  | none => x
  | some d => { x with user := s.onData m (d ++ more) x.user }.setMark m none

/-- Perform one operation, unless the call has returned. -/
def perform (s : Settings σ) (ch : Byte) (x : Exec σ) (op : Op) : Exec σ :=
  if x.returned.isSome then x
  else
    match op with
    | .count => x.count (x.locals.span.getD 0)
    | .resetNread => { x with parser := { x.parser with nread := 0 } }
    -- A mark that is set stays where it is.
    | .mark m => x.setMark m (some ((x.locals.marks m).getD []))
    | .emit m => x.callbackData s m []
    | .emitThrough m => x.callbackData s m [ch]

/-- A byte that every set mark now covers. -/
def coverByte (x : Exec σ) (ch : Byte) : Exec σ :=
  { x with
    locals := { x.locals with marks := fun m => (x.locals.marks m).map (· ++ [ch]) } }

/-- The states whose bytes are read by a loop of their own. -/
def spanState (s : State) : Bool := s = .headerField || s = .headerValue

/-- How a byte ends, after its operations. -/
def finish (s : Settings σ) (ch : Byte) (before : State) (o : Out) (x : Exec σ) : Exec σ :=
  match o.verdict with
  | .fail e =>
      { x with
        parser := { x.parser with httpErrno := if e = .ok then .unknown else e }
        returned := some x.pos }
  | .next =>
      -- A byte that stays in the loop of its state adds to the loop's count.
      let inside := before = x.parser.state && spanState before
      let x := x.coverByte ch
      { x with
        pos := x.pos + 1
        locals :=
          { x.locals with
            span := if inside then some (x.locals.span.getD 0 + 1) else none
            skip := o.skip } }
  | .complete exit =>
      -- The state is that for a new message before the callback sees the parser.
      let r := s.onMessageComplete { x.parser with state := newMessage x.parser } x.user
      let stop := exit = .always || (exit = .ifUpgrade && r.1.upgrade)
      { x with
        parser := r.1
        user := r.2
        pos := x.pos + 1
        returned := if stop then some (x.pos + 1) else none
        locals := { x.locals with span := none, skip := none } }

/-- One byte that is really read. -/
def read (s : Settings σ) (x : Exec σ) (ch : Byte) : Exec σ :=
  let o := byteStep x.parser x.locals.skip ch
  let y := o.ops.foldl (perform s ch) { x with parser := o.parser }
  if y.returned.isSome then y else y.finish s ch x.parser.state o

/-- One iteration of the outer loop, or one byte of an inner loop: the byte
    is counted unless it is inside a span. -/
def byte (s : Settings σ) (x : Exec σ) (ch : Byte) : Exec σ :=
  if x.returned.isSome then x
  else
    -- Inside the loops the bytes are counted when the loop is left.
    let x := if x.locals.span.isNone && x.parser.state.parsingHeader then x.count 1 else x
    if x.returned.isSome then x else x.read s ch

/-- The bytes of a chunk. -/
def feed (s : Settings σ) (x : Exec σ) (data : Bytes) : Exec σ := data.foldl (byte s) x

/-- Call back whatever is still marked, and return. -/
def flush (s : Settings σ) (x : Exec σ) : Exec σ :=
  { ((x.callbackData s .headerField []).callbackData s .headerValue []).callbackData s .body [] with
    returned := some x.pos }

/-- The end of a chunk: an unfinished span is counted first. -/
def endChunk (s : Settings σ) (x : Exec σ) : Exec σ :=
  if x.returned.isSome then x
  else
    let x := match x.locals.span with
      | none => x
      | some k => x.count k
    if x.returned.isSome then x else x.flush s

/-- The start of a chunk: a name or a value that began in an earlier chunk is
    marked from here. -/
def start (q : HttpParser) (u : σ) : Exec σ :=
  { parser := q
    locals :=
      { marks := fun m =>
          if (m = .headerField ∧ q.state = .headerField) ∨
              (m = .headerValue ∧ q.state = .headerValue) then some [] else none
        span := none
        skip := none }
    user := u
    pos := 0
    returned := none }

end Exec

/-- `http_parser_execute`: the parser and the caller's state afterwards, and
    the value returned. -/
def execute {σ : Type*} (s : Settings σ) (q : HttpParser) (u : σ) (data : Bytes) :
    HttpParser × σ × Nat :=
  if q.httpErrno ≠ .ok then (q, u, 0)
  -- No bytes are the end of the stream.
  else if data = [] then
    match q.state with
    | .bodyIdentityEof =>
        let r := s.onMessageComplete q u
        (r.1, r.2, 0)
    | .dead | .startRes => (q, u, 0)
    | _ => ({ q with httpErrno := .invalidEofState }, u, 1)
  else
    let x := ((Exec.start q u).feed s data).endChunk s
    (x.parser, x.user, x.returned.getD 0)

end HttpParser

end Wrk
