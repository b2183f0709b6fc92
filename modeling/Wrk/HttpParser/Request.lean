import Wrk.HttpParser.Execute

/-!
# The Parser of Requests

The other half of `http_parser.c`: a parser initialized with `HTTP_REQUEST`.
The request line has states of its own; past it, a request is read by the
states that also read a response, apart from what the end of its head means.
A request with a body says how long the body is, a request that upgrades ends
with its head, and no request lasts until the stream ends.

Of the callbacks only `on_message_complete` is ever installed here, and it
only counts. The marks of the data callbacks therefore have no effect and are
left out. The input is one string of a script, which is shorter than `2 ^ 31`
bytes, so the count of header bytes does not wrap.

## Main definitions

* `HttpMethod`: The methods.
* `LineState`: The states of the request line.
* `RequestParser`: The parser structure.
* `parseUrlChar`: One character of a URL.
* `lineStep`, `coreStep`, `step`: The handlers.
* `Call`: A call in progress.
* `execute`: A whole call.
-/

namespace Wrk

namespace HttpParser

namespace Request

/-- `enum http_method`. -/
inductive HttpMethod where
  | delete
  | get
  | head
  | post
  | put
  | connect
  | options
  | trace
  | copy
  | lock
  | mkcol
  | move
  | propfind
  | proppatch
  | search
  | unlock
  | bind
  | rebind
  | unbind
  | acl
  | report
  | mkactivity
  | checkout
  | merge
  | msearch
  | notify
  | subscribe
  | unsubscribe
  | patch
  | purge
  | mkcalendar
  | link
  | unlink
  deriving DecidableEq, Repr

/-- `method_strings`. -/
def methodStrings : HttpMethod → Bytes
  | .delete => bytes "DELETE"
  | .get => bytes "GET"
  | .head => bytes "HEAD"
  | .post => bytes "POST"
  | .put => bytes "PUT"
  | .connect => bytes "CONNECT"
  | .options => bytes "OPTIONS"
  | .trace => bytes "TRACE"
  | .copy => bytes "COPY"
  | .lock => bytes "LOCK"
  | .mkcol => bytes "MKCOL"
  | .move => bytes "MOVE"
  | .propfind => bytes "PROPFIND"
  | .proppatch => bytes "PROPPATCH"
  | .search => bytes "SEARCH"
  | .unlock => bytes "UNLOCK"
  | .bind => bytes "BIND"
  | .rebind => bytes "REBIND"
  | .unbind => bytes "UNBIND"
  | .acl => bytes "ACL"
  | .report => bytes "REPORT"
  | .mkactivity => bytes "MKACTIVITY"
  | .checkout => bytes "CHECKOUT"
  | .merge => bytes "MERGE"
  | .msearch => bytes "M-SEARCH"
  | .notify => bytes "NOTIFY"
  | .subscribe => bytes "SUBSCRIBE"
  | .unsubscribe => bytes "UNSUBSCRIBE"
  | .patch => bytes "PATCH"
  | .purge => bytes "PURGE"
  | .mkcalendar => bytes "MKCALENDAR"
  | .link => bytes "LINK"
  | .unlink => bytes "UNLINK"

/-- The states of `enum state` from `s_start_req` to `s_req_line_almost_done`. -/
inductive LineState where
  | startReq
  | reqMethod
  | reqSpacesBeforeUrl
  | reqSchema
  | reqSchemaSlash
  | reqSchemaSlashSlash
  | reqServerStart
  | reqServer
  | reqServerWithAt
  | reqPath
  | reqQueryStringStart
  | reqQueryString
  | reqFragmentStart
  | reqFragment
  | reqHttpStart
  | reqHttpH
  | reqHttpHT
  | reqHttpHTT
  | reqHttpHTTP
  | reqHttpMajor
  | reqHttpDot
  | reqHttpMinor
  | reqHttpEnd
  | reqLineAlmostDone
  deriving DecidableEq, Repr

/-- The `http_parser` structure of a request. Within the request line `line`
    is the state; past it the state is the one of `core`. -/
structure RequestParser where
  line : Option LineState
  method : HttpMethod
  core : HttpParser
  deriving DecidableEq, Repr

/-- `http_parser_init` with `HTTP_REQUEST`: zeroed, in the start state. -/
def requestInit : RequestParser :=
  { line := some .startReq
    method := .delete
    core := { httpParserInit with state := .headerFieldStart } }

/-- `http_message_needs_eof`, of a request. -/
def httpMessageNeedsEof (_ : HttpParser) : Bool := false

/-- `http_should_keep_alive`. -/
def httpShouldKeepAlive (q : HttpParser) : Bool :=
  if q.httpMajor > 0 && q.httpMinor > 0 then
    if q.flags.connectionClose then false else !httpMessageNeedsEof q
  else
    if !q.flags.connectionKeepAlive then false else !httpMessageNeedsEof q

/-- `UPDATE_STATE(NEW_MESSAGE())` in strict mode. -/
def newMessage (q : RequestParser) : RequestParser :=
  if httpShouldKeepAlive q.core then { q with line := some .startReq }
  else { q with line := none, core := { q.core with state := .dead } }

/-! ### Character classes -/

/-- `IS_ALPHA`. -/
def isAlpha (ch : Byte) : Bool := 'a'.toUInt8 ≤ lower ch && lower ch ≤ 'z'.toUInt8

/-- `IS_USERINFO_CHAR`. -/
def isUserinfoChar (ch : Byte) : Bool :=
  isAlpha ch || isNum ch || (bytes "-_.!~*'()").contains ch || (bytes "%;:&=+$,").contains ch

/-- `IS_URL_CHAR` in strict mode. -/
def isUrlChar (ch : Byte) : Bool :=
  33 ≤ ch && ch ≤ 126 && ch != '#'.toUInt8 && ch != '?'.toUInt8

/-! ### The request line -/

/-- The outcome of one byte. -/
structure RequestOut where
  parser : RequestParser
  ops : List Op
  verdict : Verdict
  skip : Option Nat
  deriving DecidableEq, Repr

/-- Go on in a state of the request line. -/
def toLine (q : RequestParser) (l : LineState) : RequestOut :=
  ⟨{ q with line := some l }, [], .next, none⟩

/-- Go on with the headers. -/
def toHeaders (q : RequestParser) : RequestOut :=
  ⟨{ q with line := none, core := { q.core with state := .headerFieldStart } }, [], .next, none⟩

/-- Stop with an error. -/
def refuse (q : RequestParser) (e : HttpErrno) : RequestOut := ⟨q, [], .fail e, none⟩

/-- One expected byte. -/
def expectLine (q : RequestParser) (ch wanted : Byte) (e : HttpErrno) (l : LineState) : RequestOut :=
  if ch ≠ wanted then refuse q e else toLine q l

/-- A character of a host, of the states in which one may come. -/
def serverChar (ch : Byte) : Option LineState :=
  if ch = '/'.toUInt8 then some .reqPath
  else if ch = '?'.toUInt8 then some .reqQueryStringStart
  else if ch = '@'.toUInt8 then some .reqServerWithAt
  else if isUserinfoChar ch || ch = '['.toUInt8 || ch = ']'.toUInt8 then some .reqServer
  else none

/-- `parse_url_char`; there is no result where the source returns `s_dead`. -/
def parseUrlChar (l : LineState) (ch : Byte) : Option LineState :=
  if ch = ' '.toUInt8 || ch = CR || ch = LF || ch = 9 || ch = 12 then none
  else
    match l with
    | .reqSpacesBeforeUrl =>
        if ch = '/'.toUInt8 || ch = '*'.toUInt8 then some .reqPath
        else if isAlpha ch then some .reqSchema
        else none
    | .reqSchema =>
        if isAlpha ch then some .reqSchema
        else if ch = ':'.toUInt8 then some .reqSchemaSlash
        else none
    | .reqSchemaSlash => if ch = '/'.toUInt8 then some .reqSchemaSlashSlash else none
    | .reqSchemaSlashSlash => if ch = '/'.toUInt8 then some .reqServerStart else none
    | .reqServerWithAt => if ch = '@'.toUInt8 then none else serverChar ch
    | .reqServerStart | .reqServer => serverChar ch
    | .reqPath =>
        if isUrlChar ch then some .reqPath
        else if ch = '?'.toUInt8 then some .reqQueryStringStart
        else if ch = '#'.toUInt8 then some .reqFragmentStart
        else none
    | .reqQueryStringStart | .reqQueryString =>
        if isUrlChar ch then some .reqQueryString
        else if ch = '?'.toUInt8 then some .reqQueryString
        else if ch = '#'.toUInt8 then some .reqFragmentStart
        else none
    | .reqFragmentStart =>
        if isUrlChar ch then some .reqFragment
        else if ch = '?'.toUInt8 then some .reqFragment
        else if ch = '#'.toUInt8 then some .reqFragmentStart
        else none
    | .reqFragment =>
        if isUrlChar ch then some .reqFragment
        else if ch = '?'.toUInt8 || ch = '#'.toUInt8 then some .reqFragment
        else none
    | _ => none

/-- The method a first letter suggests. -/
def firstMethod (ch : Byte) : Option HttpMethod :=
  if ch = 'A'.toUInt8 then some .acl
  else if ch = 'B'.toUInt8 then some .bind
  else if ch = 'C'.toUInt8 then some .connect
  else if ch = 'D'.toUInt8 then some .delete
  else if ch = 'G'.toUInt8 then some .get
  else if ch = 'H'.toUInt8 then some .head
  else if ch = 'L'.toUInt8 then some .lock
  else if ch = 'M'.toUInt8 then some .mkcol
  else if ch = 'N'.toUInt8 then some .notify
  else if ch = 'O'.toUInt8 then some .options
  else if ch = 'P'.toUInt8 then some .post
  else if ch = 'R'.toUInt8 then some .report
  else if ch = 'S'.toUInt8 then some .subscribe
  else if ch = 'T'.toUInt8 then some .trace
  else if ch = 'U'.toUInt8 then some .unlock
  else none

/-- The method another letter suggests instead, by the method so far and the
    letter's position. -/
def otherMethod (m : HttpMethod) (pos : Nat) (ch : Byte) : Option HttpMethod :=
  match m, pos with
  | .post, 1 =>
      if ch = 'U'.toUInt8 then some .put
      else if ch = 'A'.toUInt8 then some .patch
      else if ch = 'R'.toUInt8 then some .propfind
      else none
  | .put, 2 => if ch = 'R'.toUInt8 then some .purge else none
  | .connect, 1 => if ch = 'H'.toUInt8 then some .checkout else none
  | .connect, 2 => if ch = 'P'.toUInt8 then some .copy else none
  | .mkcol, 1 =>
      if ch = 'O'.toUInt8 then some .move
      else if ch = 'E'.toUInt8 then some .merge
      else if ch = '-'.toUInt8 then some .msearch
      else none
  | .mkcol, 2 => if ch = 'A'.toUInt8 then some .mkactivity else none
  | .mkcol, 3 => if ch = 'A'.toUInt8 then some .mkcalendar else none
  | .subscribe, 1 => if ch = 'E'.toUInt8 then some .search else none
  | .report, 2 => if ch = 'B'.toUInt8 then some .rebind else none
  | .propfind, 4 => if ch = 'P'.toUInt8 then some .proppatch else none
  | .lock, 1 => if ch = 'I'.toUInt8 then some .link else none
  | .unlock, 2 =>
      if ch = 'S'.toUInt8 then some .unsubscribe
      else if ch = 'B'.toUInt8 then some .unbind
      else none
  | .unlock, 3 => if ch = 'I'.toUInt8 then some .unlink else none
  | _, _ => none

/-- `s_start_req`. -/
def startReq (q : RequestParser) (ch : Byte) : RequestOut :=
  if ch = CR || ch = LF then toLine q .startReq
  else
    let q := { q with core := { q.core with flags := Flags.none, contentLength := ullongMax } }
    if !isAlpha ch then refuse q .invalidMethod
    else
      match firstMethod ch with
      | none => refuse { q with method := .delete, core := { q.core with index := 1 } } .invalidMethod
      | some m => toLine { q with method := m, core := { q.core with index := 1 } } .reqMethod

/-- `s_req_method`. -/
def reqMethod (q : RequestParser) (ch : Byte) : RequestOut :=
  if ch = 0 then refuse q .invalidMethod
  else
    let expected := (methodStrings q.method).getD q.core.index 0
    let counted := { q with core := { q.core with index := q.core.index + 1 } }
    if ch = ' '.toUInt8 && expected = 0 then toLine counted .reqSpacesBeforeUrl
    else if ch = expected then toLine counted .reqMethod
    else if ('A'.toUInt8 ≤ ch && ch ≤ 'Z'.toUInt8) || ch = '-'.toUInt8 then
      match otherMethod q.method q.core.index ch with
      | none => refuse q .invalidMethod
      | some m => toLine { counted with method := m } .reqMethod
    else refuse q .invalidMethod

/-- A character of a URL, or one that cannot be. -/
def urlChar (q : RequestParser) (l : LineState) (ch : Byte) : RequestOut :=
  match parseUrlChar l ch with
  | none => refuse q .invalidUrl
  | some l' => toLine q l'

/-- `s_req_spaces_before_url`. -/
def reqSpacesBeforeUrl (q : RequestParser) (ch : Byte) : RequestOut :=
  if ch = ' '.toUInt8 then toLine q .reqSpacesBeforeUrl
  else if q.method = .connect then urlChar q .reqServerStart ch
  else urlChar q .reqSpacesBeforeUrl ch

/-- The states from `s_req_server` to `s_req_fragment`: a URL that may end. -/
def reqUrl (q : RequestParser) (l : LineState) (ch : Byte) : RequestOut :=
  if ch = ' '.toUInt8 then toLine q .reqHttpStart
  else if ch = CR then
    toLine { q with core := { q.core with httpMajor := 0, httpMinor := 9 } } .reqLineAlmostDone
  else if ch = LF then
    toHeaders { q with core := { q.core with httpMajor := 0, httpMinor := 9 } }
  else urlChar q l ch

section Cases

variable (P : RequestOut → Prop) (q : RequestParser) (ch : Byte)

theorem reqSpacesBeforeUrl_rule (hspace : P (toLine q .reqSpacesBeforeUrl))
    (hurl : ∀ l, P (urlChar q l ch)) : P (reqSpacesBeforeUrl q ch) := by
  unfold reqSpacesBeforeUrl
  split_ifs
  · exact hspace
  · exact hurl _
  · exact hurl _

/-- Without a version the request is one of HTTP/0.9. -/
theorem reqUrl_rule (l : LineState) (hspace : P (toLine q .reqHttpStart))
    (hcr : P (toLine { q with core := { q.core with httpMajor := 0, httpMinor := 9 } }
      .reqLineAlmostDone))
    (hlf : P (toHeaders { q with core := { q.core with httpMajor := 0, httpMinor := 9 } }))
    (hurl : P (urlChar q l ch)) : P (reqUrl q l ch) := by
  unfold reqUrl
  split_ifs
  · exact hspace
  · exact hcr
  · exact hlf
  · exact hurl

end Cases

/-- `s_req_http_start`. -/
def reqHttpStart (q : RequestParser) (ch : Byte) : RequestOut :=
  if ch = 'H'.toUInt8 then toLine q .reqHttpH
  else if ch = ' '.toUInt8 then toLine q .reqHttpStart
  else refuse q .invalidConstant

/-- `s_req_http_major`. -/
def reqHttpMajor (q : RequestParser) (ch : Byte) : RequestOut :=
  if !isNum ch then refuse q .invalidVersion
  else toLine { q with core := { q.core with httpMajor := digit ch } } .reqHttpDot

/-- `s_req_http_minor`. -/
def reqHttpMinor (q : RequestParser) (ch : Byte) : RequestOut :=
  if !isNum ch then refuse q .invalidVersion
  else toLine { q with core := { q.core with httpMinor := digit ch } } .reqHttpEnd

/-- `s_req_http_end`. -/
def reqHttpEnd (q : RequestParser) (ch : Byte) : RequestOut :=
  if ch = CR then toLine q .reqLineAlmostDone
  else if ch = LF then toHeaders q
  else refuse q .invalidVersion

/-- `s_req_line_almost_done`. -/
def reqLineAlmostDone (q : RequestParser) (ch : Byte) : RequestOut :=
  if ch ≠ LF then refuse q .lfExpected else toHeaders q

/-- One byte of the request line. -/
def lineStep (l : LineState) (q : RequestParser) (ch : Byte) : RequestOut :=
  match l with
  | .startReq => startReq q ch
  | .reqMethod => reqMethod q ch
  | .reqSpacesBeforeUrl => reqSpacesBeforeUrl q ch
  -- No blank is allowed in these, and no URL character is one.
  | .reqSchema | .reqSchemaSlash | .reqSchemaSlashSlash | .reqServerStart => urlChar q l ch
  | .reqServer | .reqServerWithAt | .reqPath | .reqQueryStringStart | .reqQueryString
  | .reqFragmentStart | .reqFragment => reqUrl q l ch
  | .reqHttpStart => reqHttpStart q ch
  | .reqHttpH => expectLine q ch 'T'.toUInt8 .strict .reqHttpHT
  | .reqHttpHT => expectLine q ch 'T'.toUInt8 .strict .reqHttpHTT
  | .reqHttpHTT => expectLine q ch 'P'.toUInt8 .strict .reqHttpHTTP
  | .reqHttpHTTP => expectLine q ch '/'.toUInt8 .strict .reqHttpMajor
  | .reqHttpMajor => reqHttpMajor q ch
  | .reqHttpDot => expectLine q ch '.'.toUInt8 .invalidVersion .reqHttpMinor
  | .reqHttpMinor => reqHttpMinor q ch
  | .reqHttpEnd => reqHttpEnd q ch
  | .reqLineAlmostDone => reqLineAlmostDone q ch

/-! ### Headers and body -/

/-- `s_headers_done`. -/
def headersDone (m : HttpMethod) (q : HttpParser) (ch : Byte) : Out :=
  if ch ≠ LF then fail q .strict
  else
    let hasBody := q.flags.chunked || (q.contentLength > 0 && q.contentLength ≠ ullongMax)
    if q.upgrade && (m = .connect || !hasBody) then complete q [.resetNread] .always
    else if q.flags.chunked then goto q .chunkSizeStart [.resetNread]
    else if q.contentLength = 0 then complete q [.resetNread] .never
    else if q.contentLength ≠ ullongMax then goto q .bodyIdentity [.resetNread]
    else if !httpMessageNeedsEof q then complete q [.resetNread] .never
    else goto q .bodyIdentityEof [.resetNread]

/-- `s_headers_almost_done`. -/
def headersAlmostDone (m : HttpMethod) (q : HttpParser) (ch : Byte) : Out :=
  if ch ≠ LF then fail q .strict
  else if q.flags.trailing then messageDone q []
  else if q.flags.chunked && q.flags.contentLength then fail q .unexpectedContentLength
  else
    headersDone m
      { q with
        state := .headersDone
        upgrade := if q.flags.upgrade && q.flags.connectionUpgrade then true else m = .connect } ch

/-- `s_header_field_start`, as in a response but for the end of the head. -/
def headerFieldStart (m : HttpMethod) (q : HttpParser) (ch : Byte) : Out :=
  if ch = LF then headersAlmostDone m { q with state := .headersAlmostDone } ch
  else HttpParser.headerFieldStart q ch

/-- `s_header_value_lws`. -/
def headerValueLws (m : HttpMethod) (q : HttpParser) (ch : Byte) : Out :=
  if isBlank ch then headerValueStart { q with state := .headerValueStart } ch
  else headerFieldStart m { finishHeader q with state := .headerFieldStart } ch

/-- `s_header_value_discard_lws`. -/
def headerValueDiscardLws (m : HttpMethod) (q : HttpParser) (ch : Byte) : Out :=
  if isBlank ch then goto q .headerValueDiscardWs []
  else
    (headerFieldStart m { finishHeader q with state := .headerFieldStart } ch).after
      [.mark .headerValue, .emit .headerValue]

section Cases

variable (P : Out → Prop) (m : HttpMethod) (q : HttpParser) (ch : Byte)

theorem headerValueLws_rule (hfold : P (headerValueStart { q with state := .headerValueStart } ch))
    (hline : P (headerFieldStart m { finishHeader q with state := .headerFieldStart } ch)) :
    P (headerValueLws m q ch) := by
  unfold headerValueLws
  split_ifs
  · exact hfold
  · exact hline

theorem headerValueDiscardLws_rule (hfold : P (goto q .headerValueDiscardWs []))
    (hline : P ((headerFieldStart m { finishHeader q with state := .headerFieldStart } ch).after
      [.mark .headerValue, .emit .headerValue])) : P (headerValueDiscardLws m q ch) := by
  unfold headerValueDiscardLws
  split_ifs
  · exact hfold
  · exact hline

end Cases

/-- One byte past the request line. -/
def coreStep (m : HttpMethod) (q : HttpParser) (skip : Option Nat) (ch : Byte) : Out :=
  match q.state with
  | .headerFieldStart => headerFieldStart m q ch
  | .headerValueLws => headerValueLws m q ch
  | .headerValueDiscardLws => headerValueDiscardLws m q ch
  | .headersAlmostDone => headersAlmostDone m q ch
  | .headersDone => headersDone m q ch
  | .dead | .headerField | .headerValueDiscardWs | .headerValueDiscardWsAlmostDone
  | .headerValueStart | .headerValue | .headerAlmostDone | .chunkSizeStart | .chunkSize
  | .chunkParameters | .chunkSizeAlmostDone | .chunkData | .chunkDataAlmostDone | .chunkDataDone
  | .bodyIdentity | .messageDone => byteStep q skip ch
  -- The states of a response, which a parser of requests never enters.
  | _ => fail q .unknown

/-- The body of the outer loop of `http_parser_execute`, for one byte. -/
def step (q : RequestParser) (skip : Option Nat) (ch : Byte) : RequestOut :=
  match q.line with
  | some l => lineStep l q ch
  | none =>
      let o := coreStep q.method q.core skip ch
      ⟨{ q with core := o.parser }, o.ops, o.verdict, o.skip⟩

/-! ### A call -/

/-- A call of `http_parser_execute` in progress, with the local variables that
    matter here. `count` is what the callback counts, and `returned` the value
    returned once there is one. -/
structure Call where
  parser : RequestParser
  span : Option Nat
  skip : Option Nat
  count : Nat
  pos : Nat
  returned : Option Nat
  deriving DecidableEq, Repr

namespace Call

/-- The start of a call on a parser that has just been initialized. -/
def start : Call :=
  { parser := requestInit
    span := none
    skip := none
    count := 0
    pos := 0
    returned := none }

/-- `goto error`. -/
def error (x : Call) (e : HttpErrno) : Call :=
  { x with
    parser.core.httpErrno := if e = .ok then .unknown else e
    returned := some x.pos }

/-- `COUNT_HEADER_SIZE`. -/
def countHeaderSize (x : Call) (n : Nat) : Call :=
  let x := { x with parser.core.nread := x.parser.core.nread + n }
  if x.parser.core.nread > httpMaxHeaderSize then x.error .headerOverflow else x

/-- Perform one operation, unless the call has returned. There are no data
    callbacks. -/
def perform (x : Call) (op : Op) : Call :=
  if x.returned.isSome then x
  else
    match op with
    | .count => x.countHeaderSize (x.span.getD 0)
    | .resetNread => { x with parser.core.nread := 0 }
    | .mark _ | .emit _ | .emitThrough _ => x

/-- `PARSING_HEADER`. -/
def parsingHeader (q : RequestParser) : Bool := q.line.isSome || q.core.state.parsingHeader

/-- A parser that stays in a loop over the bytes of a name or a value. -/
def inside (before after : RequestParser) : Bool :=
  before.line.isNone && after.line.isNone && before.core.state = after.core.state &&
    Exec.spanState before.core.state

/-- `verify_request`, called on a message that is complete. -/
def verifyRequest (x : Call) : Call := { x with count := x.count + 1 }

/-- How a byte ends, after its operations. -/
def finish (before : RequestParser) (o : RequestOut) (x : Call) : Call :=
  match o.verdict with
  | .fail e => x.error e
  | .next =>
      { x with
        span := if inside before x.parser then some (x.span.getD 0 + 1) else none
        skip := o.skip
        pos := x.pos + 1 }
  | .complete exit =>
      let x := { x with parser := newMessage x.parser }.verifyRequest
      let stop := exit = .always || (exit = .ifUpgrade && x.parser.core.upgrade)
      { x with
        span := none
        skip := none
        pos := x.pos + 1
        returned := if stop then some (x.pos + 1) else none }

/-- One byte that is really read. -/
def read (x : Call) (ch : Byte) : Call :=
  let o := step x.parser x.skip ch
  let y := o.ops.foldl perform { x with parser := o.parser }
  if y.returned.isSome then y else y.finish x.parser o

/-- One byte, counted unless it is inside a span. -/
def byte (x : Call) (ch : Byte) : Call :=
  if x.returned.isSome then x
  else
    let x := if x.span.isNone && parsingHeader x.parser then x.countHeaderSize 1 else x
    if x.returned.isSome then x else x.read ch

/-- The bytes of the input. -/
def feed (x : Call) (data : Bytes) : Call := data.foldl byte x

/-- The end of the input: an unfinished span is counted first. -/
def finishInput (x : Call) : Call :=
  if x.returned.isSome then x
  else
    let x := match x.span with
      | none => x
      | some k => x.countHeaderSize k
    if x.returned.isSome then x else { x with returned := some x.pos }

end Call

/-- `http_parser_execute` on a parser that has just been initialized: the
    parser afterwards, the number of messages that completed, and the value
    returned. -/
def execute (data : Bytes) : RequestParser × Nat × Nat :=
  if data = [] then (requestInit, 0, 0)
  else
    let x := (Call.start.feed data).finishInput
    (x.parser, x.count, x.returned.getD 0)

end Request

end HttpParser

end Wrk
