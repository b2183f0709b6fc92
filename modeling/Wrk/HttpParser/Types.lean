import Mathlib.Algebra.Group.Nat.Defs
import Mathlib.Tactic.Common

/-!
# The HTTP Parser's Data

The `http_parser` structure, its enumerations and its character classes, and
the functions that read the structure without consuming input. This is the
half of `http_parser.c` that reads responses: every connection initializes
its parser with `HTTP_RESPONSE`, and a parser so initialized never enters a
request state. The `type` and `method` fields are therefore constant and left
out, together with the tests on them.

The parser is built in strict mode, the header's default. No field here
counts header bytes modulo `2 ^ 32`: the count is bounded by the size limit
and the length of one chunk.

## Main definitions

* `State`, `HeaderState`: Where the parser is.
* `HttpParser`: The parser structure.
* `httpParserInit`: A parser ready for a response.
* `httpMessageNeedsEof`: Whether only the end of the stream ends the body.
* `httpShouldKeepAlive`: Whether another message may follow.
* `newMessage`: The state after a message.
* `httpBodyIsFinal`: Whether the last call completed a message.
-/

namespace Wrk

namespace HttpParser

/-- A byte of input. -/
abbrev Byte := UInt8

/-- A string of bytes. -/
abbrev Bytes := List UInt8

/-- A text literal as bytes. -/
def bytes (s : String) : Bytes := s.toList.map Char.toUInt8

/-- `enum state`, without the request states. -/
inductive State where
  | dead
  | startRes
  | resH
  | resHT
  | resHTT
  | resHTTP
  | resHttpMajor
  | resHttpDot
  | resHttpMinor
  | resHttpEnd
  | resFirstStatusCode
  | resStatusCode
  | resStatusStart
  | resStatus
  | resLineAlmostDone
  | headerFieldStart
  | headerField
  | headerValueDiscardWs
  | headerValueDiscardWsAlmostDone
  | headerValueDiscardLws
  | headerValueStart
  | headerValue
  | headerValueLws
  | headerAlmostDone
  | chunkSizeStart
  | chunkSize
  | chunkParameters
  | chunkSizeAlmostDone
  | headersAlmostDone
  | headersDone
  | chunkData
  | chunkDataAlmostDone
  | chunkDataDone
  | bodyIdentity
  | bodyIdentityEof
  | messageDone
  deriving DecidableEq, Repr

/-- `PARSING_HEADER`: the states up to `s_headers_done`. -/
def State.parsingHeader : State → Bool
  | .chunkData | .chunkDataAlmostDone | .chunkDataDone | .bodyIdentity | .bodyIdentityEof
  | .messageDone => false
  | _ => true

/-- `enum header_states`. -/
inductive HeaderState where
  | general
  | c
  | co
  | con
  | matchingConnection
  | matchingProxyConnection
  | matchingContentLength
  | matchingTransferEncoding
  | matchingUpgrade
  | connection
  | contentLength
  | transferEncoding
  | upgrade
  | matchingTransferEncodingChunked
  | matchingConnectionTokenStart
  | matchingConnectionKeepAlive
  | matchingConnectionClose
  | matchingConnectionUpgrade
  | matchingConnectionToken
  | transferEncodingChunked
  | connectionKeepAlive
  | connectionClose
  | connectionUpgrade
  deriving DecidableEq, Repr

/-- The errors of `enum http_errno` that the parser itself finds in a message. -/
inductive HttpErrno where
  | ok
  | invalidEofState
  | headerOverflow
  | closedConnection
  | invalidVersion
  | invalidStatus
  | invalidMethod
  | invalidUrl
  | lfExpected
  | invalidHeaderToken
  | invalidContentLength
  | unexpectedContentLength
  | invalidChunkSize
  | invalidConstant
  | strict
  | unknown
  deriving DecidableEq, Repr

/-- The `flags` of a message. `F_SKIPBODY` is set by a callback that no
    caller here installs. -/
structure Flags where
  chunked : Bool
  connectionKeepAlive : Bool
  connectionClose : Bool
  connectionUpgrade : Bool
  trailing : Bool
  upgrade : Bool
  contentLength : Bool
  deriving DecidableEq, Repr

/-- No flag set. -/
def Flags.none : Flags := ⟨false, false, false, false, false, false, false⟩

end HttpParser

open HttpParser

/-- The `http_parser` structure. -/
structure HttpParser where
  flags : Flags
  state : State
  headerState : HeaderState
  index : Nat
  nread : Nat
  contentLength : Nat
  httpMajor : Nat
  httpMinor : Nat
  statusCode : Nat
  httpErrno : HttpErrno
  upgrade : Bool
  deriving DecidableEq, Repr

namespace HttpParser

/-- `ULLONG_MAX`, the length of a body of unknown length. -/
def ullongMax : Nat := 2 ^ 64 - 1

/-- `HTTP_MAX_HEADER_SIZE`. -/
def httpMaxHeaderSize : Nat := 80 * 1024

/-- `http_parser_init` with `HTTP_RESPONSE`: zeroed, in the start state. -/
def httpParserInit : HttpParser :=
  { flags := Flags.none
    state := .startRes
    headerState := .general
    index := 0
    nread := 0
    contentLength := 0
    httpMajor := 0
    httpMinor := 0
    statusCode := 0
    httpErrno := .ok
    upgrade := false }

/-- `http_message_needs_eof`. -/
def httpMessageNeedsEof (q : HttpParser) : Bool :=
  if q.statusCode / 100 = 1 || q.statusCode = 204 || q.statusCode = 304 then false
  else if q.flags.chunked || q.contentLength ≠ ullongMax then false
  else true

/-- `http_should_keep_alive`. -/
def httpShouldKeepAlive (q : HttpParser) : Bool :=
  if q.httpMajor > 0 && q.httpMinor > 0 then
    if q.flags.connectionClose then false else !httpMessageNeedsEof q
  else
    if !q.flags.connectionKeepAlive then false else !httpMessageNeedsEof q

/-- `NEW_MESSAGE()` in strict mode. -/
def newMessage (q : HttpParser) : State :=
  if httpShouldKeepAlive q then .startRes else .dead

/-- `http_body_is_final`. -/
def httpBodyIsFinal (q : HttpParser) : Bool := q.state = .messageDone

/-- Carriage return and line feed. -/
def CR : Byte := 13
def LF : Byte := 10

/-- `LOWER`. -/
def lower (ch : Byte) : Byte := ch ||| 0x20

/-- `IS_NUM`. -/
def isNum (ch : Byte) : Bool := '0'.toUInt8 ≤ ch && ch ≤ '9'.toUInt8

/-- The digit a numeral stands for. -/
def digit (ch : Byte) : Nat := ch.toNat - 48

/-- `IS_HEADER_CHAR`. -/
def isHeaderChar (ch : Byte) : Bool := ch == CR || ch == LF || ch == 9 || (ch > 31 && ch != 127)

/-- The `tokens` table: a token character in lower case, zero otherwise. -/
def tokens (ch : Byte) : Byte :=
  if 'A'.toUInt8 ≤ ch && ch ≤ 'Z'.toUInt8 then lower ch
  else if 'a'.toUInt8 ≤ ch && ch ≤ 'z'.toUInt8 then ch
  else if isNum ch then ch
  else if (bytes "!#$%&'*+-.^_`|~").contains ch then ch
  else 0

/-- The `unhex` table, without its `-1` entries. Its second half has no
    initializers, so that those bytes are zeros. -/
def unhex (ch : Byte) : Option Nat :=
  if isNum ch then some (digit ch)
  else if 'A'.toUInt8 ≤ ch && ch ≤ 'F'.toUInt8 then some (ch.toNat - 55)
  else if 'a'.toUInt8 ≤ ch && ch ≤ 'f'.toUInt8 then some (ch.toNat - 87)
  else if 128 ≤ ch then some 0
  else none

end HttpParser

end Wrk
