import Wrk.HttpParser.Types

/-!
# One Byte of a Response

What `http_parser_execute` does with one byte, state by state, apart from
counting header bytes and calling back. The source's loops over several bytes
of a header name, a header value or a body stay in one state, so a pass
through such a loop is one byte in that state. Its `goto reexecute` is a call
of the handler it jumps to; the jumps never form a cycle.

A handler returns the parser after the byte and a list of operations that the
caller performs in order, since their outcome does not depend on anything the
handler reads: counting the bytes of a finished span, clearing the count,
setting a mark, and handing marked bytes to a callback. The verdict says how
the byte ends. A message is completed only as a byte's last act.

Once a value is known to be of no interest, the source jumps to the end of
its line without looking at the bytes between. The argument `skip` is the
number of bytes such a jump may still look at before it gives up on the rest
of the chunk, and is absent when every byte is checked.

## Main definitions

* `Op`: An operation for the caller to perform.
* `Verdict`: How a byte ends.
* `Out`: The outcome of one byte.
* `byteStep`: The handler of each state.

## Theorems

* `resStatusCode_rule`, `headerValueDiscardWs_rule`, `headerValueLws_rule`,
  `headerValueDiscardLws_rule`, `chunkSizeStart_rule`, `chunkSize_rule`:
  Handlers by cases.
-/

namespace Wrk

namespace HttpParser

/-- The data a callback can be given, by the name of its mark. -/
inductive Mark where
  | headerField
  | headerValue
  | body
  deriving DecidableEq, Repr

/-- What the caller performs for a byte. -/
inductive Op where
  /-- `COUNT_HEADER_SIZE(p - start)`. -/
  | count
  /-- `parser->nread = 0`. -/
  | resetNread
  /-- `MARK`. -/
  | mark (m : Mark)
  /-- `CALLBACK_DATA`, with the marked bytes before this one. -/
  | emit (m : Mark)
  /-- The same with this byte included. -/
  | emitThrough (m : Mark)
  deriving DecidableEq, Repr

/-- When the parser stops reading after a message. -/
inductive Exit where
  | always
  | ifUpgrade
  | never
  deriving DecidableEq, Repr

/-- How a byte ends: the next one is read, a message is complete, or the
    parser is in error. -/
inductive Verdict where
  | next
  | complete (exit : Exit)
  | fail (e : HttpErrno)
  deriving DecidableEq, Repr

/-- The outcome of one byte. -/
structure Out where
  parser : HttpParser
  ops : List Op
  verdict : Verdict
  skip : Option Nat
  deriving DecidableEq, Repr

/-- Go on with the next byte. -/
def advance (q : HttpParser) (ops : List Op) : Out := ⟨q, ops, .next, none⟩

/-- Go on in another state. -/
def goto (q : HttpParser) (s : State) (ops : List Op) : Out := advance { q with state := s } ops

/-- Stop with an error. -/
def fail (q : HttpParser) (e : HttpErrno) : Out := ⟨q, [], .fail e, none⟩

/-- The message is complete. -/
def complete (q : HttpParser) (ops : List Op) (exit : Exit) : Out := ⟨q, ops, .complete exit, none⟩

/-- Perform operations before those of an outcome. -/
def Out.after (ops : List Op) (o : Out) : Out := { o with ops := ops ++ o.ops }

/-- `STRICT_CHECK`: one expected byte. -/
def expect (q : HttpParser) (ch wanted : Byte) (e : HttpErrno) (s : State) : Out :=
  if ch ≠ wanted then fail q e else goto q s []

/-- The words header names and values are compared with. -/
def PROXY_CONNECTION : Bytes := bytes "proxy-connection"
def CONNECTION : Bytes := bytes "connection"
def CONTENT_LENGTH : Bytes := bytes "content-length"
def TRANSFER_ENCODING : Bytes := bytes "transfer-encoding"
def UPGRADE : Bytes := bytes "upgrade"
def CHUNKED : Bytes := bytes "chunked"
def KEEP_ALIVE : Bytes := bytes "keep-alive"
def CLOSE : Bytes := bytes "close"

/-- Compare one more character of a word. -/
def matching (q : HttpParser) (word : Bytes) (c : Byte) (found mismatch : HeaderState) :
    HttpParser :=
  let index := q.index + 1
  -- Past the end of the word there is its zero byte, which no token is.
  if index > word.length || c ≠ word.getD index 0 then
    { q with index := index, headerState := mismatch }
  else if index = word.length - 1 then { q with index := index, headerState := found }
  else { q with index := index }

/-- `s_start_res`. -/
def startRes (q : HttpParser) (ch : Byte) : Out :=
  let q := { q with flags := Flags.none, contentLength := ullongMax }
  if ch = 'H'.toUInt8 then goto q .resH []
  -- Empty lines before a response are passed over.
  else if ch = CR || ch = LF then advance q []
  else fail q .invalidConstant

/-- `s_res_http_major`. -/
def resHttpMajor (q : HttpParser) (ch : Byte) : Out :=
  if !isNum ch then fail q .invalidVersion else goto { q with httpMajor := digit ch } .resHttpDot []

/-- `s_res_http_minor`. -/
def resHttpMinor (q : HttpParser) (ch : Byte) : Out :=
  if !isNum ch then fail q .invalidVersion else goto { q with httpMinor := digit ch } .resHttpEnd []

/-- `s_res_first_status_code`. -/
def resFirstStatusCode (q : HttpParser) (ch : Byte) : Out :=
  if !isNum ch then
    -- More spaces may stand before the status.
    if ch = ' '.toUInt8 then advance q [] else fail q .invalidStatus
  else goto { q with statusCode := digit ch } .resStatusCode []

/-- `s_res_status`. -/
def resStatus (q : HttpParser) (ch : Byte) : Out :=
  if ch = CR then goto q .resLineAlmostDone []
  else if ch = LF then goto q .headerFieldStart []
  else advance q []

/-- `s_res_status_start`. -/
def resStatusStart (q : HttpParser) (ch : Byte) : Out :=
  let q := { q with state := .resStatus, index := 0 }
  -- An end of line is read again in the next state.
  if ch = CR || ch = LF then resStatus q ch else advance q []

/-- `s_res_status_code`. -/
def resStatusCode (q : HttpParser) (ch : Byte) : Out :=
  if !isNum ch then
    if ch = ' '.toUInt8 then goto q .resStatusStart []
    else if ch = CR || ch = LF then resStatusStart { q with state := .resStatusStart } ch
    else fail q .invalidStatus
  else
    let q := { q with statusCode := q.statusCode * 10 + digit ch }
    if q.statusCode > 999 then fail q .invalidStatus else advance q []

/-- `s_message_done`. -/
def messageDone (q : HttpParser) (ops : List Op) : Out :=
  complete { q with state := .messageDone } ops .ifUpgrade

/-- `s_headers_done`. -/
def headersDone (q : HttpParser) (ch : Byte) : Out :=
  if ch ≠ LF then fail q .strict
  else
    let hasBody := q.flags.chunked || (q.contentLength > 0 && q.contentLength ≠ ullongMax)
    -- A switch of protocols: what follows is not the parser's to read.
    if q.upgrade && !hasBody then complete q [.resetNread] .always
    else if q.flags.chunked then goto q .chunkSizeStart [.resetNread]
    else if q.contentLength = 0 then complete q [.resetNread] .never
    else if q.contentLength ≠ ullongMax then goto q .bodyIdentity [.resetNread]
    -- Neither chunks nor a length.
    else if !httpMessageNeedsEof q then complete q [.resetNread] .never
    else goto q .bodyIdentityEof [.resetNread]

/-- `s_headers_almost_done`. -/
def headersAlmostDone (q : HttpParser) (ch : Byte) : Out :=
  if ch ≠ LF then fail q .strict
  -- The fields were a trailer.
  else if q.flags.trailing then messageDone q []
  -- A length is refused together with chunks.
  else if q.flags.chunked && q.flags.contentLength then fail q .unexpectedContentLength
  else
    headersDone
      { q with
        state := .headersDone
        upgrade := q.flags.upgrade && q.flags.connectionUpgrade && q.statusCode = 101 } ch

/-- `s_header_field_start`. -/
def headerFieldStart (q : HttpParser) (ch : Byte) : Out :=
  if ch = CR then goto q .headersAlmostDone []
  else if ch = LF then headersAlmostDone { q with state := .headersAlmostDone } ch
  else if tokens ch = 0 then fail q .invalidHeaderToken
  else
    let c := tokens ch
    let headerState : HeaderState :=
      if c = 'c'.toUInt8 then .c
      else if c = 'p'.toUInt8 then .matchingProxyConnection
      else if c = 't'.toUInt8 then .matchingTransferEncoding
      else if c = 'u'.toUInt8 then .matchingUpgrade
      else .general
    goto { q with index := 0, headerState := headerState } .headerField [.mark .headerField]

/-- The `header_state` after one more character of a name. -/
def headerFieldChar (q : HttpParser) (ch c : Byte) : HttpParser :=
  match q.headerState with
  | .c =>
      { q with
        index := q.index + 1
        headerState := if c = 'o'.toUInt8 then .co else .general }
  | .co =>
      { q with
        index := q.index + 1
        headerState := if c = 'n'.toUInt8 then .con else .general }
  | .con =>
      { q with
        index := q.index + 1
        headerState :=
          if c = 'n'.toUInt8 then .matchingConnection
          else if c = 't'.toUInt8 then .matchingContentLength
          else .general }
  | .matchingConnection => matching q CONNECTION c .connection .general
  | .matchingProxyConnection => matching q PROXY_CONNECTION c .connection .general
  | .matchingContentLength => matching q CONTENT_LENGTH c .contentLength .general
  | .matchingTransferEncoding => matching q TRANSFER_ENCODING c .transferEncoding .general
  | .matchingUpgrade => matching q UPGRADE c .upgrade .general
  | .connection | .contentLength | .transferEncoding | .upgrade =>
      -- The name was complete, and may only be followed by spaces.
      if ch ≠ ' '.toUInt8 then { q with headerState := .general } else q
  | _ => q

/-- `s_header_field`, one character of a name or its end. -/
def headerField (q : HttpParser) (ch : Byte) : Out :=
  if tokens ch ≠ 0 then advance (headerFieldChar q ch (tokens ch)) []
  else if ch = ':'.toUInt8 then goto q .headerValueDiscardWs [.count, .emit .headerField]
  else (fail q .invalidHeaderToken).after [.count]

/-- `s_header_value_start`. -/
def headerValueStart (q : HttpParser) (ch : Byte) : Out :=
  let q := { q with state := .headerValue, index := 0 }
  let c := lower ch
  match q.headerState with
  | .upgrade =>
      advance { q with flags := { q.flags with upgrade := true }, headerState := .general }
        [.mark .headerValue]
  | .transferEncoding =>
      advance
        { q with
          headerState :=
            if c = 'c'.toUInt8 then .matchingTransferEncodingChunked else .general }
        [.mark .headerValue]
  | .contentLength =>
      if !isNum ch then fail q .invalidContentLength
      -- A second length.
      else if q.flags.contentLength then fail q .unexpectedContentLength
      else
        advance
          { q with
            flags := { q.flags with contentLength := true }
            contentLength := digit ch }
          [.mark .headerValue]
  | .connection =>
      advance
        { q with
          headerState :=
            if c = 'k'.toUInt8 then .matchingConnectionKeepAlive
            else if c = 'c'.toUInt8 then .matchingConnectionClose
            else if c = 'u'.toUInt8 then .matchingConnectionUpgrade
            else .matchingConnectionToken }
        [.mark .headerValue]
  | .matchingConnectionTokenStart => advance q [.mark .headerValue]
  | _ => advance { q with headerState := .general } [.mark .headerValue]

/-- A list element of a `Connection` header ends, or goes on past its
    keyword. -/
def connectionKeyword (q : HttpParser) (flags : Flags) (ch : Byte) : HttpParser :=
  if ch = ','.toUInt8 then
    { q with flags := flags, headerState := .matchingConnectionTokenStart, index := 0 }
  else if ch ≠ ' '.toUInt8 then { q with headerState := .matchingConnectionToken }
  else q

/-- The `h_state` after one more character of a value. -/
def headerValueChar (q : HttpParser) (ch : Byte) : Out :=
  let c := lower ch
  match q.headerState with
  -- The end of the line is searched for, up to the limit on a header.
  | .general => ⟨q, [], .next, some (httpMaxHeaderSize - 1)⟩
  | .contentLength =>
      if ch = ' '.toUInt8 then advance q []
      else if !isNum ch then fail q .invalidContentLength
      -- Another digit might not fit.
      else if (ullongMax - 10) / 10 < q.contentLength then fail q .invalidContentLength
      else advance { q with contentLength := q.contentLength * 10 + digit ch } []
  | .matchingTransferEncodingChunked =>
      advance (matching q CHUNKED c .transferEncodingChunked .general) []
  | .matchingConnectionTokenStart =>
      advance
        { q with
          headerState :=
            if c = 'k'.toUInt8 then .matchingConnectionKeepAlive
            else if c = 'c'.toUInt8 then .matchingConnectionClose
            else if c = 'u'.toUInt8 then .matchingConnectionUpgrade
            else if tokens c ≠ 0 then .matchingConnectionToken
            else if c = ' '.toUInt8 || c = 9 then .matchingConnectionTokenStart
            else .general } []
  | .matchingConnectionKeepAlive =>
      advance (matching q KEEP_ALIVE c .connectionKeepAlive .matchingConnectionToken) []
  | .matchingConnectionClose =>
      advance (matching q CLOSE c .connectionClose .matchingConnectionToken) []
  | .matchingConnectionUpgrade =>
      advance (matching q UPGRADE c .connectionUpgrade .matchingConnectionToken) []
  | .matchingConnectionToken =>
      if ch = ','.toUInt8 then
        advance { q with headerState := .matchingConnectionTokenStart, index := 0 } []
      else advance q []
  | .transferEncodingChunked =>
      if ch ≠ ' '.toUInt8 then advance { q with headerState := .general } [] else advance q []
  | .connectionKeepAlive =>
      advance (connectionKeyword q { q.flags with connectionKeepAlive := true } ch) []
  | .connectionClose =>
      advance (connectionKeyword q { q.flags with connectionClose := true } ch) []
  | .connectionUpgrade =>
      advance (connectionKeyword q { q.flags with connectionUpgrade := true } ch) []
  -- An assertion in the source: the start of a value leaves neither state.
  | .connection | .transferEncoding => advance q []
  | _ => advance { q with headerState := .general } []

/-- `s_header_almost_done`. -/
def headerAlmostDone (q : HttpParser) (ch : Byte) : Out :=
  expect q ch LF .lfExpected .headerValueLws

/-- `s_header_value`, one byte of a value or its end. -/
def headerValue (q : HttpParser) (skip : Option Nat) (ch : Byte) : Out :=
  -- The search has failed, and what is left of the chunk is passed over.
  if skip = some 0 then ⟨q, [], .next, some 0⟩
  else if ch = CR then goto q .headerAlmostDone [.emit .headerValue, .count]
  else if ch = LF then
    (headerAlmostDone { q with state := .headerAlmostDone } ch).after [.count, .emit .headerValue]
  else
    match skip with
    | some k => ⟨q, [], .next, some (k - 1)⟩
    | none => if !isHeaderChar ch then fail q .invalidHeaderToken else headerValueChar q ch

/-- The flags a finished header sets. -/
def finishHeader (q : HttpParser) : HttpParser :=
  match q.headerState with
  | .connectionKeepAlive => { q with flags := { q.flags with connectionKeepAlive := true } }
  | .connectionClose => { q with flags := { q.flags with connectionClose := true } }
  | .transferEncodingChunked => { q with flags := { q.flags with chunked := true } }
  | .connectionUpgrade => { q with flags := { q.flags with connectionUpgrade := true } }
  | _ => q

/-- A space or a tab, which continues a header on the next line. -/
def isBlank (ch : Byte) : Bool := ch = ' '.toUInt8 || ch = 9

/-- `s_header_value_discard_ws`. -/
def headerValueDiscardWs (q : HttpParser) (ch : Byte) : Out :=
  if isBlank ch then advance q []
  else if ch = CR then goto q .headerValueDiscardWsAlmostDone []
  else if ch = LF then goto q .headerValueDiscardLws []
  else headerValueStart q ch

/-- `s_header_value_lws`. -/
def headerValueLws (q : HttpParser) (ch : Byte) : Out :=
  -- The value goes on after a fold.
  if isBlank ch then headerValueStart { q with state := .headerValueStart } ch
  else headerFieldStart { finishHeader q with state := .headerFieldStart } ch

/-- `s_header_value_discard_lws`. -/
def headerValueDiscardLws (q : HttpParser) (ch : Byte) : Out :=
  if isBlank ch then goto q .headerValueDiscardWs []
  else
    -- The header had no value, and is reported with an empty one.
    (headerFieldStart { finishHeader q with state := .headerFieldStart } ch).after
      [.mark .headerValue, .emit .headerValue]

/-- `s_body_identity`, one byte. -/
def bodyIdentity (q : HttpParser) : Out :=
  let q := { q with contentLength := q.contentLength - 1 }
  if q.contentLength = 0 then messageDone q [.mark .body, .emitThrough .body]
  else advance q [.mark .body]

/-- `s_chunk_size_start`. -/
def chunkSizeStart (q : HttpParser) (ch : Byte) : Out :=
  match unhex ch with
  | none => fail q .invalidChunkSize
  | some v => goto { q with contentLength := v } .chunkSize []

/-- `s_chunk_size`. -/
def chunkSize (q : HttpParser) (ch : Byte) : Out :=
  if ch = CR then goto q .chunkSizeAlmostDone []
  else
    match unhex ch with
    | none =>
        if ch = ';'.toUInt8 || ch = ' '.toUInt8 then goto q .chunkParameters []
        else fail q .invalidChunkSize
    | some v =>
        if (ullongMax - 16) / 16 < q.contentLength then fail q .invalidContentLength
        else advance { q with contentLength := q.contentLength * 16 + v } []

/-- `s_chunk_size_almost_done`. -/
def chunkSizeAlmostDone (q : HttpParser) (ch : Byte) : Out :=
  if ch ≠ LF then fail q .strict
  else if q.contentLength = 0 then
    -- The last chunk is followed by a trailer.
    goto { q with flags := { q.flags with trailing := true } } .headerFieldStart [.resetNread]
  else goto q .chunkData [.resetNread]

/-- `s_chunk_data`, one byte. -/
def chunkData (q : HttpParser) : Out :=
  let q := { q with contentLength := q.contentLength - 1 }
  if q.contentLength = 0 then goto q .chunkDataAlmostDone [.mark .body]
  else advance q [.mark .body]

/-- `s_chunk_data_almost_done`. -/
def chunkDataAlmostDone (q : HttpParser) (ch : Byte) : Out :=
  if ch ≠ CR then fail q .strict else goto q .chunkDataDone [.emit .body]

/-- `s_chunk_data_done`. -/
def chunkDataDone (q : HttpParser) (ch : Byte) : Out :=
  if ch ≠ LF then fail q .strict else goto q .chunkSizeStart [.resetNread]

/-- The body of the outer loop of `http_parser_execute`, for one byte. -/
def byteStep (q : HttpParser) (skip : Option Nat) (ch : Byte) : Out :=
  match q.state with
  | .dead => if ch = CR || ch = LF then advance q [] else fail q .closedConnection
  | .startRes => startRes q ch
  | .resH => expect q ch 'T'.toUInt8 .strict .resHT
  | .resHT => expect q ch 'T'.toUInt8 .strict .resHTT
  | .resHTT => expect q ch 'P'.toUInt8 .strict .resHTTP
  | .resHTTP => expect q ch '/'.toUInt8 .strict .resHttpMajor
  | .resHttpMajor => resHttpMajor q ch
  | .resHttpDot => expect q ch '.'.toUInt8 .invalidVersion .resHttpMinor
  | .resHttpMinor => resHttpMinor q ch
  | .resHttpEnd => expect q ch ' '.toUInt8 .invalidVersion .resFirstStatusCode
  | .resFirstStatusCode => resFirstStatusCode q ch
  | .resStatusCode => resStatusCode q ch
  | .resStatusStart => resStatusStart q ch
  | .resStatus => resStatus q ch
  | .resLineAlmostDone => expect q ch LF .strict .headerFieldStart
  | .headerFieldStart => headerFieldStart q ch
  | .headerField => headerField q ch
  | .headerValueDiscardWs => headerValueDiscardWs q ch
  | .headerValueDiscardWsAlmostDone => expect q ch LF .strict .headerValueDiscardLws
  | .headerValueDiscardLws => headerValueDiscardLws q ch
  | .headerValueStart => headerValueStart q ch
  | .headerValue => headerValue q skip ch
  | .headerValueLws => headerValueLws q ch
  | .headerAlmostDone => headerAlmostDone q ch
  | .chunkSizeStart => chunkSizeStart q ch
  | .chunkSize => chunkSize q ch
  | .chunkParameters => if ch = CR then goto q .chunkSizeAlmostDone [] else advance q []
  | .chunkSizeAlmostDone => chunkSizeAlmostDone q ch
  | .headersAlmostDone => headersAlmostDone q ch
  | .headersDone => headersDone q ch
  | .chunkData => chunkData q
  | .chunkDataAlmostDone => chunkDataAlmostDone q ch
  | .chunkDataDone => chunkDataDone q ch
  | .bodyIdentity => bodyIdentity q
  | .bodyIdentityEof => advance q [.mark .body]
  | .messageDone => messageDone q []

/-! ### Handlers by cases -/

section Cases

variable (P : Out → Prop) (q : HttpParser) (ch : Byte)

/-- What is true of every outcome of a handler is true of the handler. -/
theorem resStatusCode_rule (hspace : P (goto q .resStatusStart []))
    (hend : P (resStatusStart { q with state := .resStatusStart } ch))
    (hbad : ∀ p, p.state = q.state → P (fail p .invalidStatus))
    (hdigit : P (advance { q with statusCode := q.statusCode * 10 + digit ch } [])) :
    P (resStatusCode q ch) := by
  unfold resStatusCode
  dsimp only
  split_ifs
  · exact hspace
  · exact hend
  · exact hbad q rfl
  · exact hbad _ rfl
  · exact hdigit

theorem headerValueDiscardWs_rule (hblank : P (advance q []))
    (hcr : P (goto q .headerValueDiscardWsAlmostDone []))
    (hlf : P (goto q .headerValueDiscardLws [])) (hstart : P (headerValueStart q ch)) :
    P (headerValueDiscardWs q ch) := by
  unfold headerValueDiscardWs
  split_ifs
  · exact hblank
  · exact hcr
  · exact hlf
  · exact hstart

theorem headerValueLws_rule (hfold : P (headerValueStart { q with state := .headerValueStart } ch))
    (hline : P (headerFieldStart { finishHeader q with state := .headerFieldStart } ch)) :
    P (headerValueLws q ch) := by
  unfold headerValueLws
  split_ifs
  · exact hfold
  · exact hline

theorem headerValueDiscardLws_rule (hfold : P (goto q .headerValueDiscardWs []))
    (hline : P ((headerFieldStart { finishHeader q with state := .headerFieldStart } ch).after
      [.mark .headerValue, .emit .headerValue])) : P (headerValueDiscardLws q ch) := by
  unfold headerValueDiscardLws
  split_ifs
  · exact hfold
  · exact hline

theorem chunkSizeStart_rule (hbad : P (fail q .invalidChunkSize))
    (hdigit : ∀ v, P (goto { q with contentLength := v } .chunkSize [])) :
    P (chunkSizeStart q ch) := by
  unfold chunkSizeStart
  cases unhex ch with
  | none => exact hbad
  | some v => exact hdigit v

theorem chunkSize_rule (hend : P (goto q .chunkSizeAlmostDone []))
    (hext : P (goto q .chunkParameters [])) (hbad : ∀ e, P (fail q e))
    (hdigit : ∀ v, P (advance { q with contentLength := v } [])) : P (chunkSize q ch) := by
  unfold chunkSize
  by_cases hcr : ch = CR
  · rw [if_pos hcr]
    exact hend
  · rw [if_neg hcr]
    cases unhex ch with
    | none =>
        dsimp only
        split_ifs
        · exact hext
        · exact hbad _
    | some v =>
        dsimp only
        split_ifs
        · exact hbad _
        · exact hdigit _

end Cases

end HttpParser

end Wrk
