import Wrk.HttpParser.Step

/-!
# What Handlers Leave Alone

The handlers of headers and bodies do not look at the status, and none touches
the error number: what they object to is in their verdict, and the call stores
it.

## Main definitions

* `kept`: The status and the error number.

## Theorems

* `headerField_kept`, `headerValueStart_kept`, `headerValue_kept`: The handlers
  of a header.
* `byteStep_errno`: No handler touches the error number.
-/

namespace Wrk

namespace HttpParser

/-- What no handler changes: the status, and the error until it objects. -/
def kept (q : HttpParser) : Nat × HttpErrno := (q.statusCode, q.httpErrno)

theorem matching_kept (q : HttpParser) (word : Bytes) (c : Byte) (found mismatch : HeaderState) :
    kept (matching q word c found mismatch) = kept q := by
  unfold matching
  dsimp only
  split_ifs <;> rfl

theorem headerFieldChar_kept (q : HttpParser) (ch c : Byte) :
    kept (headerFieldChar q ch c) = kept q := by
  unfold headerFieldChar
  split
  all_goals first
    | rfl
    | exact matching_kept _ _ _ _ _
    | (split_ifs <;> rfl)

theorem headerField_kept (q : HttpParser) (ch : Byte) :
    kept (headerField q ch).parser = kept q := by
  unfold headerField
  split_ifs
  · exact headerFieldChar_kept q ch _
  · rfl
  · rfl

theorem headerValueStart_kept (q : HttpParser) (ch : Byte) :
    kept (headerValueStart q ch).parser = kept q := by
  unfold headerValueStart
  dsimp only
  split
  all_goals first
    | rfl
    | (split_ifs <;> rfl)

theorem connectionKeyword_kept (q : HttpParser) (flags : Flags) (ch : Byte) :
    kept (connectionKeyword q flags ch) = kept q := by
  unfold connectionKeyword
  split_ifs <;> rfl

theorem headerValueChar_kept (q : HttpParser) (ch : Byte) :
    kept (headerValueChar q ch).parser = kept q := by
  unfold headerValueChar
  dsimp only
  split
  all_goals first
    | rfl
    | exact matching_kept _ _ _ _ _
    | exact connectionKeyword_kept _ _ _
    | (split_ifs <;> rfl)

theorem headerValue_kept (q : HttpParser) (skip : Option Nat) (ch : Byte) :
    kept (headerValue q skip ch).parser = kept q := by
  unfold headerValue headerAlmostDone expect
  cases skip with
  | some k => split_ifs <;> rfl
  | none =>
      split_ifs
      all_goals first
        | rfl
        | exact headerValueChar_kept q ch

theorem finishHeader_kept (q : HttpParser) : kept (finishHeader q) = kept q := by
  unfold finishHeader
  split <;> rfl

/-! ### The error number -/

theorem headersDone_errno (q : HttpParser) (ch : Byte) :
    (headersDone q ch).parser.httpErrno = q.httpErrno := by
  unfold headersDone
  dsimp only
  split_ifs <;> rfl

theorem headersAlmostDone_errno (q : HttpParser) (ch : Byte) :
    (headersAlmostDone q ch).parser.httpErrno = q.httpErrno := by
  unfold headersAlmostDone
  split_ifs
  · rfl
  · rfl
  · rfl
  · exact headersDone_errno _ ch

theorem headerFieldStart_errno (q : HttpParser) (ch : Byte) :
    (headerFieldStart q ch).parser.httpErrno = q.httpErrno := by
  unfold headerFieldStart
  split_ifs
  · rfl
  · exact headersAlmostDone_errno _ ch
  · rfl
  · rfl

theorem errno_of_kept (q q' : HttpParser) (h : kept q' = kept q) : q'.httpErrno = q.httpErrno :=
  congrArg Prod.snd h

/-- No handler touches the error number. -/
theorem byteStep_errno (q : HttpParser) (skip : Option Nat) (ch : Byte) :
    (byteStep q skip ch).parser.httpErrno = q.httpErrno := by
  unfold byteStep
  cases q.state with
  | headerFieldStart => exact headerFieldStart_errno q ch
  | headersAlmostDone => exact headersAlmostDone_errno q ch
  | headersDone => exact headersDone_errno q ch
  | headerField => exact errno_of_kept _ _ (headerField_kept q ch)
  | headerValueStart => exact errno_of_kept _ _ (headerValueStart_kept q ch)
  | headerValue => exact errno_of_kept _ _ (headerValue_kept q skip ch)
  | headerValueLws =>
      -- Where a line begins, the byte is handled again in the state it leads to.
      refine headerValueLws_rule (fun o => o.parser.httpErrno = q.httpErrno) q ch ?_ ?_
      · exact errno_of_kept _ _ (headerValueStart_kept { q with state := .headerValueStart } ch)
      · exact (headerFieldStart_errno _ ch).trans (errno_of_kept _ _ (finishHeader_kept q))
  | headerValueDiscardLws =>
      refine headerValueDiscardLws_rule (fun o => o.parser.httpErrno = q.httpErrno) q ch rfl ?_
      exact (headerFieldStart_errno _ ch).trans (errno_of_kept _ _ (finishHeader_kept q))
  | headerValueDiscardWs =>
      exact headerValueDiscardWs_rule (fun o => o.parser.httpErrno = q.httpErrno) q ch rfl rfl rfl
        (errno_of_kept _ _ (headerValueStart_kept q ch))
  | chunkSizeStart =>
      exact chunkSizeStart_rule (fun o => o.parser.httpErrno = q.httpErrno) q ch rfl (fun _ => rfl)
  | chunkSize =>
      exact chunkSize_rule (fun o => o.parser.httpErrno = q.httpErrno) q ch rfl rfl (fun _ => rfl)
        (fun _ => rfl)
  | resStatusCode =>
      dsimp only [resStatusCode, resStatusStart, resStatus]
      split_ifs <;> rfl
  | _ =>
      dsimp only [startRes, resHttpMajor, resHttpMinor, resFirstStatusCode, resStatusStart,
        resStatus, headerAlmostDone, expect, chunkSizeAlmostDone, chunkData, chunkDataAlmostDone,
        chunkDataDone, bodyIdentity]
      first
        | rfl
        | (split_ifs <;> rfl)

end HttpParser

end Wrk
