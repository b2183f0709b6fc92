import Wrk.HttpParser.Count
import Wrk.HttpParser.Frame
import Wrk.HttpParser.Request

/-!
# What a Request Leaves Behind

A parser that comes back to its start state is not the one it was initialized
as: the version, the kind of the last header and the count of header bytes of
the request before are still there. None of it is read before it is set again.
The function `settle` forgets what a state does not know yet, and a handler
may settle its parser first without changing what comes of it.

The method, the flags and the length of the body are set by the first byte of
a request. A request that leaves its upgrade set is the last one a call reads,
so this field is clear whenever a call goes on.

## Main definitions

* `settle`: A parser without what its state does not know.

## Theorems

* `step_counted`: No handler reads the count.
* `step_settle`: A handler may settle its parser first.
* `step_frame`: What no handler changes.
* `step_next_start`, `step_complete`: How the start state is reached.
-/

namespace Wrk

namespace HttpParser

namespace Request

/-- The parser with another count of header bytes. -/
def counted (n : Nat) (q : RequestParser) : RequestParser :=
  { q with core := HttpParser.counted n q.core }

/-- An outcome with another count. -/
def RequestOut.counted (n : Nat) (o : RequestOut) : RequestOut :=
  { o with parser := Request.counted n o.parser }

/-! ### No handler reads the count -/

theorem headersDone_counted (n : Nat) (m : HttpMethod) (q : HttpParser) (ch : Byte) :
    headersDone m (HttpParser.counted n q) ch = (headersDone m q ch).counted n := by
  simp only [headersDone, apply_ite (Out.counted n)]
  rfl

theorem headersAlmostDone_counted (n : Nat) (m : HttpMethod) (q : HttpParser) (ch : Byte) :
    headersAlmostDone m (HttpParser.counted n q) ch = (headersAlmostDone m q ch).counted n := by
  simp only [headersAlmostDone, apply_ite (Out.counted n), ← headersDone_counted]
  rfl

theorem headerFieldStart_counted (n : Nat) (m : HttpMethod) (q : HttpParser) (ch : Byte) :
    headerFieldStart m (HttpParser.counted n q) ch = (headerFieldStart m q ch).counted n := by
  simp only [headerFieldStart, apply_ite (Out.counted n), ← headersAlmostDone_counted,
    ← HttpParser.headerFieldStart_counted]
  rfl

theorem coreStep_counted (n : Nat) (m : HttpMethod) (q : HttpParser) (skip : Option Nat)
    (ch : Byte) :
    coreStep m (HttpParser.counted n q) skip ch = (coreStep m q skip ch).counted n := by
  unfold coreStep
  rw [show (HttpParser.counted n q).state = q.state from rfl]
  cases q.state with
  | headersDone => exact headersDone_counted n m q ch
  | headersAlmostDone => exact headersAlmostDone_counted n m q ch
  | headerFieldStart => exact headerFieldStart_counted n m q ch
  | headerValueLws =>
      simp only [headerValueLws, finishHeader_counted, apply_ite (Out.counted n),
        ← headerValueStart_counted, ← headerFieldStart_counted]
      rfl
  | headerValueDiscardLws =>
      simp only [headerValueDiscardLws, finishHeader_counted, apply_ite (Out.counted n),
        ← after_counted, ← headerFieldStart_counted]
      rfl
  -- The other states are those of a response.
  | _ => first | rfl | exact byteStep_counted n q skip ch

theorem lineStep_counted (n : Nat) (l : LineState) (q : RequestParser) (ch : Byte) :
    lineStep l (counted n q) ch = (lineStep l q ch).counted n := by
  -- The states of the URL differ in nothing but where they lead.
  have hurl : ∀ l', urlChar (counted n q) l' ch = (urlChar q l' ch).counted n := by
    intro l'
    unfold urlChar
    cases parseUrlChar l' ch <;> rfl
  cases l with
  | startReq =>
      simp only [lineStep, startReq, apply_ite (RequestOut.counted n)]
      cases firstMethod ch <;> rfl
  | reqMethod =>
      simp only [lineStep, reqMethod, apply_ite (RequestOut.counted n)]
      rw [show (counted n q).method = q.method from rfl,
        show (counted n q).core.index = q.core.index from rfl]
      cases otherMethod q.method q.core.index ch <;> rfl
  | reqSpacesBeforeUrl =>
      simp only [lineStep, reqSpacesBeforeUrl, apply_ite (RequestOut.counted n), ← hurl]
      rfl
  | reqSchema | reqSchemaSlash | reqSchemaSlashSlash | reqServerStart => exact hurl _
  | reqServer | reqServerWithAt | reqPath | reqQueryStringStart | reqQueryString
  | reqFragmentStart | reqFragment =>
      simp only [lineStep, reqUrl, apply_ite (RequestOut.counted n), ← hurl]
      rfl
  | _ =>
      simp only [lineStep, reqHttpStart, expectLine, reqHttpMajor, reqHttpMinor, reqHttpEnd,
        reqLineAlmostDone, apply_ite (RequestOut.counted n)]
      rfl

/-- No handler reads the count of header bytes. -/
theorem step_counted (n : Nat) (q : RequestParser) (skip : Option Nat) (ch : Byte) :
    step (counted n q) skip ch = (step q skip ch).counted n := by
  unfold step
  rw [show (counted n q).line = q.line from rfl]
  cases q.line with
  | some l => exact lineStep_counted n l q ch
  | none =>
      dsimp only [counted]
      rw [coreStep_counted]
      rfl

/-! ### What a state knows -/

/-- The states in which the kind of the current header is known. -/
def keepsHeader : State → Bool
  | .headerField | .headerValueDiscardWs | .headerValueDiscardWsAlmostDone
  | .headerValueDiscardLws | .headerValueStart | .headerValue | .headerValueLws
  | .headerAlmostDone => true
  | _ => false

/-- The states of the request line after the major version. -/
def knowsMajor : LineState → Bool
  | .reqHttpDot | .reqHttpMinor | .reqHttpEnd | .reqLineAlmostDone => true
  | _ => false

/-- The states of the request line after the version. -/
def knowsMinor : LineState → Bool
  | .reqHttpEnd | .reqLineAlmostDone => true
  | _ => false

/-- What is known past the request line. -/
def settleCore (q : HttpParser) : HttpParser :=
  { q with
    nread := 0
    headerState := if keepsHeader q.state then q.headerState else .general }

/-- What is known within the request line, once it has begun. -/
def settleLine (l : LineState) (q : HttpParser) : HttpParser :=
  { q with
    state := .headerFieldStart
    nread := 0
    headerState := .general
    httpMajor := if knowsMajor l then q.httpMajor else 0
    httpMinor := if knowsMinor l then q.httpMinor else 0 }

/-- A parser without what its state does not know, and without its count. -/
def settle (q : RequestParser) : RequestParser :=
  match q.line with
  | some .startReq =>
      { requestInit with
        core :=
          { requestInit.core with
            statusCode := q.core.statusCode
            httpErrno := q.core.httpErrno
            upgrade := q.core.upgrade } }
  | some l => { q with core := settleLine l q.core }
  | none => { q with core := settleCore q.core }

/-- An outcome without what its parser does not know. -/
def RequestOut.settle (o : RequestOut) : RequestOut := { o with parser := Request.settle o.parser }

theorem settle_line (q : RequestParser) : (settle q).line = q.line := by
  rcases q with ⟨line, m, core⟩
  cases line with
  | none => rfl
  | some l => cases l <;> rfl

theorem settle_counted (n : Nat) (q : RequestParser) : settle (counted n q) = settle q := by
  rcases q with ⟨line, m, core⟩
  cases line with
  | none => rfl
  | some l => cases l <;> rfl

/-! ### A handler may settle its parser first -/

/-- The states that a character of a URL leads to. -/
def urlState : LineState → Bool
  | .reqSchema | .reqSchemaSlash | .reqSchemaSlashSlash | .reqServerStart | .reqServer
  | .reqServerWithAt | .reqPath | .reqQueryStringStart | .reqQueryString | .reqFragmentStart
  | .reqFragment => true
  | _ => false

theorem serverChar_url (ch : Byte) (l : LineState) (h : serverChar ch = some l) :
    urlState l = true := by
  unfold serverChar at h
  split_ifs at h <;> rw [← Option.some.inj h] <;> rfl

theorem parseUrlChar_url (l l' : LineState) (ch : Byte) (h : parseUrlChar l ch = some l') :
    urlState l' = true := by
  unfold parseUrlChar at h
  by_cases hblank : (ch = ' '.toUInt8 || ch = CR || ch = LF || ch = 9 || ch = 12) = true
  · rw [if_pos hblank] at h
    exact absurd h.symm (Option.some_ne_none _)
  rw [if_neg hblank] at h
  -- Blanks and line ends aside, every state stays inside the URL.
  cases l with
  | reqServerStart | reqServer => exact serverChar_url ch l' h
  | reqServerWithAt =>
      dsimp only at h
      split_ifs at h
      exact serverChar_url ch l' h
  | _ =>
      dsimp only at h
      try split_ifs at h
      all_goals
        simp only [Option.some.injEq, reduceCtorEq] at h
        try rw [← h]
        try rfl

/-- A URL says nothing of the version. -/
theorem settle_url (l l' : LineState) (m : HttpMethod) (q : HttpParser) (hl : l ≠ .startReq)
    (hl' : urlState l' = true) :
    settle ⟨some l', m, q⟩ = settle { settle ⟨some l, m, q⟩ with line := some l' } := by
  cases l with
  | startReq => exact absurd rfl hl
  | _ =>
      cases l' with
      | startReq | reqMethod | reqSpacesBeforeUrl | reqHttpStart | reqHttpH | reqHttpHT
      | reqHttpHTT | reqHttpHTTP | reqHttpMajor | reqHttpDot | reqHttpMinor | reqHttpEnd
      | reqLineAlmostDone => exact absurd hl' Bool.false_ne_true
      | _ => rfl

theorem settle_settle (q : RequestParser) : settle (settle q) = settle q := by
  rcases q with ⟨line, m, core⟩
  cases line with
  | none =>
      simp only [settle, settleCore, RequestParser.mk.injEq, true_and]
      split_ifs <;> rfl
  | some l => cases l <;> rfl

theorem urlChar_settle (l l' : LineState) (m : HttpMethod) (q : HttpParser) (ch : Byte)
    (hl : l ≠ .startReq) :
    (urlChar ⟨some l, m, q⟩ l' ch).settle = (urlChar (settle ⟨some l, m, q⟩) l' ch).settle := by
  unfold urlChar
  cases hurl : parseUrlChar l' ch with
  | none =>
      dsimp only [refuse, RequestOut.settle]
      rw [settle_settle]
  | some l2 =>
      dsimp only [toLine, RequestOut.settle]
      rw [settle_url l l2 m q hl (parseUrlChar_url l' l2 ch hurl)]

theorem lineStep_settle (l : LineState) (m : HttpMethod) (q : HttpParser) (ch : Byte) :
    (lineStep l ⟨some l, m, q⟩ ch).settle = (lineStep l (settle ⟨some l, m, q⟩) ch).settle := by
  -- A line that has begun does not look at what is settled.
  have hurl : ∀ l', l ≠ .startReq →
      (urlChar ⟨some l, m, q⟩ l' ch).settle = (urlChar (settle ⟨some l, m, q⟩) l' ch).settle :=
    fun l' hl => urlChar_settle l l' m q ch hl
  cases l with
  | startReq =>
      simp only [lineStep, startReq, apply_ite RequestOut.settle]
      cases firstMethod ch <;> rfl
  | reqMethod =>
      simp only [lineStep, reqMethod, apply_ite RequestOut.settle]
      rw [show (settle ⟨some .reqMethod, m, q⟩).method = m from rfl,
        show (settle ⟨some .reqMethod, m, q⟩).core.index = q.index from rfl]
      cases otherMethod m q.index ch <;> rfl
  | reqSpacesBeforeUrl =>
      simp only [lineStep, reqSpacesBeforeUrl, apply_ite RequestOut.settle,
        hurl _ LineState.noConfusion]
      rfl
  | reqSchema | reqSchemaSlash | reqSchemaSlashSlash | reqServerStart =>
      exact hurl _ LineState.noConfusion
  | reqServer | reqServerWithAt | reqPath | reqQueryStringStart | reqQueryString
  | reqFragmentStart | reqFragment =>
      simp only [lineStep, reqUrl, apply_ite RequestOut.settle, hurl _ LineState.noConfusion]
      rfl
  | _ =>
      simp only [lineStep, reqHttpStart, expectLine, reqHttpMajor, reqHttpMinor, reqHttpEnd,
        reqLineAlmostDone, apply_ite RequestOut.settle]
      rfl

/-- An outcome past the request line without what its parser does not know. -/
def settleOut (o : Out) : Out := { o with parser := settleCore o.parser }

/-- Where the kind of the header is known, only the count is forgotten. -/
theorem settleCore_keeps (q : HttpParser) (h : keepsHeader q.state = true) :
    settleCore q = HttpParser.counted 0 q := by
  unfold settleCore
  rw [if_pos h]
  rfl

theorem settleOut_counted (n : Nat) (o : Out) : settleOut (o.counted n) = settleOut o := rfl

/-- A handler past the request line may settle its parser first. -/
theorem coreStep_settle (m : HttpMethod) (q : HttpParser) (skip : Option Nat) (ch : Byte) :
    settleOut (coreStep m q skip ch) = settleOut (coreStep m (settleCore q) skip ch) := by
  by_cases hkeep : keepsHeader q.state = true
  · rw [settleCore_keeps q hkeep, coreStep_counted, settleOut_counted]
  -- The other states do not look at the header, and set its kind when one begins.
  rcases q with ⟨flags, state, headerState, index, nread, length, major, minor, status, errno, up⟩
  cases state with
  | headerField | headerValueDiscardWs | headerValueDiscardWsAlmostDone | headerValueDiscardLws
  | headerValueStart | headerValue | headerValueLws | headerAlmostDone => exact absurd rfl hkeep
  | chunkSizeStart =>
      simp only [coreStep, byteStep, chunkSizeStart, settleCore]
      cases unhex ch <;> rfl
  | chunkSize =>
      simp only [coreStep, byteStep, chunkSize, settleCore, apply_ite settleOut]
      cases unhex ch with
      | none =>
          simp only [apply_ite settleOut]
          rfl
      | some v =>
          simp only [apply_ite settleOut]
          rfl
  | headerFieldStart =>
      simp only [coreStep, headerFieldStart, HttpParser.headerFieldStart, headersAlmostDone,
        headersDone, HttpParser.headersAlmostDone, HttpParser.headersDone, settleCore,
        apply_ite settleOut]
      rfl
  | _ =>
      simp only [coreStep, byteStep, headersAlmostDone, headersDone, chunkSizeAlmostDone, chunkData,
        chunkDataAlmostDone, chunkDataDone, bodyIdentity, settleCore, apply_ite settleOut]
      rfl

/-- A handler may settle its parser first. -/
theorem step_settle (q : RequestParser) (skip : Option Nat) (ch : Byte) :
    (step q skip ch).settle = (step (settle q) skip ch).settle := by
  unfold step
  rw [settle_line]
  rcases q with ⟨line, m, core⟩
  cases line with
  | some l => exact lineStep_settle l m core ch
  | none =>
      have h := coreStep_settle m core skip ch
      -- The two results are compared part by part.
      have hparser := congrArg Out.parser h
      have hops := congrArg Out.ops h
      have hverdict := congrArg Out.verdict h
      have hskip := congrArg Out.skip h
      simp only [settleOut] at hparser hops hverdict hskip
      simp only [settle, RequestOut.settle, hparser, hops, hverdict, hskip]

/-! ### What no handler changes -/

theorem headersDone_kept (m : HttpMethod) (q : HttpParser) (ch : Byte) :
    kept (headersDone m q ch).parser = kept q := by
  unfold headersDone
  dsimp only
  split_ifs <;> rfl

theorem headersAlmostDone_kept (m : HttpMethod) (q : HttpParser) (ch : Byte) :
    kept (headersAlmostDone m q ch).parser = kept q := by
  unfold headersAlmostDone
  by_cases hlf : ch ≠ LF
  · rw [if_pos hlf]
    rfl
  · rw [if_neg hlf, apply_ite Out.parser, apply_ite Out.parser, apply_ite kept, apply_ite kept,
      headersDone_kept]
    split_ifs <;> rfl

theorem headerFieldStart_kept (m : HttpMethod) (q : HttpParser) (ch : Byte) :
    kept (headerFieldStart m q ch).parser = kept q := by
  unfold headerFieldStart
  split_ifs with hlf
  · exact headersAlmostDone_kept m { q with state := .headersAlmostDone } ch
  · unfold HttpParser.headerFieldStart
    rw [if_neg hlf]
    split_ifs <;> rfl

/-- A header ends, and the byte after it is read. -/
theorem headerFieldStart_finish_kept (m : HttpMethod) (q : HttpParser) (ch : Byte) :
    kept (headerFieldStart m { finishHeader q with state := .headerFieldStart } ch).parser =
      kept q :=
  (headerFieldStart_kept m _ ch).trans (finishHeader_kept q)

theorem coreStep_kept (m : HttpMethod) (q : HttpParser) (skip : Option Nat) (ch : Byte) :
    kept (coreStep m q skip ch).parser = kept q := by
  unfold coreStep byteStep
  cases q.state with
  | headerFieldStart => exact headerFieldStart_kept m q ch
  | headersAlmostDone => exact headersAlmostDone_kept m q ch
  | headersDone => exact headersDone_kept m q ch
  | headerField => exact headerField_kept q ch
  | headerValueStart => exact headerValueStart_kept q ch
  | headerValue => exact headerValue_kept q skip ch
  | headerValueLws =>
      exact headerValueLws_rule (fun o => kept o.parser = kept q) m q ch
        (headerValueStart_kept { q with state := .headerValueStart } ch)
        (headerFieldStart_finish_kept m q ch)
  | headerValueDiscardLws =>
      exact headerValueDiscardLws_rule (fun o => kept o.parser = kept q) m q ch rfl
        (headerFieldStart_finish_kept m q ch)
  | headerValueDiscardWs =>
      exact headerValueDiscardWs_rule (fun o => kept o.parser = kept q) q ch rfl rfl rfl
        (headerValueStart_kept q ch)
  | chunkSizeStart =>
      exact chunkSizeStart_rule (fun o => kept o.parser = kept q) q ch rfl (fun _ => rfl)
  | chunkSize =>
      exact chunkSize_rule (fun o => kept o.parser = kept q) q ch rfl rfl (fun _ => rfl)
        (fun _ => rfl)
  | _ =>
      dsimp only [headerAlmostDone, expect, chunkSizeAlmostDone, chunkData, chunkDataAlmostDone,
        chunkDataDone, bodyIdentity]
      first
        | rfl
        | (split_ifs <;> rfl)

theorem urlChar_kept (q : RequestParser) (l : LineState) (ch : Byte) :
    kept (urlChar q l ch).parser.core = kept q.core := by
  unfold urlChar
  cases parseUrlChar l ch <;> rfl

theorem lineStep_kept (l : LineState) (q : RequestParser) (ch : Byte) :
    kept (lineStep l q ch).parser.core = kept q.core := by
  cases l with
  | startReq =>
      dsimp only [lineStep, startReq]
      cases firstMethod ch <;> (split_ifs <;> rfl)
  | reqMethod =>
      dsimp only [lineStep, reqMethod]
      cases otherMethod q.method q.core.index ch <;> (split_ifs <;> rfl)
  | reqSchema | reqSchemaSlash | reqSchemaSlashSlash | reqServerStart => exact urlChar_kept q _ ch
  | reqSpacesBeforeUrl =>
      exact reqSpacesBeforeUrl_rule (fun o => kept o.parser.core = kept q.core) q ch rfl
        (fun l => urlChar_kept q l ch)
  | reqServer | reqServerWithAt | reqPath | reqQueryStringStart | reqQueryString
  | reqFragmentStart | reqFragment =>
      exact reqUrl_rule (fun o => kept o.parser.core = kept q.core) q ch _ rfl rfl rfl
        (urlChar_kept q _ ch)
  | _ =>
      dsimp only [lineStep, reqHttpStart, expectLine, reqHttpMajor, reqHttpMinor, reqHttpEnd,
        reqLineAlmostDone]
      split_ifs <;> rfl

/-- What no handler changes. -/
theorem step_kept (q : RequestParser) (skip : Option Nat) (ch : Byte) :
    kept (step q skip ch).parser.core = kept q.core := by
  unfold step
  cases q.line with
  | some l => exact lineStep_kept l q ch
  | none => exact coreStep_kept q.method q.core skip ch

/-! ### How the start state is reached -/

/-- A carriage return or a line feed. -/
def isNewline (ch : Byte) : Bool := ch = CR || ch = LF

/-- Blank lines leave the start state as it is. -/
theorem step_newline (q : RequestParser) (skip : Option Nat) (ch : Byte)
    (hq : q.line = some .startReq) (hch : isNewline ch = true) :
    step q skip ch = ⟨q, [], .next, none⟩ := by
  rcases q with ⟨line, m, core⟩
  dsimp only at hq
  unfold step lineStep startReq
  rw [hq]
  exact if_pos hch

theorem urlChar_line (q : RequestParser) (l : LineState) (ch : Byte)
    (h : (urlChar q l ch).verdict = .next) :
    (urlChar q l ch).parser.line ≠ some .startReq := by
  unfold urlChar at h ⊢
  cases hurl : parseUrlChar l ch with
  | none =>
      rw [hurl] at h
      exact Verdict.noConfusion h
  | some l' =>
      intro hl
      have hl' : l' = .startReq := Option.some.inj hl
      have := parseUrlChar_url l l' ch hurl
      rw [hl'] at this
      exact Bool.false_ne_true this

/-- Only blank lines leave a parser in its start state. -/
theorem lineStep_start (l : LineState) (q : RequestParser) (ch : Byte)
    (hl : l = .startReq → isNewline ch = false) (h : (lineStep l q ch).verdict = .next) :
    (lineStep l q ch).parser.line ≠ some .startReq := by
  cases l with
  | startReq =>
      -- A new line is what the state waits through, and any letter leaves it.
      unfold lineStep startReq at h ⊢
      have hch : ¬ (ch = CR || ch = LF) = true := by
        rw [show (ch = CR || ch = LF) = false from hl rfl]
        exact Bool.false_ne_true
      dsimp only at h ⊢
      rw [if_neg hch] at h ⊢
      split_ifs at h ⊢
      · exact Verdict.noConfusion h
      · cases hm : firstMethod ch with
        | none =>
            rw [hm] at h
            exact Verdict.noConfusion h
        | some m => exact fun hs => LineState.noConfusion (Option.some.inj hs)
  | reqSchema | reqSchemaSlash | reqSchemaSlashSlash | reqServerStart => exact urlChar_line q _ ch h
  | reqSpacesBeforeUrl =>
      exact reqSpacesBeforeUrl_rule
        (fun o => o.verdict = .next → o.parser.line ≠ some .startReq) q ch
        (fun _ hs => LineState.noConfusion (Option.some.inj hs)) (fun l => urlChar_line q l ch) h
  | reqServer | reqServerWithAt | reqPath | reqQueryStringStart | reqQueryString
  | reqFragmentStart | reqFragment =>
      exact reqUrl_rule (fun o => o.verdict = .next → o.parser.line ≠ some .startReq) q ch _
        (fun _ hs => LineState.noConfusion (Option.some.inj hs))
        (fun _ hs => LineState.noConfusion (Option.some.inj hs))
        (fun _ hs => Option.some_ne_none _ hs.symm) (urlChar_line q _ ch) h
  | reqMethod =>
      dsimp only [lineStep, reqMethod] at h ⊢
      cases hm : otherMethod q.method q.core.index ch with
      | none =>
          rw [hm] at h
          dsimp only at h ⊢
          split_ifs at h ⊢
          all_goals first
            | exact Verdict.noConfusion h
            | exact fun hs => LineState.noConfusion (Option.some.inj hs)
      | some m =>
          rw [hm] at h
          dsimp only at h ⊢
          split_ifs at h ⊢
          all_goals first
            | exact Verdict.noConfusion h
            | exact fun hs => LineState.noConfusion (Option.some.inj hs)
  | _ =>
      dsimp only [lineStep, reqHttpStart, expectLine, reqHttpMajor, reqHttpMinor, reqHttpEnd,
        reqLineAlmostDone] at h ⊢
      split_ifs at h ⊢
      all_goals first
        | exact Verdict.noConfusion h
        | exact fun hs => LineState.noConfusion (Option.some.inj hs)
        | exact fun hs => Option.some_ne_none _ hs.symm

/-- A byte that is read leads to the start state only as a blank line. -/
theorem step_next_start (q : RequestParser) (skip : Option Nat) (ch : Byte)
    (h : (step q skip ch).verdict = .next)
    (hstart : (step q skip ch).parser.line = some .startReq) :
    q.line = some .startReq ∧ isNewline ch = true := by
  unfold step at h hstart
  cases hq : q.line with
  | none =>
      rw [hq] at hstart
      exact absurd (show none = some LineState.startReq from hstart).symm (Option.some_ne_none _)
  | some l =>
      rw [hq] at h hstart
      -- Only a new line before the request line stays there.
      by_cases hl : l = .startReq → isNewline ch = false
      · exact absurd hstart (lineStep_start l q ch hl h)
      · rw [Classical.not_imp, Bool.not_eq_false] at hl
        exact ⟨congrArg some hl.1, hl.2⟩

theorem urlChar_verdict (q : RequestParser) (l : LineState) (ch : Byte) (exit : Exit) :
    (urlChar q l ch).verdict ≠ .complete exit := by
  unfold urlChar
  cases parseUrlChar l ch <;> exact Verdict.noConfusion

/-- No request ends within its first line. -/
theorem lineStep_verdict (l : LineState) (q : RequestParser) (ch : Byte) (exit : Exit) :
    (lineStep l q ch).verdict ≠ .complete exit := by
  cases l with
  | startReq =>
      dsimp only [lineStep, startReq]
      cases firstMethod ch <;> (split_ifs <;> exact Verdict.noConfusion)
  | reqMethod =>
      dsimp only [lineStep, reqMethod]
      cases otherMethod q.method q.core.index ch <;> (split_ifs <;> exact Verdict.noConfusion)
  | reqSchema | reqSchemaSlash | reqSchemaSlashSlash | reqServerStart =>
      exact urlChar_verdict q _ ch exit
  | reqSpacesBeforeUrl =>
      exact reqSpacesBeforeUrl_rule (fun o => o.verdict ≠ .complete exit) q ch Verdict.noConfusion
        (fun l => urlChar_verdict q l ch exit)
  | reqServer | reqServerWithAt | reqPath | reqQueryStringStart | reqQueryString
  | reqFragmentStart | reqFragment =>
      exact reqUrl_rule (fun o => o.verdict ≠ .complete exit) q ch _ Verdict.noConfusion
        Verdict.noConfusion Verdict.noConfusion (urlChar_verdict q _ ch exit)
  | _ =>
      dsimp only [lineStep, reqHttpStart, expectLine, reqHttpMajor, reqHttpMinor, reqHttpEnd,
        reqLineAlmostDone]
      split_ifs <;> exact Verdict.noConfusion

/-- A message that ends without a stop is no upgrade. -/
def NoUpgrade (o : Out) : Prop := o.verdict = .complete .never → o.parser.upgrade = false

theorem headersDone_noUpgrade (m : HttpMethod) (q : HttpParser) (ch : Byte) :
    NoUpgrade (headersDone m q ch) := by
  intro h
  unfold headersDone at h ⊢
  dsimp only at h ⊢
  split_ifs at h ⊢ with _ hup hchunked hzero hlen
  · exact Verdict.noConfusion h
  · exact Exit.noConfusion (Verdict.complete.inj h)
  · exact Verdict.noConfusion h
  · -- There is no body, so an upgrade would have stopped the parser.
    have hup' : q.upgrade = false := by simpa [hchunked, hzero] using hup
    exact hup'
  · exact Verdict.noConfusion h
  · have hup' : q.upgrade = false := by simpa [hchunked, not_not.mp hlen] using hup
    exact hup'
  · exact Verdict.noConfusion h

theorem headersAlmostDone_noUpgrade (m : HttpMethod) (q : HttpParser) (ch : Byte) :
    NoUpgrade (headersAlmostDone m q ch) := by
  unfold headersAlmostDone
  -- What is refused does not upgrade, and neither does a trailer.
  by_cases hlf : ch ≠ LF
  · rw [if_pos hlf]
    exact fun h => Verdict.noConfusion h
  rw [if_neg hlf]
  by_cases htrailing : q.flags.trailing = true
  · rw [if_pos htrailing]
    exact fun h => Exit.noConfusion (Verdict.complete.inj h)
  rw [if_neg htrailing]
  by_cases hboth : (q.flags.chunked && q.flags.contentLength) = true
  · rw [if_pos hboth]
    exact fun h => Verdict.noConfusion h
  · rw [if_neg hboth]
    exact headersDone_noUpgrade m _ ch

theorem headerFieldStart_noUpgrade (m : HttpMethod) (q : HttpParser) (ch : Byte) :
    NoUpgrade (headerFieldStart m q ch) := by
  unfold headerFieldStart
  by_cases hlf : ch = LF
  · rw [if_pos hlf]
    exact headersAlmostDone_noUpgrade m _ ch
  · rw [if_neg hlf]
    unfold HttpParser.headerFieldStart
    rw [if_neg hlf]
    split_ifs <;> exact fun h => Verdict.noConfusion h

theorem headerValueStart_verdict (q : HttpParser) (ch : Byte) (exit : Exit) :
    (headerValueStart q ch).verdict ≠ .complete exit := by
  unfold headerValueStart
  dsimp only
  split
  all_goals first
    | exact Verdict.noConfusion
    | (split_ifs <;> exact Verdict.noConfusion)

theorem headerValueChar_verdict (q : HttpParser) (ch : Byte) (exit : Exit) :
    (headerValueChar q ch).verdict ≠ .complete exit := by
  unfold headerValueChar
  dsimp only
  split
  all_goals first
    | exact Verdict.noConfusion
    | (split_ifs <;> exact Verdict.noConfusion)

theorem headerValue_verdict (q : HttpParser) (skip : Option Nat) (ch : Byte) (exit : Exit) :
    (headerValue q skip ch).verdict ≠ .complete exit := by
  unfold headerValue headerAlmostDone expect
  cases skip with
  | some k => split_ifs <;> exact Verdict.noConfusion
  | none =>
      split_ifs
      all_goals first
        | exact Verdict.noConfusion
        | exact headerValueChar_verdict q ch exit

/-- The end of a head or of a body. -/
theorem coreStep_noUpgrade (m : HttpMethod) (q : HttpParser) (skip : Option Nat) (ch : Byte) :
    NoUpgrade (coreStep m q skip ch) := by
  have hgo : ∀ (p : HttpParser) (s : State), NoUpgrade (goto p s []) :=
    fun _ _ h => Verdict.noConfusion h
  have hfail : ∀ (p : HttpParser) (e : HttpErrno), NoUpgrade (fail p e) :=
    fun _ _ h => Verdict.noConfusion h
  unfold coreStep byteStep
  cases q.state with
  | headerFieldStart => exact headerFieldStart_noUpgrade m q ch
  | headersAlmostDone => exact headersAlmostDone_noUpgrade m q ch
  | headersDone => exact headersDone_noUpgrade m q ch
  | headerValueStart => exact fun h => absurd h (headerValueStart_verdict q ch _)
  | headerValue => exact fun h => absurd h (headerValue_verdict q skip ch _)
  | headerValueLws =>
      exact headerValueLws_rule NoUpgrade m q ch
        (fun h => absurd h (headerValueStart_verdict _ ch _)) (headerFieldStart_noUpgrade m _ ch)
  | headerValueDiscardLws =>
      exact headerValueDiscardLws_rule NoUpgrade m q ch (hgo _ _)
        (headerFieldStart_noUpgrade m { finishHeader q with state := .headerFieldStart } ch)
  | headerValueDiscardWs =>
      exact headerValueDiscardWs_rule NoUpgrade q ch (fun h => Verdict.noConfusion h) (hgo _ _)
        (hgo _ _) (fun h => absurd h (headerValueStart_verdict q ch _))
  | chunkSizeStart =>
      exact chunkSizeStart_rule NoUpgrade q ch (hfail q _) (fun _ => hgo _ _)
  | chunkSize =>
      exact chunkSize_rule NoUpgrade q ch (hgo _ _) (hgo _ _) (hfail q)
        (fun _ h => Verdict.noConfusion h)
  | bodyIdentity =>
      dsimp only [bodyIdentity, messageDone]
      split_ifs
      · exact fun h => Exit.noConfusion (Verdict.complete.inj h)
      · exact fun h => Verdict.noConfusion h
  | messageDone => exact fun h => Exit.noConfusion (Verdict.complete.inj h)
  | _ =>
      dsimp only [headerField, headerAlmostDone, expect, chunkSizeAlmostDone, chunkData,
        chunkDataAlmostDone, chunkDataDone]
      first
        | exact fun h => Verdict.noConfusion h
        | (split_ifs <;> exact fun h => Verdict.noConfusion h)

/-- A request ends past its first line, and is no upgrade unless it stops the
    parser. -/
theorem step_complete (q : RequestParser) (skip : Option Nat) (ch : Byte) (exit : Exit)
    (h : (step q skip ch).verdict = .complete exit) :
    (step q skip ch).parser.line = none ∧
      (exit = .never → (step q skip ch).parser.core.upgrade = false) := by
  unfold step at h ⊢
  cases hq : q.line with
  | some l =>
      rw [hq] at h
      exact absurd h (lineStep_verdict l q ch exit)
  | none =>
      rw [hq] at h
      refine ⟨rfl, fun hnever => ?_⟩
      rw [hnever] at h
      exact coreStep_noUpgrade q.method q.core skip ch h

end Request

end HttpParser

end Wrk
