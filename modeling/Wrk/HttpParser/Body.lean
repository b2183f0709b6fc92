import Wrk.HttpParser.Orderly
import Wrk.HttpParser.Split

/-!
# How a Body Ends

What the parser makes of the end of a head, and where the body that follows
ends. Only a head that says nothing of the length, with a status that allows
a body, leads to one that lasts until the stream ends.

## Main definitions

* `WaitsForEof`: A body that lasts until the stream ends has to.
* `InChunks`: A body in chunks, which never has to.
* `UntilClose`: A text after which only the end of the stream is missing.

## Theorems

* `byteStep_waits`, `bytewise_waits`: Only such a head leads to such a body.
* `byteStep_inChunks`, `bytewise_inChunks`: A body in chunks stays one.
* `untilClose_not_kept`: The connection is not kept after such a body.
-/

namespace Wrk

namespace HttpParser

/-- A parser that reads to the end of the stream has to. -/
def WaitsForEof (q : HttpParser) : Prop :=
  q.state = .bodyIdentityEof → httpMessageNeedsEof q = true

theorem waits_of_state (q : HttpParser) (h : q.state ≠ .bodyIdentityEof) : WaitsForEof q :=
  fun hs => absurd hs h

/-! ### The end of a head -/

theorem headersDone_waits (q : HttpParser) (ch : Byte) (h : q.state ≠ .bodyIdentityEof) :
    WaitsForEof (headersDone q ch).parser := by
  unfold headersDone
  dsimp only
  split_ifs with _ _ _ _ _ heof
  · exact waits_of_state q h
  · exact waits_of_state q h
  · exact waits_of_state _ State.noConfusion
  · exact waits_of_state q h
  · exact waits_of_state _ State.noConfusion
  · exact waits_of_state q h
  · intro _
    rw [Bool.not_eq_true', Bool.not_eq_false] at heof
    exact heof

theorem headersAlmostDone_waits (q : HttpParser) (ch : Byte) (h : q.state ≠ .bodyIdentityEof) :
    WaitsForEof (headersAlmostDone q ch).parser := by
  unfold headersAlmostDone
  split_ifs
  · exact waits_of_state q h
  · exact waits_of_state _ State.noConfusion
  · exact waits_of_state q h
  · exact headersDone_waits _ ch State.noConfusion

theorem headerFieldStart_waits (q : HttpParser) (ch : Byte) (h : q.state ≠ .bodyIdentityEof) :
    WaitsForEof (headerFieldStart q ch).parser := by
  unfold headerFieldStart
  split_ifs
  · exact waits_of_state _ State.noConfusion
  · exact headersAlmostDone_waits _ ch State.noConfusion
  · exact waits_of_state q h
  · exact waits_of_state _ State.noConfusion

/-! ### The other states -/

theorem headerValueChar_state (q : HttpParser) (ch : Byte) :
    (headerValueChar q ch).parser.state = q.state := by
  unfold headerValueChar
  dsimp only
  split
  all_goals first
    | rfl
    | exact matching_state _ _ _ _ _
    | exact connectionKeyword_state _ _ _
    | (split_ifs <;> rfl)

theorem headerValueStart_state (q : HttpParser) (ch : Byte) :
    (headerValueStart q ch).parser.state = .headerValue := by
  unfold headerValueStart
  dsimp only
  split
  all_goals first
    | rfl
    | (split_ifs <;> rfl)

theorem expect_waits (q : HttpParser) (ch wanted : Byte) (e : HttpErrno) (s : State)
    (h : q.state ≠ .bodyIdentityEof) (hs : s ≠ .bodyIdentityEof) :
    WaitsForEof (expect q ch wanted e s).parser := by
  unfold expect
  split_ifs
  · exact waits_of_state q h
  · exact waits_of_state _ hs

theorem headerValue_waits (q : HttpParser) (skip : Option Nat) (ch : Byte)
    (h : q.state ≠ .bodyIdentityEof) : WaitsForEof (headerValue q skip ch).parser := by
  unfold headerValue
  split_ifs
  · exact waits_of_state q h
  · exact waits_of_state _ State.noConfusion
  · exact expect_waits _ ch LF _ _ State.noConfusion State.noConfusion
  · cases skip with
    | some k => exact waits_of_state q h
    | none => exact waits_of_state q h
  · cases skip with
    | some k => exact waits_of_state q h
    | none =>
        refine waits_of_state _ ?_
        rw [headerValueChar_state]
        exact h

theorem headerValueStart_waits (q : HttpParser) (ch : Byte) :
    WaitsForEof (headerValueStart q ch).parser := by
  refine waits_of_state _ ?_
  rw [headerValueStart_state]
  exact State.noConfusion

/-- Only the end of a head leads to a body that lasts until the stream
    ends. -/
theorem byteStep_waits (q : HttpParser) (skip : Option Nat) (ch : Byte) (h : WaitsForEof q) :
    WaitsForEof (byteStep q skip ch).parser := by
  have hne : ∀ s : State, q.state = s → s ≠ .bodyIdentityEof → q.state ≠ .bodyIdentityEof :=
    fun s hs hn hq => hn (hs.symm.trans hq)
  -- Only the states at the end of the head lead to such a body.
  unfold byteStep
  cases hs : q.state with
  | bodyIdentityEof => exact fun _ => h hs
  | headersDone => exact headersDone_waits q ch (hne _ hs State.noConfusion)
  | headersAlmostDone => exact headersAlmostDone_waits q ch (hne _ hs State.noConfusion)
  | headerFieldStart => exact headerFieldStart_waits q ch (hne _ hs State.noConfusion)
  | headerValueStart => exact headerValueStart_waits q ch
  | headerValue => exact headerValue_waits q skip ch (hne _ hs State.noConfusion)
  | headerValueLws =>
      exact headerValueLws_rule (fun o => WaitsForEof o.parser) q ch (headerValueStart_waits _ ch)
        (headerFieldStart_waits _ ch State.noConfusion)
  | headerValueDiscardLws =>
      exact headerValueDiscardLws_rule (fun o => WaitsForEof o.parser) q ch
        (waits_of_state _ State.noConfusion) (headerFieldStart_waits _ ch State.noConfusion)
  | headerValueDiscardWs =>
      exact headerValueDiscardWs_rule (fun o => WaitsForEof o.parser) q ch
        (waits_of_state q (hne _ hs State.noConfusion)) (waits_of_state _ State.noConfusion)
        (waits_of_state _ State.noConfusion) (headerValueStart_waits q ch)
  | headerField =>
      dsimp only [headerField]
      refine waits_of_state _ ?_
      split_ifs
      · rw [advance, headerFieldChar_state]
        exact hne _ hs State.noConfusion
      · exact State.noConfusion
      · exact hne _ hs State.noConfusion
  | resH | resHT | resHTT | resHTTP | resHttpDot | resHttpEnd | resLineAlmostDone
  | headerValueDiscardWsAlmostDone | headerAlmostDone =>
      exact expect_waits q ch _ _ _ (hne _ hs State.noConfusion) State.noConfusion
  | chunkSizeStart =>
      exact chunkSizeStart_rule (fun o => WaitsForEof o.parser) q ch
        (waits_of_state q (hne _ hs State.noConfusion))
        (fun _ => waits_of_state _ State.noConfusion)
  | chunkSize =>
      exact chunkSize_rule (fun o => WaitsForEof o.parser) q ch
        (waits_of_state _ State.noConfusion) (waits_of_state _ State.noConfusion)
        (fun _ => waits_of_state q (hne _ hs State.noConfusion))
        (fun _ => waits_of_state _ (hne _ hs State.noConfusion))
  | resStatusCode =>
      refine resStatusCode_rule (fun o => WaitsForEof o.parser) q ch
        (waits_of_state _ State.noConfusion) (waits_of_state _ ?_)
        (fun p hp => waits_of_state p (hp ▸ hne _ hs State.noConfusion))
        (waits_of_state _ (hne _ hs State.noConfusion))
      dsimp only [resStatusStart, resStatus]
      split_ifs <;> exact State.noConfusion
  | dead | startRes | resHttpMajor | resHttpMinor | resFirstStatusCode | resStatusStart | resStatus
  | chunkParameters | chunkSizeAlmostDone | chunkData | chunkDataAlmostDone | chunkDataDone
  | bodyIdentity =>
      refine waits_of_state _ ?_
      dsimp only [startRes, resHttpMajor, resHttpMinor, resFirstStatusCode, resStatusStart,
        resStatus, chunkSizeAlmostDone, chunkData, chunkDataAlmostDone, chunkDataDone,
        bodyIdentity, messageDone]
      split_ifs
      all_goals first
        | exact State.noConfusion
        | exact hne _ hs State.noConfusion
  | messageDone => exact waits_of_state _ State.noConfusion

theorem alone_waits (q q' : HttpParser) (ch : Byte) (k : Nat) (hq : q.nread ≤ httpMaxHeaderSize)
    (h : alone q ch = some (q', k)) (hw : WaitsForEof q) :
    WaitsForEof q' ∧ q'.nread ≤ httpMaxHeaderSize := by
  rcases alone_cases q q' ch k hq h with
    ⟨_, _, m, _, ⟨_, _, rfl, hn⟩ | ⟨_, _, _, rfl, _⟩⟩
  · exact ⟨byteStep_waits q none ch hw, hn⟩
  · exact ⟨waits_of_state _ State.noConfusion, Nat.zero_le _⟩

theorem bytewise_waits (q q' : HttpParser) (data : Bytes) (k : Nat)
    (hq : q.nread ≤ httpMaxHeaderSize) (h : bytewise q data = some (q', k))
    (hw : WaitsForEof q) : WaitsForEof q' := by
  have hkept := bytewise_keeps (fun p _ => WaitsForEof p ∧ p.nread ≤ httpMaxHeaderSize)
    (fun p p' ch _ k hone hp => alone_waits p p' ch k hp.2 hone hp.1) q q' data 0 k h ⟨hw, hq⟩
  exact hkept.1

/-- A parser that accepts a stream is not in error. -/
theorem bytewise_ok (q q' : HttpParser) (data : Bytes) (k : Nat)
    (h : bytewise q data = some (q', k)) (hq : q.httpErrno = .ok) : q'.httpErrno = .ok := by
  refine bytewise_keeps (fun p _ => p.httpErrno = .ok) (fun p p' ch _ k hone _ => ?_)
    q q' data 0 k h hq
  have hacc := (alone_accepted p p' ch k hone).2
  rw [← hacc.parser]
  exact hacc.ok

/-! ### A chunked body -/

/-- The parser is inside a message whose body is in chunks. -/
def InChunks (q : HttpParser) : Prop := q.flags.chunked = true ∧ q.state ≠ .startRes

theorem inChunks_goto (q : HttpParser) (s : State) (h : InChunks q) (hs : s ≠ .startRes) :
    InChunks { q with state := s } := ⟨h.1, hs⟩

theorem matching_inChunks (q : HttpParser) (word : Bytes) (c : Byte) (found mismatch : HeaderState)
    (h : InChunks q) : InChunks (matching q word c found mismatch) := by
  unfold matching
  dsimp only
  split_ifs <;> exact h

theorem connectionKeyword_inChunks (q : HttpParser) (ch : Byte) (flags : Flags) (h : InChunks q)
    (hf : flags.chunked = q.flags.chunked) : InChunks (connectionKeyword q flags ch) := by
  unfold connectionKeyword
  split_ifs
  · exact ⟨hf.trans h.1, h.2⟩
  · exact h
  · exact h

theorem headersDone_inChunks (q : HttpParser) (ch : Byte) (h : InChunks q) :
    InChunks (headersDone q ch).parser := by
  unfold headersDone
  dsimp only
  split_ifs
  all_goals first
    | exact h
    | exact inChunks_goto q _ h State.noConfusion

theorem headersAlmostDone_inChunks (q : HttpParser) (ch : Byte) (h : InChunks q) :
    InChunks (headersAlmostDone q ch).parser := by
  unfold headersAlmostDone
  split_ifs
  · exact h
  · exact inChunks_goto q .messageDone h State.noConfusion
  · exact h
  · exact headersDone_inChunks _ ch ⟨h.1, State.noConfusion⟩

theorem headerFieldStart_inChunks (q : HttpParser) (ch : Byte) (h : InChunks q) :
    InChunks (headerFieldStart q ch).parser := by
  unfold headerFieldStart
  split_ifs
  · exact inChunks_goto q _ h State.noConfusion
  · exact headersAlmostDone_inChunks _ ch (inChunks_goto q _ h State.noConfusion)
  · exact h
  · exact ⟨h.1, State.noConfusion⟩

theorem finishHeader_inChunks (q : HttpParser) (h : InChunks q) : InChunks (finishHeader q) := by
  unfold finishHeader
  split
  all_goals first
    | exact h
    | exact ⟨rfl, h.2⟩

theorem headerFieldChar_inChunks (q : HttpParser) (ch : Byte) (c : Byte) (h : InChunks q) :
    InChunks (headerFieldChar q ch c) := by
  unfold headerFieldChar
  split
  all_goals first
    | exact h
    | exact matching_inChunks q _ _ _ _ h
    | (split_ifs <;> exact h)

theorem headerValueStart_inChunks (q : HttpParser) (ch : Byte) (h : InChunks q) :
    InChunks (headerValueStart q ch).parser := by
  unfold headerValueStart
  dsimp only
  split
  all_goals first
    | exact ⟨h.1, State.noConfusion⟩
    | (split_ifs <;> exact ⟨h.1, State.noConfusion⟩)

theorem headerValueChar_inChunks (q : HttpParser) (ch : Byte) (h : InChunks q) :
    InChunks (headerValueChar q ch).parser := by
  unfold headerValueChar
  dsimp only
  split
  all_goals first
    | exact h
    | exact matching_inChunks q _ _ _ _ h
    | exact connectionKeyword_inChunks q ch _ h rfl
    | (split_ifs <;> exact h)

theorem headerValue_inChunks (q : HttpParser) (ch : Byte) (skip : Option Nat) (h : InChunks q) :
    InChunks (headerValue q skip ch).parser := by
  unfold headerValue headerAlmostDone expect
  cases skip with
  | some k =>
      split_ifs
      all_goals first
        | exact h
        | exact ⟨h.1, State.noConfusion⟩
  | none =>
      split_ifs
      all_goals first
        | exact h
        | exact headerValueChar_inChunks q ch h
        | exact ⟨h.1, State.noConfusion⟩

/-- Only the beginning of a message clears the flag. -/
theorem byteStep_inChunks (q : HttpParser) (ch : Byte) (skip : Option Nat) (h : InChunks q) :
    InChunks (byteStep q skip ch).parser := by
  have hfinish : InChunks { finishHeader q with state := .headerFieldStart } :=
    inChunks_goto _ _ (finishHeader_inChunks q h) State.noConfusion
  unfold byteStep
  cases hs : q.state with
  | startRes => exact absurd hs h.2
  | headerFieldStart => exact headerFieldStart_inChunks q ch h
  | headersAlmostDone => exact headersAlmostDone_inChunks q ch h
  | headersDone => exact headersDone_inChunks q ch h
  | headerValueStart => exact headerValueStart_inChunks q ch h
  | headerValue => exact headerValue_inChunks q ch skip h
  | headerField =>
      dsimp only [headerField]
      split_ifs
      · exact headerFieldChar_inChunks q ch _ h
      · exact inChunks_goto q _ h State.noConfusion
      · exact h
  | headerValueLws =>
      exact headerValueLws_rule (fun o => InChunks o.parser) q ch
        (headerValueStart_inChunks _ ch (inChunks_goto q _ h State.noConfusion))
        (headerFieldStart_inChunks _ ch hfinish)
  | headerValueDiscardLws =>
      exact headerValueDiscardLws_rule (fun o => InChunks o.parser) q ch
        (inChunks_goto q _ h State.noConfusion) (headerFieldStart_inChunks _ ch hfinish)
  | headerValueDiscardWs =>
      exact headerValueDiscardWs_rule (fun o => InChunks o.parser) q ch h
        (inChunks_goto q _ h State.noConfusion) (inChunks_goto q _ h State.noConfusion)
        (headerValueStart_inChunks q ch h)
  | chunkSizeStart =>
      exact chunkSizeStart_rule (fun o => InChunks o.parser) q ch h
        (fun _ => ⟨h.1, State.noConfusion⟩)
  | chunkSize =>
      exact chunkSize_rule (fun o => InChunks o.parser) q ch (inChunks_goto q _ h State.noConfusion)
        (inChunks_goto q _ h State.noConfusion) (fun _ => h) (fun _ => h)
  | _ =>
      dsimp only [resHttpMajor, resHttpMinor, resFirstStatusCode, resStatusStart, resStatus,
        resStatusCode, headerAlmostDone, expect, chunkSizeAlmostDone, chunkData,
        chunkDataAlmostDone, chunkDataDone, bodyIdentity, messageDone]
      first
        | exact h
        | exact inChunks_goto q _ h State.noConfusion
        | split_ifs
          all_goals first
            | exact h
            | exact ⟨h.1, State.noConfusion⟩

/-- Then the parser does not come to wait for the end of the stream. -/
theorem bytewise_inChunks (q q' : HttpParser) (data : Bytes) (hq : q.nread ≤ httpMaxHeaderSize)
    (h : bytewise q data = some (q', 0)) (hc : InChunks q) : InChunks q' := by
  -- As long as no message completes, the parser is inside this one.
  have hkept := bytewise_keeps
    (fun p n => n = 0 → InChunks p ∧ p.nread ≤ httpMaxHeaderSize) ?_ q q' data 0 0 h
    (fun _ => ⟨hc, hq⟩) rfl
  · exact hkept.1
  · intro p p' ch n k hone hp hzero
    rcases hp (by omega) with ⟨hin, hle⟩
    rcases alone_cases p p' ch k hle hone with
      ⟨_, _, m, _, ⟨_, _, hnext, hn⟩ | ⟨_, _, hk, _, _⟩⟩
    · rw [hnext] at hn ⊢
      exact ⟨byteStep_inChunks p ch none hin, hn⟩
    · omega

theorem inChunks_not_waiting (q : HttpParser) (h : InChunks q) (hw : WaitsForEof q) :
    q.state ≠ .bodyIdentityEof := by
  intro hs
  have heof := hw hs
  unfold httpMessageNeedsEof at heof
  rw [h.1, Bool.true_or, if_pos rfl, ite_self] at heof
  exact Bool.false_ne_true heof

/-! ### The end of the stream -/

/-- A response whose body lasts until the stream ends, but for that end. The
    parser comes to wait for it. -/
def UntilClose (text : Bytes) (q : HttpParser) : Prop :=
  bytewise httpParserInit text = some (q, 0) ∧ q.state = .bodyIdentityEof

/-- The connection is not kept after such a response. -/
theorem untilClose_not_kept (text : Bytes) (q : HttpParser) (h : UntilClose text q) :
    httpShouldKeepAlive q = false := by
  have hw := bytewise_waits httpParserInit q text 0 (Nat.zero_le _) h.1
    (waits_of_state _ State.noConfusion) h.2
  unfold httpShouldKeepAlive
  rw [hw]
  split_ifs <;> rfl

end HttpParser

end Wrk
