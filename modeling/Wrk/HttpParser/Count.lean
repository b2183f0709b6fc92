import Wrk.HttpParser.Execute
import Wrk.HttpParser.Orderly

/-!
# Counting Header Bytes

`nread` counts the bytes of a header, and the parser gives up when there are
too many. How many it counts depends on where chunks end: a byte inside a
name or a value is counted once by the loop that reads it, and once more if
it is the first of its chunk.

No handler reads the count, so that everything else the parser does is the
same with any count. And no handler counts a span twice, or goes on inside a
span that it has counted.

## Main definitions

* `counted`: The parser with another count.
* `countOps`: What the operations of a byte do to the count.
* `Frugal`: How an outcome counts, stops and skips.

## Theorems

* `byteStep_counted`: No handler reads the count.
* `byteStep_frugal`: Every handler is frugal.
* `byteStep_skip`: A jump to the end of a line changes nothing else.
-/

namespace Wrk

namespace HttpParser

open Exec

/-- The parser with another count of header bytes. -/
def counted (n : Nat) (q : HttpParser) : HttpParser := { q with nread := n }

/-- An outcome with another count. -/
def Out.counted (n : Nat) (o : Out) : Out := { o with parser := HttpParser.counted n o.parser }

/-! ### No handler reads the count -/

theorem matching_counted (n : Nat) (q : HttpParser) (word : Bytes) (c : Byte)
    (found mismatch : HeaderState) :
    matching (counted n q) word c found mismatch = counted n (matching q word c found mismatch) := by
  simp only [matching, apply_ite (counted n)]
  rfl

theorem headerFieldChar_counted (n : Nat) (q : HttpParser) (ch c : Byte) :
    headerFieldChar (counted n q) ch c = counted n (headerFieldChar q ch c) := by
  unfold headerFieldChar
  rw [show (counted n q).headerState = q.headerState from rfl]
  cases q.headerState with
  | matchingConnection | matchingProxyConnection | matchingContentLength
  | matchingTransferEncoding | matchingUpgrade => exact matching_counted n q _ c _ _
  | _ => first | rfl | (simp only [apply_ite (counted n)]; rfl)

theorem headerValueStart_counted (n : Nat) (q : HttpParser) (ch : Byte) :
    headerValueStart (counted n q) ch = (headerValueStart q ch).counted n := by
  unfold headerValueStart
  dsimp only
  rw [show (counted n q).headerState = q.headerState from rfl]
  cases q.headerState with
  | contentLength =>
      simp only [apply_ite (Out.counted n)]
      rfl
  | _ => rfl

theorem headerValueChar_counted (n : Nat) (q : HttpParser) (ch : Byte) :
    headerValueChar (counted n q) ch = (headerValueChar q ch).counted n := by
  unfold headerValueChar
  dsimp only
  rw [show (counted n q).headerState = q.headerState from rfl]
  cases q.headerState with
  | matchingTransferEncodingChunked | matchingConnectionKeepAlive | matchingConnectionClose
  | matchingConnectionUpgrade =>
      dsimp only
      rw [matching_counted]
      rfl
  | connectionKeepAlive | connectionClose | connectionUpgrade =>
      simp only [connectionKeyword, advance, Out.counted, apply_ite (counted n)]
      rfl
  | _ => first | rfl | (simp only [apply_ite (Out.counted n)]; rfl)

theorem headersDone_counted (n : Nat) (q : HttpParser) (ch : Byte) :
    headersDone (counted n q) ch = (headersDone q ch).counted n := by
  simp only [headersDone, apply_ite (Out.counted n)]
  rfl

theorem headersAlmostDone_counted (n : Nat) (q : HttpParser) (ch : Byte) :
    headersAlmostDone (counted n q) ch = (headersAlmostDone q ch).counted n := by
  simp only [headersAlmostDone, apply_ite (Out.counted n), ← headersDone_counted]
  rfl

theorem headerFieldStart_counted (n : Nat) (q : HttpParser) (ch : Byte) :
    headerFieldStart (counted n q) ch = (headerFieldStart q ch).counted n := by
  simp only [headerFieldStart, apply_ite (Out.counted n), ← headersAlmostDone_counted]
  rfl

theorem finishHeader_counted (n : Nat) (q : HttpParser) :
    finishHeader (counted n q) = counted n (finishHeader q) := by
  unfold finishHeader
  rw [show (counted n q).headerState = q.headerState from rfl]
  cases q.headerState <;> rfl

theorem after_counted (n : Nat) (ops : List Op) (o : Out) :
    (o.counted n).after ops = (o.after ops).counted n := rfl

/-- No handler reads the count of header bytes. -/
theorem byteStep_counted (n : Nat) (q : HttpParser) (skip : Option Nat) (ch : Byte) :
    byteStep (counted n q) skip ch = (byteStep q skip ch).counted n := by
  unfold byteStep
  rw [show (counted n q).state = q.state from rfl]
  cases q.state with
  | startRes | resHttpMajor | resHttpMinor | resFirstStatusCode | resStatusStart
  | resStatusCode | resStatus | chunkSizeAlmostDone | chunkData | chunkDataAlmostDone
  | chunkDataDone | bodyIdentity =>
      simp only [startRes, resHttpMajor, resHttpMinor, resFirstStatusCode, resStatusCode,
        resStatusStart, resStatus, chunkSizeAlmostDone, chunkData, chunkDataAlmostDone,
        chunkDataDone, bodyIdentity, apply_ite (Out.counted n)]
      rfl
  | dead | chunkParameters =>
      simp only [apply_ite (Out.counted n)]
      rfl
  | resH | resHT | resHTT | resHTTP | resHttpDot | resHttpEnd | resLineAlmostDone
  | headerValueDiscardWsAlmostDone | headerAlmostDone =>
      simp only [headerAlmostDone, expect, apply_ite (Out.counted n)]
      rfl
  | headersDone => exact headersDone_counted n q ch
  | headersAlmostDone => exact headersAlmostDone_counted n q ch
  | headerFieldStart => exact headerFieldStart_counted n q ch
  | headerValueStart => exact headerValueStart_counted n q ch
  | headerValueLws =>
      simp only [headerValueLws, finishHeader_counted, apply_ite (Out.counted n),
        ← headerValueStart_counted, ← headerFieldStart_counted]
      rfl
  | headerValueDiscardLws =>
      simp only [headerValueDiscardLws, finishHeader_counted, apply_ite (Out.counted n),
        ← after_counted, ← headerFieldStart_counted]
      rfl
  | headerValueDiscardWs =>
      simp only [headerValueDiscardWs, apply_ite (Out.counted n), ← headerValueStart_counted]
      rfl
  | headerValue =>
      cases skip with
      | none =>
          simp only [headerValue, headerAlmostDone, expect, headerValueChar_counted,
            apply_ite (Out.counted n), ← after_counted]
          rfl
      | some k =>
          simp only [headerValue, headerAlmostDone, expect, apply_ite (Out.counted n),
            ← after_counted]
          rfl
  | headerField =>
      simp only [headerField, headerFieldChar_counted, apply_ite (Out.counted n)]
      rfl
  | chunkSizeStart =>
      unfold chunkSizeStart
      cases unhex ch with
      | none => rfl
      | some v => rfl
  | chunkSize =>
      unfold chunkSize
      cases unhex ch with
      | none =>
          simp only [apply_ite (Out.counted n)]
          rfl
      | some v =>
          simp only [apply_ite (Out.counted n)]
          rfl
  | bodyIdentityEof | messageDone => rfl

/-! ### What a handler counts -/

/-- What operations do to the count, where `span` is what a finished span
    adds. There is no result when the limit is exceeded. -/
def countOps (span : Nat) : List Op → Nat → Option Nat
  | [], n => some n
  | .count :: ops, n => if n + span > httpMaxHeaderSize then none else countOps span ops (n + span)
  | .resetNread :: ops, _ => countOps span ops 0
  | .mark _ :: ops, n | .emit _ :: ops, n | .emitThrough _ :: ops, n => countOps span ops n

/-- Operations that count at most once, or clear the count. -/
inductive CountsOnce (ops : List Op) : Prop where
  | idle (h : ∀ span n, countOps span ops n = some n)
  | count (h : ∀ span n, countOps span ops n = countOps span [.count] n)
  | reset (h : ∀ span n, countOps span ops n = some 0)

/-- An outcome that counts at most once, and not inside a span that goes on.
    It stops for good only after an upgrade, which has a status of its own. It
    lets a jump to the end of a line begin only inside a value of no
    interest. -/
structure Frugal (before : State) (o : Out) : Prop where
  once : CountsOnce o.ops
  inside : o.verdict = .next → o.parser.state = before → spanState before = true →
    ∀ span n, countOps span o.ops n = some n
  done : o.verdict = .next → o.parser.state ≠ .headersDone
  stop : o.verdict = .complete .always → before = .headersDone ∨ o.parser.statusCode = 101
  skip : ∀ k, o.skip = some k →
    o.verdict = .next ∧ o.parser.state = .headerValue ∧ o.parser.headerState = .general ∧
      before = .headerValue ∧ k + 1 = httpMaxHeaderSize

variable (before s : State) (q : HttpParser) (ch : Byte) (ops : List Op)

theorem frugal_fail (e : HttpErrno) : Frugal before (fail q e) :=
  ⟨.idle fun _ _ => rfl, nofun, nofun, nofun, nofun⟩

theorem frugal_advance (hops : ∀ span n, countOps span ops n = some n)
    (hq : q.state ≠ .headersDone) : Frugal before (advance q ops) :=
  ⟨.idle hops, fun _ _ _ => hops, fun _ => hq, nofun, nofun⟩

theorem frugal_goto (hops : ∀ span n, countOps span ops n = some n)
    (hs : s ≠ .headersDone) : Frugal before (goto q s ops) :=
  frugal_advance before { q with state := s } ops hops hs

theorem frugal_leave (hops : CountsOnce ops) (hs : s ≠ .headersDone)
    (hleft : s = before → spanState before = false) : Frugal before (goto q s ops) := by
  refine ⟨hops, fun _ hsame hspan => ?_, fun _ => hs, nofun, nofun⟩
  rw [hleft hsame] at hspan
  exact absurd hspan Bool.false_ne_true

theorem frugal_complete (exit : Exit) (hops : CountsOnce ops)
    (hstop : exit = .always → before = .headersDone ∨ q.statusCode = 101) :
    Frugal before (complete q ops exit) :=
  ⟨hops, nofun, nofun, fun h => hstop (Verdict.complete.inj h), nofun⟩

theorem frugal_expect (wanted : Byte) (e : HttpErrno) (hs : s ≠ .headersDone) :
    Frugal before (expect q ch wanted e s) := by
  unfold expect
  split_ifs
  · exact frugal_fail before q e
  · exact frugal_goto before s q [] (fun _ _ => rfl) hs

theorem countsOnce_reset : CountsOnce [.resetNread] := .reset fun _ _ => rfl

theorem frugal_headersDone
    (hup : q.upgrade = true → before = .headersDone ∨ q.statusCode = 101)
    (hspan : spanState before = false) : Frugal before (headersDone q ch) := by
  unfold headersDone
  dsimp only
  split_ifs with h1 h2
  · exact frugal_fail before q .strict
  · exact frugal_complete before q _ .always countsOnce_reset
      (fun _ => hup (Bool.and_eq_true_iff.mp h2).1)
  · exact frugal_leave before _ q _ countsOnce_reset nofun (fun _ => hspan)
  · exact frugal_complete before q _ .never countsOnce_reset nofun
  · exact frugal_leave before _ q _ countsOnce_reset nofun (fun _ => hspan)
  · exact frugal_complete before q _ .never countsOnce_reset nofun
  · exact frugal_leave before _ q _ countsOnce_reset nofun (fun _ => hspan)

theorem frugal_headersAlmostDone (hspan : spanState before = false) :
    Frugal before (headersAlmostDone q ch) := by
  unfold headersAlmostDone
  split_ifs
  · exact frugal_fail before q .strict
  · exact frugal_complete before _ [] .ifUpgrade (.idle fun _ _ => rfl) nofun
  · exact frugal_fail before q .unexpectedContentLength
  · refine frugal_headersDone before _ ch (fun h => Or.inr ?_) hspan
    simp only [Bool.and_eq_true, decide_eq_true_eq] at h
    exact h.2

theorem frugal_headerFieldStart (hspan : spanState before = false) :
    Frugal before (headerFieldStart q ch) := by
  unfold headerFieldStart
  split_ifs
  · exact frugal_goto before _ q [] (fun _ _ => rfl) nofun
  · exact frugal_headersAlmostDone before _ ch hspan
  · exact frugal_fail before q .invalidHeaderToken
  · exact frugal_goto before _ _ _ (fun _ _ => rfl) nofun

theorem frugal_headerField (hq : q.state = .headerField) :
    Frugal .headerField (headerField q ch) := by
  unfold headerField
  split_ifs
  · refine frugal_advance _ _ [] (fun _ _ => rfl) ?_
    rw [headerFieldChar_state, hq]
    exact State.noConfusion
  · exact frugal_leave _ _ q _ (.count fun _ _ => rfl) nofun nofun
  · exact ⟨.count fun _ _ => rfl, nofun, nofun, nofun, nofun⟩

theorem frugal_headerValueStart : Frugal before (headerValueStart q ch) := by
  unfold headerValueStart
  dsimp only
  split
  case h_3 =>
    split_ifs
    · exact frugal_fail before _ _
    · exact frugal_fail before _ _
    · exact frugal_advance before _ _ (fun _ _ => rfl) nofun
  all_goals exact frugal_advance before _ _ (fun _ _ => rfl) nofun

theorem frugal_headerValueChar (hq : q.state = .headerValue) :
    Frugal .headerValue (headerValueChar q ch) := by
  have hstay : ∀ p : HttpParser, p.state = q.state → Frugal .headerValue (advance p []) := by
    intro p hp
    refine frugal_advance _ p [] (fun _ _ => rfl) ?_
    rw [hp, hq]
    exact State.noConfusion
  unfold headerValueChar
  dsimp only
  split
  case h_1 hgeneral =>
    -- The one place from which a jump to the end of the line starts.
    refine ⟨.idle fun _ _ => rfl, fun _ _ _ _ _ => rfl, fun _ => ?_, nofun, fun k hk => ?_⟩
    · rw [hq]
      exact State.noConfusion
    · rw [← Option.some.inj hk]
      exact ⟨rfl, hq, hgeneral, rfl, rfl⟩
  case h_2 =>
    split_ifs
    · exact hstay q rfl
    · exact frugal_fail _ _ _
    · exact frugal_fail _ _ _
    · exact hstay _ rfl
  case h_8 => split_ifs <;> exact hstay _ rfl
  case h_9 => split_ifs <;> exact hstay _ rfl
  all_goals
    first
    | exact hstay _ rfl
    | exact hstay _ (matching_state q _ _ _ _)
    | exact hstay _ (connectionKeyword_state q _ ch)

theorem frugal_headerValue (hq : q.state = .headerValue) :
    Frugal .headerValue (headerValue q none ch) := by
  unfold headerValue
  rw [if_neg (by exact nofun)]
  dsimp only
  split_ifs
  · exact frugal_leave _ _ q _ (.count fun _ _ => rfl) nofun nofun
  · unfold headerAlmostDone expect
    split_ifs
    · exact ⟨.count fun _ _ => rfl, nofun, nofun, nofun, nofun⟩
    · exact frugal_leave _ _ _ _ (.count fun _ _ => rfl) nofun nofun
  · exact frugal_fail _ q _
  · exact frugal_headerValueChar q ch hq

theorem frugal_resStatus (hq : q.state ≠ .headersDone) : Frugal before (resStatus q ch) := by
  unfold resStatus
  split_ifs
  · exact frugal_goto before _ q [] (fun _ _ => rfl) nofun
  · exact frugal_goto before _ q [] (fun _ _ => rfl) nofun
  · exact frugal_advance before q [] (fun _ _ => rfl) hq

theorem frugal_resStatusStart : Frugal before (resStatusStart q ch) := by
  unfold resStatusStart
  dsimp only
  split_ifs
  · exact frugal_resStatus before _ ch nofun
  · exact frugal_advance before _ [] (fun _ _ => rfl) nofun

theorem frugal_headerValueDiscardLws :
    Frugal .headerValueDiscardLws (headerValueDiscardLws q ch) := by
  unfold headerValueDiscardLws
  split_ifs
  · exact frugal_goto _ _ q [] (fun _ _ => rfl) nofun
  · -- Reporting an empty value counts nothing.
    have h := frugal_headerFieldStart .headerValueDiscardLws
      { finishHeader q with state := .headerFieldStart } ch rfl
    refine ⟨?_, fun _ _ hspan => absurd hspan Bool.false_ne_true, h.done, h.stop, h.skip⟩
    cases h.once with
    | idle h => exact .idle h
    | count h => exact .count h
    | reset h => exact .reset h

/-- Every handler is frugal when no jump is under way. -/
theorem byteStep_frugal : Frugal q.state (byteStep q none ch) := by
  have hstay : ∀ p : HttpParser, p.state ≠ .headersDone → Frugal q.state (advance p []) :=
    fun p hp => frugal_advance _ p [] (fun _ _ => rfl) hp
  have hgo : ∀ (p : HttpParser) (s : State), s ≠ .headersDone → Frugal q.state (goto p s []) :=
    fun p s hs => frugal_goto _ s p [] (fun _ _ => rfl) hs
  have hfail : ∀ (p : HttpParser) (e : HttpErrno), Frugal q.state (fail p e) :=
    fun p e => frugal_fail _ p e
  unfold byteStep
  cases hq : q.state with
  | resH | resHT | resHTT | resHTTP | resHttpDot | resHttpEnd | resLineAlmostDone
  | headerValueDiscardWsAlmostDone | headerAlmostDone => exact frugal_expect _ _ q ch _ _ nofun
  | dead | startRes | resHttpMajor | resHttpMinor | resFirstStatusCode | chunkParameters =>
      simp only [startRes, resHttpMajor, resHttpMinor, resFirstStatusCode]
      rw [hq] at hstay hgo hfail
      split_ifs <;>
        first
        | exact hfail _ _
        | exact hgo _ _ State.noConfusion
        | exact hstay _ (by rw [hq]; exact State.noConfusion)
  | resStatusCode =>
      rw [hq] at hstay hgo hfail
      exact resStatusCode_rule (Frugal _) q ch (hgo _ _ State.noConfusion)
        (frugal_resStatusStart _ _ ch) (fun p _ => hfail p _)
        (hstay _ (by rw [hq]; exact State.noConfusion))
  | resStatusStart => exact frugal_resStatusStart _ q ch
  | resStatus => exact frugal_resStatus _ q ch (by rw [hq]; exact State.noConfusion)
  | headerFieldStart => exact frugal_headerFieldStart _ q ch rfl
  | headerField => exact frugal_headerField q ch hq
  | headerValueDiscardWs =>
      rw [hq] at hstay hgo
      exact headerValueDiscardWs_rule (Frugal _) q ch
        (hstay q (by rw [hq]; exact State.noConfusion)) (hgo _ _ State.noConfusion)
        (hgo _ _ State.noConfusion) (frugal_headerValueStart _ q ch)
  | headerValueDiscardLws => exact frugal_headerValueDiscardLws q ch
  | headerValueStart => exact frugal_headerValueStart _ q ch
  | headerValue => exact frugal_headerValue q ch hq
  | headerValueLws =>
      exact headerValueLws_rule (Frugal _) q ch (frugal_headerValueStart _ _ ch)
        (frugal_headerFieldStart _ _ ch rfl)
  | chunkSizeStart =>
      rw [hq] at hgo hfail
      exact chunkSizeStart_rule (Frugal _) q ch (hfail _ _) (fun _ => hgo _ _ State.noConfusion)
  | chunkSize =>
      rw [hq] at hstay hgo hfail
      exact chunkSize_rule (Frugal _) q ch (hgo _ _ State.noConfusion)
        (hgo _ _ State.noConfusion) (fun e => hfail q e)
        (fun _ => hstay _ (by rw [hq]; exact State.noConfusion))
  | chunkSizeAlmostDone =>
      dsimp only [chunkSizeAlmostDone]
      split_ifs
      · exact frugal_fail _ q _
      · exact frugal_leave _ _ _ _ countsOnce_reset nofun nofun
      · exact frugal_leave _ _ _ _ countsOnce_reset nofun nofun
  | headersAlmostDone => exact frugal_headersAlmostDone _ q ch rfl
  | headersDone => exact frugal_headersDone _ q ch (fun _ => Or.inl rfl) rfl
  | chunkData =>
      dsimp only [chunkData]
      split_ifs
      · exact frugal_goto _ _ _ _ (fun _ _ => rfl) nofun
      · exact frugal_advance _ _ _ (fun _ _ => rfl) (by rw [hq]; exact State.noConfusion)
  | chunkDataAlmostDone =>
      dsimp only [chunkDataAlmostDone]
      split_ifs
      · exact frugal_fail _ q _
      · exact frugal_goto _ _ _ _ (fun _ _ => rfl) nofun
  | chunkDataDone =>
      dsimp only [chunkDataDone]
      split_ifs
      · exact frugal_fail _ q _
      · exact frugal_leave _ _ _ _ countsOnce_reset nofun nofun
  | bodyIdentity =>
      dsimp only [bodyIdentity]
      split_ifs
      · exact frugal_complete _ _ _ .ifUpgrade (.idle fun _ _ => rfl) nofun
      · exact frugal_advance _ _ _ (fun _ _ => rfl) (by rw [hq]; exact State.noConfusion)
  | bodyIdentityEof =>
      exact frugal_advance _ q _ (fun _ _ => rfl) (by rw [hq]; exact State.noConfusion)
  | messageDone => exact frugal_complete _ _ [] .ifUpgrade (.idle fun _ _ => rfl) nofun

/-- Inside a value of no interest, a jump reads the byte as it would be read
    without one, unless it is not a header byte at all. -/
theorem byteStep_skip (k : Nat) (hq : q.state = .headerValue) (hg : q.headerState = .general)
    (hk : 0 < k) (hok : ∀ e, (byteStep q none ch).verdict ≠ .fail e) :
    byteStep q (some k) ch = byteStep q none ch ∨
      (byteStep q none ch = ⟨q, [], .next, some (httpMaxHeaderSize - 1)⟩ ∧
        byteStep q (some k) ch = ⟨q, [], .next, some (k - 1)⟩) := by
  have hzero : some k ≠ some 0 := fun h => Nat.ne_of_gt hk (Option.some.inj h)
  have hnone : ∀ skip, byteStep q skip ch = headerValue q skip ch := by
    intro skip
    unfold byteStep
    rw [hq]
  rw [hnone] at hok
  rw [hnone, hnone]
  unfold headerValue at hok ⊢
  simp only [hzero, reduceCtorEq, if_false] at hok ⊢
  by_cases hcr : ch = CR
  · simp only [hcr, if_true, true_or]
  by_cases hlf : ch = LF
  · simp only [hlf, if_true, true_or]
  simp only [hcr, hlf, if_false] at hok ⊢
  -- Neither end of line: both loops stay, and differ in how far they may look.
  refine Or.inr ⟨?_, trivial⟩
  by_cases hch : (!isHeaderChar ch) = true
  · rw [if_pos hch] at hok
    exact absurd rfl (hok .invalidHeaderToken)
  · rw [if_neg hch]
    unfold headerValueChar
    rw [hg]

end HttpParser

end Wrk
