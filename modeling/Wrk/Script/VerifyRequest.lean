import Mathlib.Data.List.Induction
import Wrk.HttpParser.RequestRun

/-!
# Verifying a Request

`script_verify_request` passes the string that a script's `request()` returned
through the parser of requests, and takes the number of messages that complete
for the depth of the pipeline: that many responses are expected for every time
the string is sent. It rejects a string that the parser does not read to its
end, and one in which no message completes.

A string may end within a further request, whose beginning the parser reads
without an objection. An accepted string is made of whole requests exactly if
nothing but blank lines follow the last one, and the last one allows another to
follow.

## Main definitions

* `scriptVerifyRequest`: The function.
* `IsRequest`: One whole request.
* `MadeOfRequests`: A string of whole requests.
* `EndsWithRequest`: A string whose last bytes belong to no further request.

## Theorems

* `segmented`: What a call has read is whole requests and the one under way.
* `start_iff_ends`: Where the parser is in its start state again.
* `made_iff_ends`: Which accepted strings are made of whole requests.
* `truncated_accepted`: One that is not.
-/

namespace Wrk

namespace Script

open HttpParser HttpParser.Request

/-- `http_errno_description`. -/
def httpErrnoDescription : HttpErrno → String
  | .ok => "success"
  | .invalidEofState => "stream ended at an unexpected time"
  | .headerOverflow => "too many header bytes seen; overflow detected"
  | .closedConnection => "data received after completed connection: close message"
  | .invalidVersion => "invalid HTTP version"
  | .invalidStatus => "invalid HTTP status code"
  | .invalidMethod => "invalid HTTP method"
  | .invalidUrl => "invalid URL"
  | .lfExpected => "LF character expected"
  | .invalidHeaderToken => "invalid character in header"
  | .invalidContentLength => "invalid character in content-length header"
  | .unexpectedContentLength => "unexpected content-length header"
  | .invalidChunkSize => "invalid character in chunk size header"
  | .invalidConstant => "invalid constant string"
  | .strict => "strict mode assertion failed"
  | .unknown => "an unknown error occurred"

/-- What is printed before the process exits. -/
structure Rejection where
  msg : String
  line : Nat
  column : Nat
  deriving DecidableEq, Repr

/-- The line and column after some bytes. -/
def position (text : Bytes) : Nat × Nat :=
  text.foldl (fun at_ c => if c = LF then (at_.1 + 1, 1) else (at_.1, at_.2 + 1)) (1, 1)

/-- `script_verify_request`, on the string the script returned. -/
def scriptVerifyRequest (request : Bytes) : Except Rejection Nat :=
  let r := Request.execute request
  let parsed := r.2.2
  let count := r.2.1
  if parsed ≠ request.length || count = 0 then
    let err := r.1.core.httpErrno
    let msg := if err ≠ .ok then httpErrnoDescription err else "incomplete request"
    let at_ := position (request.take parsed)
    .error ⟨msg, at_.1, at_.2⟩
  else .ok count

/-! ### Whole requests -/

/-- The parser is back in the state it was initialized in. -/
def inStart (q : RequestParser) : Prop := q.line = some .startReq

/-- One whole request: the parser reads it to its end, completes one message
    and is in its start state again. Blank lines around a request are read
    with it. -/
structure IsRequest (text : Bytes) : Prop where
  read : (Request.execute text).2.2 = text.length
  one : (Request.execute text).2.1 = 1
  start : inStart (Request.execute text).1

/-- A string of `k` whole requests, after which the parser is in its start
    state. -/
def MadeOfRequests (text : Bytes) (k : Nat) : Prop :=
  (∃ requests : List Bytes,
    requests.length = k ∧ requests.flatten = text ∧ ∀ r ∈ requests, IsRequest r) ∧
    inStart (Request.execute text).1

/-- The request a byte completes. -/
def completes (x : Call) (ch : Byte) : Option RequestParser :=
  if x.returned.isSome then none
  else
    match x.tally ch, (step x.parser x.skip ch).verdict with
    | some n, .complete _ => some (x.handled ch n).parser
    | _, _ => none

/-- Nothing but blank lines follow the byte that completes the last request,
    and that request allows another to follow. -/
def EndsWithRequest (text : Bytes) : Prop :=
  ∃ before ch blank q,
    text = before ++ [ch] ++ blank ∧ (∀ b ∈ blank, isNewline b = true) ∧
      completes (Call.start.feed before) ch = some q ∧
        Request.httpShouldKeepAlive q.core = true

/-! ### The end of the input -/

theorem finishInput_line (x : Call) : x.finishInput.parser.line = x.parser.line ∧
    x.finishInput.count = x.count := by
  have hcount : ∀ k, (x.countHeaderSize k).parser.line = x.parser.line ∧
      (x.countHeaderSize k).count = x.count := by
    intro k
    rw [countHeaderSize_eq]
    split_ifs <;> exact ⟨rfl, rfl⟩
  unfold Call.finishInput
  cases x.span with
  | none =>
      dsimp only
      split_ifs <;> exact ⟨rfl, rfl⟩
  | some k =>
      dsimp only
      split_ifs
      · exact ⟨rfl, rfl⟩
      · exact hcount k
      · exact hcount k

theorem finishInput_returned (x : Call) (h : ReturnsPos x) :
    x.finishInput.returned = some x.pos := by
  unfold Call.finishInput
  rcases h with hret | hret
  · rw [if_neg (by rw [hret]; exact Bool.false_ne_true)]
    cases x.span with
    | none =>
        dsimp only
        rw [if_neg (by rw [hret]; exact Bool.false_ne_true)]
    | some k =>
        dsimp only
        rw [countHeaderSize_eq]
        by_cases hmax : x.parser.core.nread + k > httpMaxHeaderSize
        · rw [if_pos hmax]
          rfl
        · rw [if_neg hmax, if_neg (by rw [hret]; exact Bool.false_ne_true)]
  · rw [if_pos (by rw [hret]; rfl)]
    exact hret

/-- A whole call, by the bytes it reads. -/
theorem execute_feed (text : Bytes) :
    (Request.execute text).1.line = (Call.start.feed text).parser.line ∧
      (Request.execute text).2.1 = (Call.start.feed text).count ∧
      (Request.execute text).2.2 = (Call.start.feed text).pos := by
  unfold Request.execute
  by_cases hempty : text = []
  · rw [if_pos hempty, hempty]
    exact ⟨rfl, rfl, rfl⟩
  · rw [if_neg hempty]
    have hline := finishInput_line (Call.start.feed text)
    have hret := finishInput_returned _ (feed_pos Call.start text (Or.inl rfl)).1
    refine ⟨hline.1, hline.2, ?_⟩
    dsimp only
    rw [hret]
    rfl

theorem verify_ok (text : Bytes) (k : Nat) (h : scriptVerifyRequest text = .ok k) :
    ReadsAll text ∧ (Call.start.feed text).count = k ∧ 0 < k := by
  rcases execute_feed text with ⟨_, hcount, hpos⟩
  unfold scriptVerifyRequest at h
  dsimp only at h
  split_ifs at h with hreject
  rw [Bool.or_eq_true, not_or] at hreject
  have hk := Except.ok.inj h
  simp only [decide_eq_true_eq, not_not] at hreject
  refine ⟨hpos.symm.trans hreject.1, hcount.symm.trans hk, ?_⟩
  omega

theorem isRequest_of_feed (text : Bytes) (hread : ReadsAll text)
    (hone : (Call.start.feed text).count = 1) (hstart : inStart (Call.start.feed text).parser) :
    IsRequest text := by
  rcases execute_feed text with ⟨hline, hcount, hpos⟩
  exact ⟨hpos.trans hread, hcount.trans hone, hline.trans hstart⟩

/-! ### Where the parser is in its start state -/

theorem completes_complete (x : Call) (ch : Byte) (n : Nat) (exit : Exit)
    (hret : x.returned = none) (htally : x.tally ch = some n)
    (hv : (step x.parser x.skip ch).verdict = .complete exit) :
    completes x ch = some (x.handled ch n).parser := by
  unfold completes
  rw [if_neg (by rw [hret]; exact Bool.false_ne_true), htally, hv]

theorem completes_next (x : Call) (ch : Byte)
    (hv : (step x.parser x.skip ch).verdict = .next) : completes x ch = none := by
  unfold completes
  rw [hv]
  cases x.tally ch <;> simp only [ite_self]

theorem newMessage_start (q : RequestParser) :
    inStart (Request.newMessage q) ↔ Request.httpShouldKeepAlive q.core = true := by
  unfold Request.newMessage inStart
  by_cases hkeep : Request.httpShouldKeepAlive q.core = true
  · rw [if_pos hkeep]
    exact ⟨fun _ => hkeep, fun _ => rfl⟩
  · rw [if_neg hkeep]
    exact ⟨fun h => absurd h.symm (Option.some_ne_none _), fun h => absurd h hkeep⟩

/-- A byte that is read leads to the start state as a blank line there, or by
    completing a request that allows another. -/
theorem read_start (x : Call) (ch : Byte) (hret : x.returned = none) (hread : Read x ch) :
    inStart (x.byte ch).parser ↔
      (inStart x.parser ∧ isNewline ch = true) ∨
        ∃ q, completes x ch = some q ∧ Request.httpShouldKeepAlive q.core = true := by
  cases hread with
  | next n tally verdict after =>
      rw [after, completes_next x ch verdict]
      refine ⟨fun h => Or.inl (step_next_start x.parser x.skip ch verdict h), fun h => ?_⟩
      rcases h with ⟨hstart, hch⟩ | ⟨q, hq, _⟩
      · unfold Call.afterNext Call.handled
        rw [step_newline x.parser x.skip ch hstart hch]
        exact hstart
      · exact absurd hq.symm (Option.some_ne_none _)
  | complete n exit tally verdict after =>
      rw [after, completes_complete x ch n exit hret tally verdict]
      have hline := (step_complete x.parser x.skip ch exit verdict).1
      refine (newMessage_start (x.handled ch n).parser).trans
        ⟨fun h => Or.inr ⟨_, rfl, h⟩, fun h => ?_⟩
      rcases h with ⟨hstart, hch⟩ | ⟨q, hq, hkeep⟩
      · rw [step_newline x.parser x.skip ch hstart hch] at verdict
        exact Verdict.noConfusion verdict
      · rw [Option.some.inj hq]
        exact hkeep

theorem read_blank (x : Call) (ch : Byte) (hstart : inStart x.parser)
    (hch : isNewline ch = true) (hread : Read x ch) :
    inStart (x.byte ch).parser ∧ (x.byte ch).count = x.count := by
  cases hread with
  | next n tally verdict after =>
      rw [after]
      unfold Call.afterNext Call.handled
      rw [step_newline x.parser x.skip ch hstart hch]
      exact ⟨hstart, rfl⟩
  | complete n exit tally verdict after =>
      rw [step_newline x.parser x.skip ch hstart hch] at verdict
      exact Verdict.noConfusion verdict

/-- Blank lines are no request. -/
theorem blank_feed (text : Bytes) (h : ReadsAll text) (hblank : ∀ b ∈ text, isNewline b = true) :
    inStart (Call.start.feed text).parser ∧ (Call.start.feed text).count = 0 := by
  induction text using List.reverseRecOn with
  | nil => exact ⟨rfl, rfl⟩
  | append_singleton text ch ih =>
      rcases readsAll_snoc text ch h with ⟨hreads, _, hread⟩
      rcases ih hreads (fun b hb => hblank b (List.mem_append_left _ hb)) with ⟨hstart, hcount⟩
      have hch := hblank ch (List.mem_append_right _ (List.mem_singleton_self ch))
      rw [feed_snoc]
      rcases read_blank _ ch hstart hch hread with ⟨hstart', hcount'⟩
      exact ⟨hstart', hcount'.trans hcount⟩

/-- What is read to its end leaves the parser in its start state exactly if it
    is blank, or ends with a request that allows another. -/
theorem start_iff_ends (text : Bytes) (h : ReadsAll text) :
    inStart (Call.start.feed text).parser ↔
      (∀ b ∈ text, isNewline b = true) ∨ EndsWithRequest text := by
  induction text using List.reverseRecOn with
  | nil => exact ⟨fun _ => Or.inl nofun, fun _ => rfl⟩
  | append_singleton text ch ih =>
      rcases readsAll_snoc text ch h with ⟨hreads, hret, hread⟩
      have hsnoc : ∀ blank : Bytes, (∀ b ∈ blank, isNewline b = true) → isNewline ch = true →
          ∀ b ∈ blank ++ [ch], isNewline b = true := by
        intro blank hblank hch b hb
        rcases List.mem_append.mp hb with hb | hb
        · exact hblank b hb
        · rw [List.mem_singleton.mp hb]
          exact hch
      constructor
      · intro hstart
        rw [feed_snoc, read_start _ ch hret hread, ih hreads] at hstart
        rcases hstart with ⟨hblank | hends, hch⟩ | ⟨q, hq, hkeep⟩
        · exact Or.inl (hsnoc text hblank hch)
        · rcases hends with ⟨before, c, blank, q, rfl, hblank, hq, hkeep⟩
          exact Or.inr ⟨before, c, blank ++ [ch], q, List.append_assoc _ _ _,
            hsnoc blank hblank hch, hq, hkeep⟩
        · exact Or.inr ⟨text, ch, [], q, (List.append_nil _).symm, nofun, hq, hkeep⟩
      · -- A request that ends the text, or one that is followed by blank lines.
        rintro (hblank | ⟨before, c, blank, q, htext, hblank, hq, hkeep⟩)
        · exact (blank_feed _ h hblank).1
        · rw [feed_snoc, read_start _ ch hret hread]
          rcases List.eq_nil_or_concat blank with rfl | ⟨blank', c', rfl⟩
          · rw [List.append_nil] at htext
            rcases List.append_inj' htext rfl with ⟨rfl, hc⟩
            rw [(List.cons.inj hc).1]
            exact Or.inr ⟨q, hq, hkeep⟩
          · rw [List.concat_eq_append, ← List.append_assoc] at htext
            rcases List.append_inj' htext rfl with ⟨rfl, hc⟩
            rw [List.concat_eq_append] at hblank
            refine Or.inl ⟨(ih hreads).mpr (Or.inr ⟨before, c, blank', q, rfl, ?_, hq, hkeep⟩), ?_⟩
            · exact fun b hb => hblank b (List.mem_append_left _ hb)
            · rw [(List.cons.inj hc).1]
              exact hblank c' (List.mem_append_right _ (List.mem_singleton_self c'))

/-! ### Cutting a string into requests -/

/-- What is left of the requests before, where the parser is in its start
    state again. -/
structure Tidy (x : Call) : Prop where
  kept : HttpParser.kept x.parser.core = (0, .ok)
  start : inStart x.parser → x.span = none ∧ x.skip = none ∧
    (x.returned = none → x.parser.core.upgrade = false)

theorem newMessage_kept (q : RequestParser) :
    HttpParser.kept (Request.newMessage q).core = HttpParser.kept q.core := by
  unfold Request.newMessage
  split_ifs <;> rfl

theorem tidy_read (x : Call) (ch : Byte) (hret : x.returned = none) (hread : Read x ch)
    (h : Tidy x) : Tidy (x.byte ch) := by
  have hkept := step_kept x.parser x.skip ch
  cases hread with
  | next n tally verdict after =>
      rw [after]
      refine ⟨hkept.trans h.kept, fun hstart => ?_⟩
      rcases step_next_start x.parser x.skip ch verdict hstart with ⟨hq, hch⟩
      rcases h.start hq with ⟨hspan, hskip, hup⟩
      unfold Call.afterNext Call.handled
      rw [step_newline x.parser x.skip ch hq hch]
      refine ⟨?_, rfl, fun _ => hup hret⟩
      have hout : Call.inside x.parser (counted n x.parser) = false := by
        unfold Call.inside
        rw [hq]
        rfl
      exact if_neg (fun hin => Bool.false_ne_true (hout.symm.trans hin))
  | complete n exit tally verdict after =>
      rcases step_complete x.parser x.skip ch exit verdict with ⟨_, hnever⟩
      rw [after]
      refine ⟨(newMessage_kept _).trans (hkept.trans h.kept), fun _ => ⟨rfl, rfl, fun hgo => ?_⟩⟩
      change (Request.newMessage (x.handled ch n).parser).core.upgrade = false
      have hstop : ¬ stops exit (Request.newMessage (x.handled ch n).parser) = true := by
        intro hstop
        rw [show (x.afterComplete ch n exit).returned = some (x.pos + 1) from if_pos hstop] at hgo
        exact Option.some_ne_none _ hgo
      rw [(newMessage_upgrade _).1]
      -- The call goes on, so that the exit is not `always`, and one that looks at
      -- the upgrade has seen none.
      cases exit with
      | always => exact absurd rfl hstop
      | never => exact hnever rfl
      | ifUpgrade =>
          unfold stops at hstop
          rw [(newMessage_upgrade _).1] at hstop
          exact Bool.eq_false_iff.mpr hstop

/-- A new call knows what a parser in its start state knows. -/
theorem agree_start (x : Call) (h : Tidy x) (hstart : inStart x.parser) (hret : x.returned = none) :
    Agree x Call.start := by
  rcases h.start hstart with ⟨hspan, hskip, hup⟩
  refine ⟨?_, Nat.zero_le _, hspan, hskip⟩
  have hkept := Prod.mk.inj h.kept
  have hup' := hup hret
  unfold settle
  rw [show x.parser.line = some .startReq from hstart, hkept.1, hkept.2, hup']
  rfl

/-- What a call has read: whole requests, and bytes after them on which a new
    call agrees with it. -/
structure Segments (text : Bytes) (requests : List Bytes) (rest : Bytes) : Prop where
  cut : text = requests.flatten ++ rest
  whole : ∀ r ∈ requests, IsRequest r
  reads : ReadsAll rest
  agree : Agree (Call.start.feed text) (Call.start.feed rest)
  going : (Call.start.feed rest).returned = none ↔ (Call.start.feed text).returned = none
  count : (Call.start.feed text).count = requests.length + (Call.start.feed rest).count

/-- The bytes after the whole requests are a request and blank lines, or no
    request is complete in them, and they are not blank unless they come
    first. -/
def UnderWay (requests : List Bytes) (rest : Bytes) : Prop :=
  ((Call.start.feed rest).count = 0 ∧
      (inStart (Call.start.feed rest).parser → requests = [])) ∨
    ((Call.start.feed rest).count = 1 ∧ inStart (Call.start.feed rest).parser)

/-- No other request is read. -/
def Finished (text : Bytes) : Prop :=
  (Call.start.feed text).parser.line = none ∧ (Call.start.feed text).parser.core.state = .dead

theorem agree_line (x y : Call) (h : Agree x y) : x.parser.line = y.parser.line := by
  rw [← settle_line, h.parser, settle_line]

theorem finished_of_agree (text rest : Bytes)
    (h : Agree (Call.start.feed text) (Call.start.feed rest)) (hrest : Finished rest) :
    Finished text := by
  have hline := (agree_line _ _ h).trans hrest.1
  refine ⟨hline, ?_⟩
  have hparser := h.parser
  unfold settle at hparser
  rw [hline, hrest.1] at hparser
  exact (congrArg (fun q => q.core.state) hparser).trans hrest.2

/-- One more byte that the call reads. -/
theorem segments_read (text : Bytes) (ch : Byte) (requests : List Bytes) (rest : Bytes)
    (hret : (Call.start.feed text).returned = none) (hread : Read (Call.start.feed text) ch)
    (h : Segments text requests rest) :
    Read (Call.start.feed rest) ch ∧ Segments (text ++ [ch]) requests (rest ++ [ch]) := by
  have hret' := h.going.mpr hret
  rcases byte_agree _ _ ch h.agree hret hret' hread with ⟨hread', hagree, hgoing, hcount⟩
  refine ⟨hread', ?_⟩
  have hx := feed_snoc Call.start text ch
  have hy := feed_snoc Call.start rest ch
  refine ⟨?_, h.whole, ?_, ?_, ?_, ?_⟩
  · rw [h.cut, List.append_assoc]
  · unfold ReadsAll
    rw [hy, hread'.pos, h.reads, List.length_append, List.length_singleton]
  · rw [hx, hy]
    exact hagree
  · rw [hx, hy]
    exact hgoing
  · rw [hx, hy]
    have hbefore := h.count
    omega

/-- A byte of a request that is not complete yet. -/
theorem segments_byte (text : Bytes) (ch : Byte) (requests : List Bytes) (rest : Bytes)
    (hret : (Call.start.feed text).returned = none) (hread : Read (Call.start.feed text) ch)
    (h : Segments text requests rest) (hzero : (Call.start.feed rest).count = 0)
    (hfirst : inStart (Call.start.feed rest).parser → isNewline ch = true → requests = []) :
    Finished (text ++ [ch]) ∨
      (Segments (text ++ [ch]) requests (rest ++ [ch]) ∧ UnderWay requests (rest ++ [ch])) := by
  rcases segments_read text ch requests rest hret hread h with ⟨hread', hseg⟩
  have hy := feed_snoc Call.start rest ch
  cases hread' with
  | next n tally verdict after =>
      refine Or.inr ⟨hseg, Or.inl ⟨?_, fun hstart => ?_⟩⟩
      · rw [hy, after]
        exact hzero
      · rw [hy, after] at hstart
        rcases step_next_start _ _ ch verdict hstart with ⟨hstart', hch⟩
        exact hfirst hstart' hch
  | complete n exit tally verdict after =>
      -- Where the connection is not kept, the parser is dead after this request.
      by_cases hkeep : Request.httpShouldKeepAlive ((Call.start.feed rest).handled ch n).parser.core
          = true
      · refine Or.inr ⟨hseg, Or.inr ⟨?_, ?_⟩⟩
        · rw [hy, after]
          exact congrArg Nat.succ hzero
        · rw [hy, after]
          exact (newMessage_start _).mpr hkeep
      · refine Or.inl (finished_of_agree _ _ hseg.agree ?_)
        unfold Finished
        rw [hy, after]
        unfold Call.afterComplete Request.newMessage
        dsimp only
        rw [if_neg hkeep]
        exact ⟨rfl, rfl⟩

/-- One more byte. When a request begins after one that is complete, the
    string is cut before it. -/
theorem segments_snoc (text : Bytes) (ch : Byte) (requests : List Bytes) (rest : Bytes)
    (hret : (Call.start.feed text).returned = none) (hread : Read (Call.start.feed text) ch)
    (htidy : Tidy (Call.start.feed text)) (h : Segments text requests rest)
    (hway : UnderWay requests rest) :
    Finished (text ++ [ch]) ∨ ∃ requests' rest',
      Segments (text ++ [ch]) requests' rest' ∧ UnderWay requests' rest' := by
  rcases hway with ⟨hzero, hfirst⟩ | ⟨hone, hstart⟩
  · exact (segments_byte text ch requests rest hret hread h hzero (fun hs _ => hfirst hs)).imp_right
      (fun hseg => ⟨requests, _, hseg⟩)
  · cases hch : isNewline ch with
    | true =>
        rcases segments_read text ch requests rest hret hread h with ⟨hread', hseg⟩
        rcases read_blank _ ch hstart hch hread' with ⟨hstart', hcount'⟩
        refine Or.inr ⟨requests, _, hseg, Or.inr ?_⟩
        rw [feed_snoc]
        exact ⟨hcount'.trans hone, hstart'⟩
    | false =>
        -- Here one request is whole and the next begins, so that the text is cut.
        have hx : inStart (Call.start.feed text).parser := (agree_line _ _ h.agree).trans hstart
        have hcut : Segments text (requests ++ [rest]) [] := by
          refine ⟨?_, ?_, rfl, agree_start _ htidy hx hret, ⟨fun _ => hret, fun _ => rfl⟩, ?_⟩
          · rw [List.flatten_concat, List.append_nil]
            exact h.cut
          · intro r hr
            rcases List.mem_append.mp hr with hr | hr
            · exact h.whole r hr
            · rw [List.mem_singleton.mp hr]
              exact isRequest_of_feed rest h.reads hone hstart
          · rw [List.length_append, List.length_singleton, h.count, hone]
            rfl
        exact (segments_byte text ch _ [] hret hread hcut rfl
          (fun _ hc => absurd (hch.symm.trans hc) Bool.false_ne_true)).imp_right
          (fun hseg => ⟨_, _, hseg⟩)

/-- A parser that allows no other message reads blank lines only. -/
theorem step_dead (q : RequestParser) (skip : Option Nat) (ch : Byte) (hline : q.line = none)
    (hdead : q.core.state = .dead) :
    step q skip ch =
      if isNewline ch then ⟨q, [], .next, none⟩ else ⟨q, [], .fail .closedConnection, none⟩ := by
  rcases q with ⟨line, m, core⟩
  dsimp only at hline hdead
  unfold step coreStep byteStep
  rw [hline]
  dsimp only
  rw [hdead]
  dsimp only
  by_cases hch : isNewline ch = true
  · have hone : (if ch = CR || ch = LF then advance core [] else fail core .closedConnection) =
        advance core [] := if_pos hch
    rw [if_pos hch, hone]
    rfl
  · have hone : (if ch = CR || ch = LF then advance core [] else fail core .closedConnection) =
        fail core .closedConnection := if_neg hch
    rw [if_neg hch, hone]
    rfl

theorem finished_snoc (text : Bytes) (ch : Byte) (hread : Read (Call.start.feed text) ch)
    (h : Finished text) : Finished (text ++ [ch]) := by
  have hstep := step_dead _ (Call.start.feed text).skip ch h.1 h.2
  -- A dead parser lets blank lines pass and objects to all else.
  by_cases hch : isNewline ch = true
  · rw [if_pos hch] at hstep
    unfold Finished
    rw [feed_snoc]
    cases hread with
    | next n tally verdict after =>
        rw [after]
        unfold Call.afterNext Call.handled
        rw [hstep]
        exact h
    | complete n exit tally verdict after =>
        rw [hstep] at verdict
        exact Verdict.noConfusion verdict
  · rw [if_neg hch] at hstep
    cases hread with
    | next n tally verdict after =>
        rw [hstep] at verdict
        exact Verdict.noConfusion verdict
    | complete n exit tally verdict after =>
        rw [hstep] at verdict
        exact Verdict.noConfusion verdict

/-- What a call reads is whole requests and the bytes of one more, unless the
    last request allowed no other. -/
theorem segmented (text : Bytes) (h : ReadsAll text) :
    Tidy (Call.start.feed text) ∧
      (Finished text ∨ ∃ requests rest, Segments text requests rest ∧ UnderWay requests rest) := by
  induction text using List.reverseRecOn with
  | nil =>
      refine ⟨⟨rfl, fun _ => ⟨rfl, rfl, fun _ => rfl⟩⟩, Or.inr ⟨[], [], ?_, Or.inl ⟨rfl, fun _ => rfl⟩⟩⟩
      exact ⟨rfl, nofun, rfl, ⟨rfl, Nat.le_refl _, rfl, rfl⟩, Iff.rfl, rfl⟩
  | append_singleton text ch ih =>
      rcases readsAll_snoc text ch h with ⟨hreads, hret, hread⟩
      rcases ih hreads with ⟨htidy, hcase⟩
      refine ⟨?_, ?_⟩
      · rw [feed_snoc]
        exact tidy_read _ ch hret hread htidy
      · rcases hcase with hfin | ⟨requests, rest, hseg, hway⟩
        · exact Or.inl (finished_snoc text ch hread hfin)
        · exact segments_snoc text ch requests rest hret hread htidy hseg hway

/-- Where the parser is in its start state again, the string is made of whole
    requests. -/
theorem requests_of_start (text : Bytes) (h : ReadsAll text)
    (hstart : inStart (Call.start.feed text).parser) (hpos : 0 < (Call.start.feed text).count) :
    ∃ requests : List Bytes, requests.length = (Call.start.feed text).count ∧
      requests.flatten = text ∧ ∀ r ∈ requests, IsRequest r := by
  rcases (segmented text h).2 with hfin | ⟨requests, rest, hseg, hway⟩
  · exact absurd (hfin.1.symm.trans hstart).symm (Option.some_ne_none _)
  · have hrest : inStart (Call.start.feed rest).parser :=
      (agree_line _ _ hseg.agree).symm.trans hstart
    have hcount := hseg.count
    rcases hway with ⟨hzero, hfirst⟩ | ⟨hone, _⟩
    · rw [hfirst hrest, hzero] at hcount
      exact absurd hpos (by rw [hcount]; exact Nat.lt_irrefl _)
    · refine ⟨requests ++ [rest], ?_, ?_, ?_⟩
      · rw [List.length_append, List.length_singleton, hcount, hone]
      · rw [List.flatten_concat]
        exact hseg.cut.symm
      · intro r hr
        rcases List.mem_append.mp hr with hr | hr
        · exact hseg.whole r hr
        · rw [List.mem_singleton.mp hr]
          exact isRequest_of_feed rest hseg.reads hone hrest

/-- An accepted string is made of whole requests exactly if nothing but blank
    lines follow the byte that completes the last one, and that request allows
    another to follow. -/
theorem made_iff_ends (request : Bytes) (k : Nat) (h : scriptVerifyRequest request = .ok k) :
    MadeOfRequests request k ↔ EndsWithRequest request := by
  rcases verify_ok request k h with ⟨hreads, hcount, hpos⟩
  have hline := (execute_feed request).1
  have hiff := start_iff_ends request hreads
  constructor
  · rintro ⟨_, hstart⟩
    rcases hiff.mp (hline.symm.trans hstart) with hblank | hends
    · have hzero := (blank_feed request hreads hblank).2
      omega
    · exact hends
  · intro hends
    have hstart := hiff.mpr (Or.inr hends)
    rcases requests_of_start request hreads hstart (by omega) with ⟨requests, hlen, hflat, hwhole⟩
    exact ⟨⟨requests, hlen.trans hcount, hflat, hwhole⟩, hline.trans hstart⟩

/-- Two requests, and a blank line after them. -/
theorem made_iff_ends_pair :
    MadeOfRequests (bytes "GET / HTTP/1.1\r\n\r\nPUT /a HTTP/1.1\r\nContent-Length: 1\r\n\r\nx\r\n")
      2 := by
  refine (made_iff_ends _ 2 (by decide +kernel)).mpr
    ⟨bytes "GET / HTTP/1.1\r\n\r\nPUT /a HTTP/1.1\r\nContent-Length: 1\r\n\r\n", 'x'.toUInt8,
      bytes "\r\n", ?_⟩
  have hdone : (completes (Call.start.feed
      (bytes "GET / HTTP/1.1\r\n\r\nPUT /a HTTP/1.1\r\nContent-Length: 1\r\n\r\n"))
      'x'.toUInt8).map (fun q => Request.httpShouldKeepAlive q.core) = some true := by
    decide +kernel
  rcases Option.map_eq_some_iff.mp hdone with ⟨q, hq, hkeep⟩
  exact ⟨q, by decide +kernel, by decide +kernel, hq, hkeep⟩

/-- A string that ends within its second request is accepted. -/
theorem truncated_accepted :
    scriptVerifyRequest (bytes "GET / HTTP/1.1\r\n\r\nGET / HT") = .ok 1 ∧
      ¬ MadeOfRequests (bytes "GET / HTTP/1.1\r\n\r\nGET / HT") 1 := by
  refine ⟨by decide +kernel, fun h => ?_⟩
  have hstart : ¬ inStart (Request.execute (bytes "GET / HTTP/1.1\r\n\r\nGET / HT")).1 := by
    unfold inStart
    decide +kernel
  -- It would have to be one request itself.
  rcases h.1 with ⟨requests, hlen, hflat, hwhole⟩
  rcases List.length_eq_one_iff.mp hlen with ⟨r, rfl⟩
  rw [List.flatten_singleton] at hflat
  rw [← hflat] at hstart
  exact hstart (hwhole r (List.mem_singleton_self r)).start

end Script

end Wrk
