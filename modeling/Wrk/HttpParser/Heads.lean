import Wrk.HttpParser.Fields

/-!
# Reading a Head

A head is a status line, fields and an empty line. After the status line
nothing is known but the status; the fields add what they say; and the empty
line decides what follows: the end of the message, or a body of one of three
kinds.

## Main definitions

* `Facts.leads`: What follows a head.

## Theorems

* `reads_statusLine`: The status line.
* `after_chunked`, `after_length`: What the fields say.
* `headersAlmostDone_leads`: The last byte of a head.
* `completedFrom_head`, `clears_head`: The empty line.
-/

namespace Wrk

namespace HttpParser

open Http

/-! ### The status line -/

/-- Bytes outside the loops, each of which does nothing but lead on. -/
def walk (q : HttpParser) : Bytes → Option HttpParser
  | [] => some q
  | ch :: data =>
      let o := byteStep q none ch
      if q.httpErrno = .ok ∧ o.verdict = .next ∧ o.ops = [] ∧ q.state.parsingHeader = true ∧
          Exec.spanState q.state = false then walk o.parser data
      else none

theorem reads_walk (data : Bytes) (q q' : HttpParser) (h : walk q data = some q') :
    Reads q data q' data.length := by
  induction data generalizing q with
  | nil =>
      simp only [walk, Option.some.injEq] at h
      rw [← h]
      exact reads_nil q
  | cons ch data ih =>
      simp only [walk] at h
      split_ifs at h with hstep
      rcases hstep with ⟨hok, hv, hops, hheader, hspan⟩
      have hread := reads_byte q ch hok hv (by rw [hops]; exact fun _ _ => rfl)
      have hcost : byteCost q ch = 1 := by
        unfold byteCost headerByte staysInside
        rw [hheader, hspan, Bool.and_false]
        rfl
      rw [hcost] at hread
      have hall := reads_append q _ q' [ch] data 1 _ hread (ih _ h)
      rw [Nat.add_comm] at hall
      exact hall

/-- The facts of a head before its fields. -/
def Facts.ofStatus (status : Nat) : Facts := ⟨false, false, ullongMax, false, status, .ok⟩

/-- The version, up to the status. -/
theorem reads_version :
    ∃ q, Reads httpParserInit (bytes "HTTP/1.1 ") q 9 ∧ q.state = .resFirstStatusCode ∧
      facts q = Facts.ofStatus 0 := by
  -- The version is the same text in every response, so it is walked through.
  have h : (walk httpParserInit (bytes "HTTP/1.1 ")).map (fun q => (q.state, q.flags,
      q.contentLength, q.statusCode, q.httpErrno)) =
        some (.resFirstStatusCode, Flags.none, ullongMax, 0, .ok) := by decide +kernel
  rcases Option.map_eq_some_iff.mp h with ⟨q, hq, hfacts⟩
  simp only [Prod.mk.injEq] at hfacts
  rcases hfacts with ⟨hs, hf, hl, hc, he⟩
  refine ⟨q, reads_walk _ _ _ hq, hs, ?_⟩
  unfold facts
  rw [hf, hl, hc, he]
  rfl

theorem digit_byte (d : Nat) (hd : d < 10) :
    isNum (48 + d).toUInt8 = true ∧ digit (48 + d).toUInt8 = d := by
  have hall : ∀ d : Fin 10, isNum (48 + d.val).toUInt8 = true ∧
      digit (48 + d.val).toUInt8 = d.val := by decide +kernel
  exact hall ⟨d, hd⟩

/-- A byte of the status line. -/
theorem reads_header (q q' : HttpParser) (ch : Byte) (hok : q.httpErrno = .ok)
    (hstep : byteStep q none ch = advance q' []) (hheader : q.state.parsingHeader = true)
    (hspan : Exec.spanState q.state = false) : Reads q [ch] q' 1 :=
  reads_single q q' ch [] hok hstep (by rw [headerByte, hheader]; rfl) (fun _ => hspan)
    (fun _ _ => rfl)

/-- The status, and the space after it. -/
theorem reads_status (q : HttpParser) (h : Head) (hs : q.state = .resFirstStatusCode)
    (hf : facts q = Facts.ofStatus 0) :
    ∃ q', Reads q (h.digits ++ [SP]) q' 4 ∧ q'.state = .resStatusStart ∧
      facts q' = Facts.ofStatus h.status := by
  have hcode := h.code
  have hok : q.httpErrno = .ok := congrArg Facts.errno hf
  rcases digit_byte (h.status / 100) (by omega) with ⟨hn1, hd1⟩
  rcases digit_byte (h.status / 10 % 10) (by omega) with ⟨hn2, hd2⟩
  rcases digit_byte (h.status % 10) (by omega) with ⟨hn3, hd3⟩
  have h1 : Reads q [(48 + h.status / 100).toUInt8]
      { q with state := .resStatusCode, statusCode := h.status / 100 } 1 := by
    refine reads_header q _ _ hok ?_ (by rw [hs]; rfl) (by rw [hs]; rfl)
    unfold byteStep
    rw [hs]
    dsimp only
    unfold resFirstStatusCode
    rw [hn1, if_neg (by exact Bool.false_ne_true), hd1]
    rfl
  -- A further digit, as long as the status stays below a thousand.
  have hnext : ∀ status d : Nat, d < 10 → status * 10 + d < 1000 →
      Reads { q with state := .resStatusCode, statusCode := status } [(48 + d).toUInt8]
        { q with state := .resStatusCode, statusCode := status * 10 + d } 1 := by
    intro status d hd hlt
    rcases digit_byte d hd with ⟨hn, hdd⟩
    refine reads_header { q with state := .resStatusCode, statusCode := status } _ _ hok ?_ rfl rfl
    change resStatusCode { q with state := .resStatusCode, statusCode := status } _ = _
    unfold resStatusCode
    rw [hn, if_neg (by exact Bool.false_ne_true)]
    dsimp only
    rw [hdd, if_neg (by omega)]
  have h2 := hnext (h.status / 100) (h.status / 10 % 10) (by omega) (by omega)
  have h3 := hnext (h.status / 100 * 10 + h.status / 10 % 10) (h.status % 10) (by omega) (by omega)
  -- Three digits read in order make up the status.
  have hstatus : (h.status / 100 * 10 + h.status / 10 % 10) * 10 + h.status % 10 = h.status := by
    omega
  rw [hstatus] at h3
  have h4 : Reads { q with state := .resStatusCode, statusCode := h.status } [SP]
      { q with state := .resStatusStart, statusCode := h.status } 1 :=
    reads_header { q with state := .resStatusCode, statusCode := h.status } _ _ hok rfl rfl rfl
  refine ⟨_, reads_append _ _ _ _ _ 3 1 (reads_append _ _ _ [_] _ 1 2 h1
    (reads_append _ _ _ [_] _ 1 1 h2 h3)) h4, rfl, ?_⟩
  change { facts q with status := h.status } = _
  rw [hf]
  rfl

/-- The reason and the end of the line. -/
theorem reads_reason (q : HttpParser) (reason : Bytes) (hok : q.httpErrno = .ok)
    (hs : q.state = .resStatusStart) (htext : reason.all isText = true) :
    ∃ q', Reads q (reason ++ CRLF) q' (reason.length + 2) ∧ q'.state = .headerFieldStart ∧
      facts q' = facts q := by
  have hstart : ∀ ch, byteStep q none ch = resStatusStart q ch := by
    intro ch
    unfold byteStep
    rw [hs]
  -- What is left of the line once it has begun.
  have hend : ∀ p : HttpParser, p.httpErrno = .ok →
      Reads { p with state := .resLineAlmostDone } [LF] { p with state := .headerFieldStart } 1 :=
    fun p hp => reads_header { p with state := .resLineAlmostDone } _ LF hp rfl rfl rfl
  cases hreason : reason with
  | nil =>
      -- Without a reason the line ends where the reason would begin.
      have hcr : Reads q [CR] { q with state := .resLineAlmostDone, index := 0 } 1 :=
        reads_header q _ CR hok (hstart CR) (by rw [hs]; rfl) (by rw [hs]; rfl)
      exact ⟨_, reads_append _ _ _ [CR] [LF] 1 1 hcr (hend { q with index := 0 } hok), rfl, rfl⟩
  | cons ch more =>
      rw [hreason, List.all_cons, Bool.and_eq_true] at htext
      rcases headerChar_of_text ch htext.1 with ⟨_, hcr, hlf⟩
      have hfirst : Reads q [ch] { q with state := .resStatus, index := 0 } 1 := by
        refine reads_header q _ ch hok ?_ (by rw [hs]; rfl) (by rw [hs]; rfl)
        rw [hstart]
        unfold resStatusStart
        simp only [hcr, hlf, decide_false, Bool.or_self, Bool.false_eq_true, if_false]
      have hstay : ∀ c, isText c = true → Reads { q with state := .resStatus, index := 0 } [c]
          { q with state := .resStatus, index := 0 } 1 := by
        intro c hc
        rcases headerChar_of_text c hc with ⟨_, hcr, hlf⟩
        refine reads_header { q with state := .resStatus, index := 0 } _ c hok ?_ rfl rfl
        change resStatus { q with state := .resStatus, index := 0 } c = _
        unfold resStatus
        rw [if_neg hcr, if_neg hlf]
      have hmore := reads_stay _ isText 1 hstay more htext.2
      rw [Nat.one_mul] at hmore
      have hcr' : Reads { q with state := .resStatus, index := 0 } [CR]
          { q with state := .resLineAlmostDone, index := 0 } 1 :=
        reads_header { q with state := .resStatus, index := 0 } _ CR hok rfl rfl rfl
      have hline := reads_append _ _ _ [CR] [LF] 1 1 hcr' (hend { q with index := 0 } hok)
      have hall := reads_append _ _ _ [ch] _ 1 _ hfirst
        (reads_append _ _ _ more [CR, LF] _ 2 hmore hline)
      rw [List.length_cons, show more.length + 1 + 2 = 1 + (more.length + 2) by omega]
      exact ⟨_, hall, rfl, rfl⟩

/-- The status line. -/
theorem reads_statusLine (h : Head) :
    ∃ q, Reads httpParserInit h.statusLine q (h.reason.length + 15) ∧
      Stands q (Facts.ofStatus h.status) := by
  rcases reads_version with ⟨q1, h1, hs1, hf1⟩
  rcases reads_status q1 h hs1 hf1 with ⟨q2, h2, hs2, hf2⟩
  rcases reads_reason q2 h.reason (congrArg Facts.errno hf2) hs2 h.text with ⟨q3, h3, hs3, hf3⟩
  have hbytes : h.statusLine = bytes "HTTP/1.1 " ++ (h.digits ++ [SP] ++ (h.reason ++ CRLF)) := by
    unfold Head.statusLine
    simp only [List.append_assoc]
  refine ⟨q3, ?_, Or.inl hs3, ?_⟩
  · rw [hbytes, show h.reason.length + 15 = 9 + (4 + (h.reason.length + 2)) by omega]
    exact reads_append _ _ _ _ _ _ _ h1 (reads_append _ _ _ _ _ _ _ h2 h3)
  · rw [lineStart_first q3 hs3, hf3, hf2]

/-! ### What the fields say -/

/-- The parser sees a chunked body in one of the fields. -/
def seesChunked (fields : List Field) : Bool :=
  fields.any (fun fd => fd.isTransferEncoding && saysChunked fd.rest)

theorem length_not_coding (fd : Field) (h : fd.isContentLength = true) :
    fd.isTransferEncoding = false := by
  unfold Field.isContentLength Field.isTransferEncoding Field.isNamed at *
  -- The two names differ, so a field has at most one of them.
  rw [decide_eq_true_eq] at h
  rw [h]
  decide

theorem after_chunked (fields : List Field) (f : Facts) :
    (fields.foldl Facts.after f).chunked = (f.chunked || seesChunked fields) := by
  induction fields generalizing f with
  | nil => exact (Bool.or_false _).symm
  | cons fd fields ih =>
      have hsees : seesChunked (fd :: fields) =
          ((fd.isTransferEncoding && saysChunked fd.rest) || seesChunked fields) := rfl
      rw [List.foldl_cons, ih, hsees, ← Bool.or_assoc]
      refine congrArg (· || seesChunked fields) ?_
      -- A coding adds to the flag, and no other field touches it.
      unfold Facts.after
      by_cases hte : fd.isTransferEncoding = true
      · rw [if_pos hte, hte, Bool.true_and]
      · rw [if_neg hte, Bool.eq_false_iff.mpr hte, Bool.false_and, Bool.or_false]
        split_ifs <;> rfl

/-- What no field touches. -/
theorem after_rest (fields : List Field) (f : Facts) :
    (fields.foldl Facts.after f).trailing = f.trailing ∧
      (fields.foldl Facts.after f).status = f.status ∧
      (fields.foldl Facts.after f).errno = f.errno := by
  induction fields generalizing f with
  | nil => exact ⟨rfl, rfl, rfl⟩
  | cons fd fields ih =>
      rw [List.foldl_cons]
      rcases ih (f.after fd) with ⟨h1, h2, h3⟩
      rw [h1, h2, h3]
      unfold Facts.after
      split_ifs <;> exact ⟨rfl, rfl, rfl⟩

/-- The length is that of the last field that gives one. -/
theorem after_length (fields : List Field) (f : Facts) :
    (fields.foldl Facts.after f).length =
        ((fields.filter Field.isContentLength).getLast?.map (fun fd => decimal fd.value)).getD
          f.length ∧
      (fields.foldl Facts.after f).sized =
        (f.sized || !(fields.filter Field.isContentLength).isEmpty) := by
  induction fields using List.reverseRecOn with
  | nil => exact ⟨rfl, (Bool.or_false _).symm⟩
  | append_singleton fields fd ih =>
      rw [List.foldl_append, List.foldl_cons, List.foldl_nil, List.filter_append]
      by_cases hcl : fd.isContentLength = true
      · -- The last field gives a length, and replaces what was known.
        rw [List.filter_cons_of_pos hcl, List.filter_nil, List.getLast?_append]
        unfold Facts.after
        rw [length_not_coding fd hcl, if_neg Bool.false_ne_true, if_pos hcl]
        refine ⟨rfl, ?_⟩
        have hne : (fields.filter Field.isContentLength ++ [fd]).isEmpty = false :=
          List.isEmpty_eq_false_iff.mpr
            (List.append_ne_nil_of_right_ne_nil _ (List.cons_ne_nil _ _))
        rw [hne, Bool.not_false, Bool.or_true]
      · rw [List.filter_cons_of_neg hcl, List.filter_nil, List.append_nil, ← ih.1, ← ih.2]
        unfold Facts.after
        rw [if_neg hcl]
        split_ifs <;> exact ⟨rfl, rfl⟩

/-! ### The empty line -/

/-- What follows a head: nothing, or a body that is read in a state. -/
def Facts.leads (f : Facts) : Option State :=
  if f.trailing then none
  else if f.chunked then some .chunkSizeStart
  else if f.length = 0 then none
  else if f.length ≠ ullongMax then some .bodyIdentity
  else if bodiless f.status then none
  else some .bodyIdentityEof

/-- The last byte of a head without a trailer. -/
theorem headersDone_leads (q : HttpParser) (ht : q.flags.trailing = false)
    (hup : q.upgrade = true → q.statusCode = 101) :
    ((facts q).leads = none → ∃ exit, (headersDone q LF).verdict = .complete exit) ∧
      ∀ s, (facts q).leads = some s →
        headersDone q LF = advance { q with state := s } [.resetNread] := by
  have hleads : (facts q).leads =
      if q.flags.chunked then some .chunkSizeStart
      else if q.contentLength = 0 then none
      else if q.contentLength ≠ ullongMax then some .bodyIdentity
      else if bodiless q.statusCode then none
      else some .bodyIdentityEof := by
    unfold Facts.leads
    exact if_neg (by rw [show (facts q).trailing = false from ht]; exact Bool.false_ne_true)
  rw [hleads]
  unfold headersDone
  rw [if_neg (not_not.mpr rfl)]
  dsimp only
  cases hchunked : q.flags.chunked with
  | true =>
      -- A chunked body comes before a length in the source's order.
      simp only [if_true, Bool.true_or, Bool.not_true, Bool.and_false, Bool.false_eq_true, if_false,
        Option.some.injEq, reduceCtorEq, false_implies, true_and]
      rintro s rfl
      rfl
  | false =>
      simp only [Bool.false_eq_true, if_false, Bool.false_or]
      by_cases hzero : q.contentLength = 0
      · -- With or without a switch of protocols, the message is complete.
        rw [if_pos hzero, if_pos hzero]
        refine ⟨fun _ => ?_, fun s hs => absurd hs.symm (Option.some_ne_none s)⟩
        split_ifs
        · exact ⟨_, rfl⟩
        · exact ⟨_, rfl⟩
      · rw [if_neg hzero, if_neg hzero]
        by_cases hlength : q.contentLength ≠ ullongMax
        · have hpos : q.contentLength > 0 := Nat.pos_of_ne_zero hzero
          simp only [hpos, hlength, decide_true, Bool.and_self, Bool.not_true, Bool.and_false,
            Bool.false_eq_true, if_false, if_true, ne_eq, not_false_eq_true, Option.some.injEq,
            reduceCtorEq, false_implies, true_and]
          rintro s rfl
          rfl
        · -- Neither chunked nor sized: only the status can say that there is no body.
          have hneeds : httpMessageNeedsEof q = !bodiless q.statusCode := by
            rw [not_not] at hlength
            unfold httpMessageNeedsEof bodiless
            rw [hchunked, hlength]
            cases decide (q.statusCode / 100 = 1) || decide (q.statusCode = 204) ||
                decide (q.statusCode = 304) with
            | true => rfl
            | false => rfl
          rw [if_neg hlength, if_neg hlength, hneeds, Bool.not_not]
          simp only [hlength, decide_false, Bool.and_false, Bool.not_false, Bool.and_true]
          cases hbody : bodiless q.statusCode with
          | true =>
              refine ⟨fun _ => ?_, fun s hs => absurd hs.symm (Option.some_ne_none s)⟩
              by_cases hu : q.upgrade = true
              · rw [if_pos hu]
                exact ⟨_, rfl⟩
              · rw [if_neg hu, if_pos rfl]
                exact ⟨_, rfl⟩
          | false =>
              -- A switch of protocols has a status that allows no body.
              have hno : ¬ q.upgrade = true := by
                intro h
                rw [hup h] at hbody
                exact absurd hbody (by decide)
              rw [if_neg hno, if_neg Bool.false_ne_true, if_neg Bool.false_ne_true]
              refine ⟨fun hs => absurd hs (Option.some_ne_none _), fun s hs => ?_⟩
              rw [← Option.some.inj hs]
              rfl

/-- The last byte of a head does what the facts say. -/
theorem headersAlmostDone_leads (q : HttpParser) (hboth : ((facts q).chunked && (facts q).sized) =
    false) :
    ((facts q).leads = none → ∃ exit, (headersAlmostDone q LF).verdict = .complete exit) ∧
      ∀ s, (facts q).leads = some s → ∃ q', headersAlmostDone q LF = advance q' [.resetNread] ∧
        q'.state = s ∧ facts q' = facts q := by
  unfold headersAlmostDone
  rw [if_neg (not_not.mpr rfl)]
  cases ht : q.flags.trailing with
  | true =>
      -- The end of a trailer is the end of the message.
      have hleads : (facts q).leads = none := by
        unfold Facts.leads
        exact if_pos ht
      rw [hleads, if_pos rfl]
      exact ⟨fun _ => ⟨_, rfl⟩, fun s hs => absurd hs.symm (Option.some_ne_none s)⟩
  | false =>
      rw [if_neg Bool.false_ne_true, show (q.flags.chunked && q.flags.contentLength) = false from
        hboth, if_neg Bool.false_ne_true]
      rcases headersDone_leads { q with
        state := .headersDone
        upgrade := q.flags.upgrade && q.flags.connectionUpgrade && q.statusCode = 101 } ht
        (fun h => of_decide_eq_true (Bool.and_eq_true_iff.mp h).2) with ⟨hnone, hsome⟩
      exact ⟨hnone, fun s hs => ⟨_, hsome s hs, rfl, rfl⟩⟩

variable (q : HttpParser) (f : Facts)

/-- The first half of the empty line. -/
theorem reads_emptyCr (hok : f.errno = .ok) (h : Stands q f) :
    Reads q [CR] { lineStart q with state := .headersAlmostDone } 1 := by
  rcases byteStep_atLine q CR h.line (by decide) with ⟨pre, hpre, hstep⟩
  -- This is where the field before is finished, if there is one.
  refine reads_single q _ CR (pre ++ []) ((stands_errno q f h).trans hok) ?_
    (atLine_header q h.line).1 (fun _ => (atLine_header q h.line).2) (fun n _ => hpre 0 [] n)
  rw [hstep, headerFieldStart, if_pos rfl]
  rfl

theorem byteStep_emptyLf :
    byteStep { lineStart q with state := .headersAlmostDone } none LF =
      headersAlmostDone { lineStart q with state := .headersAlmostDone } LF := rfl

/-- The empty line completes the message. -/
theorem completedFrom_head (hok : f.errno = .ok) (hboth : (f.chunked && f.sized) = false)
    (h : Stands q f) (hleads : f.leads = none) (n : Nat) (hn : n ≤ httpMaxHeaderSize) :
    CompletedFrom (counted n q) [CR] LF ↔ n + 2 ≤ httpMaxHeaderSize := by
  rw [← h.facts] at hboth hleads
  rw [completedFrom_reads q _ [CR] 1 LF n hn (reads_emptyCr q f hok h), byteStep_emptyLf]
  have hcomplete := (headersAlmostDone_leads { lineStart q with state := .headersAlmostDone }
    hboth).1 hleads
  exact ⟨fun h => h.1, fun h => ⟨h, hcomplete⟩⟩

/-- The empty line leads on to a body. -/
theorem clears_head (hok : f.errno = .ok) (hboth : (f.chunked && f.sized) = false)
    (h : Stands q f) (s : State) (hleads : f.leads = some s) :
    ∃ q', Clears q CRLF q' 2 ∧ q'.state = s ∧ facts q' = f := by
  have hfacts := h.facts
  rw [← hfacts] at hboth hleads
  rcases (headersAlmostDone_leads { lineStart q with state := .headersAlmostDone } hboth).2 s
    hleads with ⟨q', hstep, hs, hf⟩
  have herr : (lineStart q).httpErrno = .ok := (congrArg Facts.errno hfacts).trans hok
  have hlf : Clears { lineStart q with state := .headersAlmostDone } [LF] q' 1 := by
    have hclears := clears_byte { lineStart q with state := .headersAlmostDone } LF herr
      (by rw [byteStep_emptyLf, hstep]; rfl) rfl
      (by rw [byteStep_emptyLf, hstep]; exact fun _ => rfl)
    rw [byteStep_emptyLf, hstep] at hclears
    exact hclears
  exact ⟨q', reads_clears q _ q' [CR] [LF] 1 1 (reads_emptyCr q f hok h) hlf, hs, hf.trans hfacts⟩

/-- Then it does not complete the message. -/
theorem not_completedFrom_head (hok : f.errno = .ok) (hboth : (f.chunked && f.sized) = false)
    (h : Stands q f) (s : State) (hleads : f.leads = some s) (n : Nat)
    (hn : n ≤ httpMaxHeaderSize) : ¬ CompletedFrom (counted n q) [CR] LF := by
  rw [← h.facts] at hboth hleads
  rw [completedFrom_reads q _ [CR] 1 LF n hn (reads_emptyCr q f hok h), byteStep_emptyLf]
  rcases (headersAlmostDone_leads { lineStart q with state := .headersAlmostDone } hboth).2 s
    hleads with ⟨q', hstep, _, _⟩
  rintro ⟨_, exit, hexit⟩
  rw [hstep] at hexit
  exact Verdict.noConfusion hexit

end HttpParser

end Wrk
