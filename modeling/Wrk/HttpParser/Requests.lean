import Wrk.HttpParser.Heads
import Wrk.HttpParser.RequestFields

/-!
# Reading Requests

A call on conforming requests, one after the other, reads them all and
completes one message for each, if their heads stay within the limit and each
but the last lets the connection persist. A request leaves nothing behind that
the next one could see: its first byte clears the flags and the length, and the
end of its head the count.

## Main definitions

* `Fits`: What the parser asks of a request beyond the protocol.
* `Serves`: What a call does with a text made of messages.

## Theorems

* `reading_headEnd`, `reading_body`: The end of a head, and a body.
* `reading_request`, `reading_requests`: A request, and requests.
-/

namespace Wrk

namespace HttpParser

namespace Request

open Http

/-- What the parser asks of a request: a method of its table that asks for no
    tunnel, a head within the limit, and a length without surprises. -/
structure Fits (r : Http.Request) : Prop where
  method : ∃ m, m ≠ .connect ∧ methodStrings m = r.method
  head : r.head.length ≤ httpMaxHeaderSize
  fields : r.fields.all readable = true

/-- A call has read some bytes, and completed some messages. -/
structure Serves (x y : Call) (n k : Nat) : Prop where
  pos : y.pos = x.pos + n
  count : y.count = x.count + k
  returns : ReturnsPos y

/-- A parser that awaits a request. -/
structure Awaits (q : RequestParser) : Prop where
  line : q.line = some .startReq
  errno : q.core.httpErrno = .ok

/-- The manners of a request that lets the connection persist. -/
def persisting : Manners := ⟨1, 1, false, false⟩

variable (m : HttpMethod) (p : HttpParser)

theorem newMessage_persisting (hp : manners p = persisting) :
    newMessage (within m p) = ⟨some .startReq, m, p⟩ := by
  have hmajor : p.httpMajor = 1 := congrArg Manners.major hp
  have hminor : p.httpMinor = 1 := congrArg Manners.minor hp
  have hclose : p.flags.connectionClose = false := congrArg Manners.close hp
  have hkeep : httpShouldKeepAlive p = true := by
    unfold httpShouldKeepAlive httpMessageNeedsEof
    rw [hmajor, hminor, hclose]
    rfl
  exact if_pos hkeep

/-! ### The end of a head -/

/-- The parser where a head has ended. -/
def headEnd (p : HttpParser) : HttpParser :=
  { p with
    state := .headersDone
    upgrade := p.flags.upgrade && p.flags.connectionUpgrade }

theorem headersAlmostDone_eq (hm : m ≠ .connect) (ht : p.flags.trailing = false)
    (hc : p.flags.chunked = false) : headersAlmostDone m p LF = headersDone m (headEnd p) LF := by
  have hupgrade : (if p.flags.upgrade && p.flags.connectionUpgrade then true
      else decide (m = .connect)) = (p.flags.upgrade && p.flags.connectionUpgrade) := by
    rw [decide_eq_false hm]
    cases p.flags.upgrade && p.flags.connectionUpgrade <;> rfl
  unfold headersAlmostDone headEnd
  rw [if_neg (not_not.mpr rfl), ht, if_neg Bool.false_ne_true, hc, Bool.false_and,
    if_neg Bool.false_ne_true, hupgrade]

/-- A head that announces a body. -/
theorem headersDone_body (hm : m ≠ .connect) (hc : p.flags.chunked = false)
    (hzero : p.contentLength ≠ 0) (hmax : p.contentLength ≠ ullongMax) :
    headersDone m p LF = goto p .bodyIdentity [.resetNread] := by
  have hpos : p.contentLength > 0 := Nat.pos_of_ne_zero hzero
  unfold headersDone
  rw [if_neg (not_not.mpr rfl), hc]
  simp only [hm, hpos, hmax, hzero, decide_false, decide_true, ne_eq, not_false_eq_true,
    Bool.and_self, Bool.or_true, Bool.not_true, Bool.or_self, Bool.and_false, Bool.false_eq_true,
    if_false, if_true]

/-- A head that announces none. -/
theorem headersDone_none (hc : p.flags.chunked = false)
    (hnone : p.contentLength = 0 ∨ p.contentLength = ullongMax) :
    headersDone m p LF = complete p [.resetNread] (if p.upgrade then .always else .never) := by
  have hbody : (decide (p.contentLength > 0) && decide (p.contentLength ≠ ullongMax)) = false := by
    rcases hnone with h | h <;> rw [h] <;> decide
  have hne : ullongMax ≠ 0 := by decide
  unfold headersDone
  rw [if_neg (not_not.mpr rfl), hc]
  simp only [Bool.false_or, hbody, Bool.not_false, Bool.or_true, Bool.and_true, Bool.false_eq_true,
    if_false]
  by_cases hup : p.upgrade = true
  · rw [if_pos hup, if_pos hup]
  · rw [if_neg hup, if_neg hup]
    rcases hnone with h | h
    · rw [if_pos h]
    · rw [if_neg (by rw [h]; exact hne), if_neg (not_not.mpr h)]
      rfl

/-! ### A body -/

/-- The last byte of a message. -/
theorem reading_last (x : Call) (q : RequestParser) (ch : Byte) (i : Nat) (exit : Exit)
    (h : Reading x q i) (hi : i < httpMaxHeaderSize)
    (hv : (step q none ch).verdict = .complete exit)
    (hops : (∀ span n, countOps span (step q none ch).ops n = some 0) ∨ i + headCost q = 0)
    (hline : (step q none ch).parser = within m p) (herr : p.httpErrno = .ok)
    (hexit : p.upgrade = false → exit ≠ .always) :
    Serves x (x.byte ch) 1 1 ∧ (manners p = persisting → p.upgrade = false →
      ∃ q', Reading (x.byte ch) q' 0 ∧ Awaits q') := by
  rcases reading_complete x q i ch h hi exit hv hops with ⟨hpos, hcount, hret, hgo⟩
  refine ⟨⟨hpos, hcount, hret⟩, fun hp hup => ?_⟩
  rw [hline, newMessage_persisting m p hp] at hgo
  refine ⟨_, hgo ?_, rfl, herr⟩
  unfold stops
  rw [decide_eq_false (hexit hup),
    show (⟨some .startReq, m, p⟩ : RequestParser).core.upgrade = false from hup, Bool.and_false]
  rfl

theorem serves_append (x y z : Call) (n n' k k' : Nat) (h : Serves x y n k)
    (h' : Serves y z n' k') : Serves x z (n + n') (k + k') := by
  have hpos := h.pos
  have hpos' := h'.pos
  have hcount := h.count
  have hcount' := h'.count
  exact ⟨by omega, by omega, h'.returns⟩

/-- A body of as many bytes as are expected. Its last byte completes the
    message. -/
theorem reading_body (x : Call) (data : Bytes) (h : Reading x (within m p) 0)
    (hs : p.state = .bodyIdentity) (herr : p.httpErrno = .ok)
    (hdata : data.length = p.contentLength) (hne : data ≠ []) :
    Serves x (x.feed data) data.length 1 ∧ (manners p = persisting → p.upgrade = false →
      ∃ q', Reading (x.feed data) q' 0 ∧ Awaits q') := by
  induction data generalizing x p with
  | nil => exact absurd rfl hne
  | cons ch data ih =>
      have hheader : Call.parsingHeader (within m p) = false := by
        unfold Call.parsingHeader within
        rw [hs]
        rfl
      have hstep : step (within m p) none ch =
          ⟨within m (bodyIdentity p).parser, (bodyIdentity p).ops, (bodyIdentity p).verdict,
            (bodyIdentity p).skip⟩ := by
        unfold within step coreStep byteStep
        dsimp only
        rw [hs]
      rw [List.length_cons] at hdata
      have hfeed : x.feed (ch :: data) = (x.byte ch).feed data := rfl
      rw [hfeed, List.length_cons]
      by_cases hlast : data = []
      · rw [hlast] at hdata ⊢
        have hone : p.contentLength - 1 = 0 := by
          rw [← hdata]
          rfl
        have hbody : bodyIdentity p =
            messageDone { p with contentLength := p.contentLength - 1 }
              [.mark .body, .emitThrough .body] := if_pos hone
        rw [hbody] at hstep
        refine reading_last m
          { p with contentLength := p.contentLength - 1, state := .messageDone } x _ ch 0
          .ifUpgrade h (by decide) (by rw [hstep]; rfl)
          (Or.inr ?_) (by rw [hstep]; rfl) herr (fun _ => nofun)
        unfold headCost
        rw [hheader, if_neg Bool.false_ne_true]
      · -- More of the body follows.
        have hpos : 0 < data.length := List.length_pos_iff.mpr hlast
        have hmore : p.contentLength - 1 ≠ 0 := by omega
        have hbody : bodyIdentity p =
            advance { p with contentLength := p.contentLength - 1 } [.mark .body] := if_neg hmore
        rw [hbody] at hstep
        rcases reading_outside x _ 0 ch h (by decide) (by rw [hstep]; rfl) hheader (by
          rw [hstep]
          change p.state ≠ _
          rw [hs]
          exact State.noConfusion) with ⟨hread, hpos1, hcount1⟩
        rw [hstep] at hread
        rcases ih { p with contentLength := p.contentLength - 1 } (x.byte ch) hread hs herr
          (by
            change data.length = p.contentLength - 1
            omega) hlast with ⟨hserves, hnext⟩
        refine ⟨?_, hnext⟩
        have hp := hserves.pos
        have hc := hserves.count
        exact ⟨by omega, by omega, hserves.returns⟩

/-! ### A request -/

/-- The end of a head and the body after it. -/
theorem reading_headEnd (x : Call) (q : HttpParser) (f : Facts) (i : Nat) (body : Bytes)
    (hm : m ≠ .connect) (h : Reading x (within m q) i) (hi : i + 2 ≤ httpMaxHeaderSize)
    (hstands : Stands q f) (hok : f.errno = .ok) (ht : f.trailing = false)
    (hc : f.chunked = false) (hmax : body.length ≠ ullongMax)
    (hlength : f.length = body.length ∨ (f.length = ullongMax ∧ body = [])) :
    Serves x (x.feed (CRLF ++ body)) (2 + body.length) 1 ∧
      (manners (lineStart q) = persisting →
        ∃ q', Reading (x.feed (CRLF ++ body)) q' 0 ∧ Awaits q') := by
  have hcr := (passes_of_reads m q _ CR 1 (reads_emptyCr q f hok hstands) (by decide)
    (coreStep_atLine m q CR hstands.line (by decide))).1
  generalize hp : ({ lineStart q with state := .headersAlmostDone } : HttpParser) = p at hcr
  have hfacts : facts p = f := by
    rw [← hp]
    exact hstands.facts
  have htrailing : p.flags.trailing = false := (congrArg Facts.trailing hfacts).trans ht
  have hchunked : p.flags.chunked = false := (congrArg Facts.chunked hfacts).trans hc
  have herr : (headEnd p).httpErrno = .ok := (congrArg Facts.errno hfacts).trans hok
  have hmanners : manners (headEnd p) = manners (lineStart q) := by
    rw [← hp]
    rfl
  -- Without the keyword there is no switch of protocols.
  have hup : manners (headEnd p) = persisting → (headEnd p).upgrade = false := by
    intro hmn
    have hno : p.flags.connectionUpgrade = false := congrArg Manners.upgrade hmn
    unfold headEnd
    dsimp only
    rw [hno, Bool.and_false]
  rcases reading_passes x _ _ i [CR] h hcr (by rw [List.length_singleton]; omega) with
    ⟨hread, hpos, hcount⟩
  have hstep : step (within m p) none LF =
      ⟨within m (headersDone m (headEnd p) LF).parser, (headersDone m (headEnd p) LF).ops,
        (headersDone m (headEnd p) LF).verdict, (headersDone m (headEnd p) LF).skip⟩ := by
    rw [← headersAlmostDone_eq m p hm htrailing hchunked]
    unfold within step coreStep
    dsimp only
    rw [← hp]
  have hfeed : x.feed (CRLF ++ body) = ((x.feed [CR]).byte LF).feed body := rfl
  rw [hfeed]
  rw [List.length_singleton] at hread hpos
  by_cases hbody : body = []
  · -- The message is complete with its head.
    have hnone : (headEnd p).contentLength = 0 ∨ (headEnd p).contentLength = ullongMax := by
      have hlen : p.contentLength = f.length := congrArg Facts.length hfacts
      rw [hbody] at hlength
      exact hlength.imp (fun hl => hlen.trans hl) (fun hl => hlen.trans hl.1)
    rw [headersDone_none m (headEnd p) hchunked hnone] at hstep
    rcases reading_last m (headEnd p) (x.feed [CR]) _ LF (i + 1) _ hread (by omega)
      (by rw [hstep]; rfl) (Or.inl (by rw [hstep]; exact fun _ _ => rfl)) (by rw [hstep]; rfl) herr
      (fun hno => by
        rw [hno, if_neg Bool.false_ne_true]
        exact Exit.noConfusion) with ⟨hserves, hnext⟩
    rw [hbody]
    have hp' := hserves.pos
    have hc' := hserves.count
    refine ⟨⟨?_, ?_, hserves.returns⟩, fun hmn => ?_⟩
    · change ((x.feed [CR]).byte LF).pos = x.pos + 2
      omega
    · change ((x.feed [CR]).byte LF).count = x.count + 1
      omega
    · exact hnext (hmanners.trans hmn) (hup (hmanners.trans hmn))
  · have hlen : p.contentLength = body.length :=
      (congrArg Facts.length hfacts).trans (hlength.resolve_right (fun hl => hbody hl.2))
    have hne : body.length ≠ 0 := fun hz => hbody (List.length_eq_zero_iff.mp hz)
    rw [headersDone_body m (headEnd p) hm hchunked (hlen.symm ▸ hne) (hlen.symm ▸ hmax)] at hstep
    rcases reading_reset (x.feed [CR]) _ (i + 1) LF hread (by omega) (by rw [hstep]; rfl)
      (by rw [hstep]; exact fun _ _ => rfl) (fun _ => by rw [← hp]; rfl)
      (by rw [hstep]; exact State.noConfusion) with ⟨hread', hpos', hcount'⟩
    rw [hstep] at hread'
    rcases reading_body m { headEnd p with state := .bodyIdentity } ((x.feed [CR]).byte LF) body
      hread' rfl herr hlen.symm hbody with ⟨hserves, hnext⟩
    have hp' := hserves.pos
    have hc' := hserves.count
    refine ⟨⟨by omega, by omega, hserves.returns⟩, fun hmn => ?_⟩
    exact hnext (hmanners.trans hmn) (hup (hmanners.trans hmn))

/-- What the fields of a request say about its body. -/
theorem fields_say (r : Http.Request) (hr : r.Conforming) (hread : r.fields.all readable = true)
    (f : Facts) (hf : f.length = ullongMax) (hc : f.chunked = false) :
    (r.fields.foldl Facts.after f).chunked = false ∧ r.body.length ≠ ullongMax ∧
      ((r.fields.foldl Facts.after f).length = r.body.length ∨
        ((r.fields.foldl Facts.after f).length = ullongMax ∧ r.body = [])) := by
  have hsees : seesChunked r.fields = false := by
    have huncoded := hr.uncoded
    unfold seesChunked
    rw [List.any_eq_false] at huncoded ⊢
    intro fd hfd
    rw [Bool.not_eq_true, Bool.eq_false_iff.mpr (huncoded fd hfd), Bool.false_and]
  rw [after_chunked, hc, hsees, (after_length r.fields f).1, hf]
  refine ⟨rfl, ?_⟩
  have hbody := hr.body
  have hsingle := hr.single
  unfold Http.Request.contentLength at hbody
  change _ ∧ ((r.lengths.getLast?.map _).getD _ = _ ∨ ((r.lengths.getLast?.map _).getD _ = _ ∧ _))
  cases hl : r.lengths with
  | nil =>
      rw [hl] at hbody
      have hnil : r.body = [] := List.length_eq_zero_iff.mp hbody.symm
      rw [hnil]
      exact ⟨by decide, Or.inr ⟨rfl, rfl⟩⟩
  | cons fd rest =>
      rw [hl, List.length_cons] at hsingle
      have hnil : rest = [] := List.length_eq_zero_iff.mp (by omega)
      rw [hl, hnil] at hbody
      rw [hnil]
      have hmem : fd ∈ r.lengths := by
        rw [hl]
        exact List.mem_cons_self
      rcases List.mem_filter.mp hmem with ⟨hfd, hcl⟩
      -- A length that is read is not the mark for none.
      have hfits := List.all_eq_true.mp hread fd hfd
      rw [readable, hcl, Bool.not_true, Bool.false_or, Bool.and_eq_true, decide_eq_true_eq] at hfits
      have hdecimal : decimal fd.value = r.body.length := hbody
      rw [hdecimal] at hfits
      refine ⟨fun hmax => ?_, Or.inl hbody⟩
      rw [hmax] at hfits
      exact absurd hfits.1 (by decide)

/-- A request. -/
theorem reading_request (x : Call) (q : RequestParser) (r : Http.Request) (h : Reading x q 0)
    (hq : Awaits q) (hr : r.Conforming) (hfits : Fits r) :
    Serves x (x.feed r.bytes) r.bytes.length 1 ∧
      (r.persists = true → ∃ q', Reading (x.feed r.bytes) q' 0 ∧ Awaits q') := by
  rcases hfits.method with ⟨m, hm, hmethod⟩
  rcases passes_requestLine q r m hq.line hm hmethod hr.target with ⟨pos, hline⟩
  generalize hstart : beforeFields q.core pos = start at hline
  have hstands : Stands start (facts start) := by
    rw [← hstart]
    exact ⟨Or.inl rfl, rfl⟩
  have hlengths : OneLength (facts start) r.fields := by
    refine ⟨?_, hr.number⟩
    rw [← hstart]
    exact hr.single
  have hok : (facts start).errno = .ok := by
    rw [← hstart]
    exact hq.errno
  rcases passes_fields m start (facts start) r.fields hok hstands hlengths hr.uncoded hfits.fields
    with ⟨q', hfields, hq', hquiet⟩
  rcases fields_say r hr hfits.fields (facts start) (by rw [← hstart]; rfl)
    (by rw [← hstart]; rfl) with ⟨hchunked, hmax, hlength⟩
  rcases after_rest r.fields (facts start) with ⟨htrailing, _, herrno⟩
  have hhead := hfits.head
  have hlen : r.head.length = (r.requestLine ++ r.fieldLines).length + 2 := by
    unfold Http.Request.head
    exact List.length_append
  rcases reading_passes x q (within m q') 0 (r.requestLine ++ r.fieldLines) h
    (passes_append _ _ _ _ _ hline hfields) (by omega) with ⟨hread, hpos, hcount⟩
  rcases reading_headEnd m (x.feed (r.requestLine ++ r.fieldLines)) q'
    (r.fields.foldl Facts.after (facts start)) _ r.body hm hread (by omega) hq'
    (herrno.trans hok) (htrailing.trans (by rw [← hstart]; rfl)) hchunked hmax hlength with
    ⟨hserves, hnext⟩
  have hbytes : r.bytes = (r.requestLine ++ r.fieldLines) ++ (CRLF ++ r.body) := by
    unfold Http.Request.bytes Http.Request.head
    rw [List.append_assoc _ CRLF]
  have hfeed : x.feed r.bytes = (x.feed (r.requestLine ++ r.fieldLines)).feed (CRLF ++ r.body) := by
    rw [hbytes]
    exact List.foldl_append
  have hpos' := hserves.pos
  have hcount' := hserves.count
  have htotal : r.bytes.length = (r.requestLine ++ r.fieldLines).length + (2 + r.body.length) := by
    rw [hbytes]
    exact List.length_append.trans (congrArg (_ + ·) List.length_append)
  rw [hfeed]
  refine ⟨⟨by omega, by omega, hserves.returns⟩, fun hpersists => hnext ?_⟩
  unfold Http.Request.persists at hpersists
  rw [Bool.not_eq_true'] at hpersists
  rw [hquiet hpersists, ← hstart]
  rfl

/-- Requests, one after the other. -/
theorem reading_requests (x : Call) (q : RequestParser) (rs : List Http.Request)
    (last : Http.Request) (h : Reading x q 0) (hq : Awaits q)
    (hrs : ∀ r ∈ rs, r.Conforming ∧ Fits r ∧ r.persists = true) (hlast : last.Conforming)
    (hfits : Fits last) :
    Serves x (x.feed ((rs ++ [last]).flatMap Http.Request.bytes))
      ((rs ++ [last]).flatMap Http.Request.bytes).length (rs.length + 1) := by
  induction rs generalizing x q with
  | nil =>
      have hone : ([] ++ [last]).flatMap Http.Request.bytes = last.bytes := by
        rw [List.nil_append, List.flatMap_singleton]
      rw [hone]
      exact (reading_request x q last h hq hlast hfits).1
  | cons r rs ih =>
      rcases hrs r List.mem_cons_self with ⟨hr, hrfits, hpersists⟩
      rcases reading_request x q r h hq hr hrfits with ⟨hserves, hnext⟩
      rcases hnext hpersists with ⟨q', hread, hq'⟩
      have hrest := ih (x.feed r.bytes) q' hread hq'
        (fun r' hr' => hrs r' (List.mem_cons_of_mem r hr'))
      rw [List.cons_append, List.flatMap_cons, List.length_append, List.length_cons,
        show rs.length + 1 + 1 = 1 + (rs.length + 1) by omega]
      have hfeed : x.feed (r.bytes ++ (rs ++ [last]).flatMap Http.Request.bytes) =
          (x.feed r.bytes).feed ((rs ++ [last]).flatMap Http.Request.bytes) := List.foldl_append
      rw [hfeed]
      exact serves_append x _ _ _ _ _ _ hserves hrest

end Request

end HttpParser

end Wrk
