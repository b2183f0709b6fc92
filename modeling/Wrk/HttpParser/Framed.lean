import Wrk.HttpParser.Bodies
import Wrk.HttpParser.Body

/-!
# Conforming Responses, Framed

The parser finds the end of a conforming response from its status and fields
alone: nothing tells it the method of the request. So it agrees with the
protocol where the method does not matter, which for a response without a body
means that the fields and the status say so themselves. It also reads only the
responses whose lengths and heads it has room for.

## Main definitions

* `fitsHead`: A head the parser reads.
* `framed`: The parser finds the end of the body where it is.
* `Delivered`: A response is reported once, at its end.

## Theorems

* `bytewise_head`: What a head leaves behind.
* `delivered_iff`: Exactly the framed responses are reported once.
-/

namespace Wrk

namespace HttpParser

open Http

/-- What the status line and the fields say. -/
def headFacts (h : Head) : Facts := h.fields.foldl Facts.after (Facts.ofStatus h.status)

/-- The parser reads a head: its fields are readable, and it is not too long. -/
def fitsHead (h : Head) : Bool :=
  h.fields.all readable && h.reason.length + 15 + fieldsCost h.fields + 2 ≤ httpMaxHeaderSize

/-- The head of a conforming response. -/
structure Lengths (h : Head) : Prop where
  single : h.lengths.length ≤ 1
  number : ∀ f ∈ h.lengths, f.value.isEmpty = false ∧ f.value.all isDigit = true
  exclusive : h.codings.isEmpty = false → h.lengths.isEmpty = true

variable (h : Head)

theorem conforming_lengths (method : Bytes) (r : Response) (hr : Conforming method r) :
    Lengths r.head := ⟨hr.single, hr.number, hr.exclusive⟩

/-! ### What a head says -/

theorem headFacts_rest : (headFacts h).trailing = false ∧ (headFacts h).status = h.status ∧
    (headFacts h).errno = .ok ∧ (headFacts h).chunked = seesChunked h.fields := by
  rcases after_rest h.fields (Facts.ofStatus h.status) with ⟨htrailing, hstatus, herrno⟩
  exact ⟨htrailing, hstatus, herrno, (after_chunked h.fields _).trans (Bool.false_or _)⟩

theorem headFacts_length (hl : Lengths h) :
    (headFacts h).length = h.contentLength.getD ullongMax := by
  -- With at most one length, the last the parser sees is the first of the protocol.
  have hlast : h.lengths.getLast? = h.lengths.head? := by
    have hsingle := hl.single
    match h.lengths, hsingle with
    | [], _ => rfl
    | [_], _ => rfl
  rw [headFacts, (after_length h.fields _).1]
  change (h.lengths.getLast?.map _).getD ullongMax = _
  rw [hlast]
  rfl

/-- A chunked body is not seen without a transfer coding. -/
theorem codings_of_seesChunked (hsees : seesChunked h.fields = true) :
    h.codings.isEmpty = false := by
  rcases List.any_eq_true.mp hsees with ⟨fd, hfd, hboth⟩
  rw [Bool.and_eq_true] at hboth
  refine List.isEmpty_eq_false_iff.mpr (List.ne_nil_of_mem (a := fd) ?_)
  exact List.mem_filter.mpr ⟨hfd, hboth.1⟩

theorem headFacts_exclusive (hl : Lengths h) :
    ((headFacts h).chunked && (headFacts h).sized) = false := by
  rw [(headFacts_rest h).2.2.2]
  cases hsees : seesChunked h.fields with
  | false => rfl
  | true =>
      have hnone := hl.exclusive (codings_of_seesChunked h hsees)
      have hsized := (after_length h.fields (Facts.ofStatus h.status)).2
      rw [Bool.true_and, headFacts, hsized]
      change (false || !h.lengths.isEmpty) = false
      rw [hnone]
      rfl

/-- A length that is read is not taken for the absence of one. -/
theorem contentLength_lt (n : Nat) (hread : h.fields.all readable = true)
    (hn : h.contentLength = some n) : n ≠ ullongMax := by
  rcases Option.map_eq_some_iff.mp hn with ⟨fd, hfd, hvalue⟩
  have hmem := List.mem_filter.mp (List.mem_of_head? hfd)
  have hr := List.all_eq_true.mp hread fd hmem.1
  rw [readable, hmem.2, Bool.not_true, Bool.false_or, Bool.and_eq_true, decide_eq_true_eq,
    hvalue] at hr
  -- The largest number is the parser's mark for no length, and is not readable.
  rintro rfl
  exact absurd hr.1 (by decide)

/-! ### Reading the head -/

theorem head_oneLength (hl : Lengths h) : OneLength (Facts.ofStatus h.status) h.fields :=
  ⟨hl.single, hl.number⟩

theorem reads_headLines (hl : Lengths h) :
    (h.fields.all readable = true →
      ∃ q, Reads httpParserInit h.lines q (h.reason.length + 15 + fieldsCost h.fields) ∧
        Stands q (headFacts h)) ∧
    (h.fields.all readable = false → Rejects httpParserInit h.lines) := by
  rcases reads_statusLine h with ⟨q, hline, hq⟩
  rcases reads_fields q _ h.fields rfl hq (head_oneLength h hl) with ⟨hgood, hbad⟩
  constructor
  · intro hr
    rcases hgood hr with ⟨q', hfields, hq'⟩
    exact ⟨q', reads_append _ q q' _ _ _ _ hline hfields, hq'⟩
  · intro hr
    exact reads_rejects _ q _ _ _ hline (hbad hr)

/-- The last byte of a head completes the message if it fits and nothing
    follows. -/
theorem completedFrom_headEnd (hl : Lengths h) :
    CompletedFrom httpParserInit (h.lines ++ [CR]) LF ↔
      fitsHead h = true ∧ (headFacts h).leads = none := by
  rcases reads_headLines h hl with ⟨hgood, hbad⟩
  have herr := (headFacts_rest h).2.2.1
  have hboth := headFacts_exclusive h hl
  unfold fitsHead
  rw [Bool.and_eq_true, decide_eq_true_eq]
  by_cases hr : h.fields.all readable = true
  · rcases hgood hr with ⟨q, hlines, hq⟩
    have happend := completedFrom_append _ _ _ [CR] _ LF 0 (Nat.zero_le _) hlines
    rw [Nat.zero_add] at happend
    change CompletedFrom (counted 0 httpParserInit) (h.lines ++ [CR]) LF ↔ _
    rw [happend]
    cases hleads : (headFacts h).leads with
    | none =>
        constructor
        · rintro ⟨hle, hlast⟩
          exact ⟨⟨hr, (completedFrom_head q _ herr hboth hq hleads _ hle).mp hlast⟩, rfl⟩
        · rintro ⟨⟨_, hle⟩, _⟩
          have hcost : h.reason.length + 15 + fieldsCost h.fields ≤ httpMaxHeaderSize := by omega
          exact ⟨hcost, (completedFrom_head q _ herr hboth hq hleads _ hcost).mpr hle⟩
    | some s =>
        -- The message goes on after the empty line.
        refine ⟨fun hc => ?_, fun hc => absurd hc.2 (Option.some_ne_none s)⟩
        exact absurd hc.2 (not_completedFrom_head q _ herr hboth hq s hleads _ hc.1)
  · refine ⟨fun hc => absurd hc ?_, fun hc => absurd hc.1.1 hr⟩
    exact not_completedFrom_rejects _ _ LF 0 (Nat.zero_le _)
      (rejects_append _ _ [CR] (hbad (Bool.eq_false_iff.mpr hr)))

/-- Otherwise it leads on to the body. -/
theorem bytewise_head (hl : Lengths h) (s : State) (hleads : (headFacts h).leads = some s) :
    (fitsHead h = true → ∃ q, bytewise httpParserInit h.bytes = some (counted 0 q, 0) ∧
      q.state = s ∧ facts q = headFacts h) ∧
    (fitsHead h = false → bytewise httpParserInit h.bytes = none) := by
  rcases reads_headLines h hl with ⟨hgood, hbad⟩
  unfold fitsHead
  by_cases hr : h.fields.all readable = true
  · rcases hgood hr with ⟨q, hlines, hq⟩
    rcases clears_head q _ (headFacts_rest h).2.2.1 (headFacts_exclusive h hl) hq s hleads with
      ⟨q', hempty, hs, hf⟩
    have hall := reads_clears _ _ _ _ _ _ _ hlines hempty 0 (Nat.zero_le _)
    rw [Nat.zero_add] at hall
    rw [hr, Bool.true_and, decide_eq_true_eq, decide_eq_false_iff_not]
    constructor
    · intro hle
      rw [if_pos hle] at hall
      exact ⟨q', hall, hs, hf⟩
    · intro hgt
      rw [if_neg hgt] at hall
      exact hall
  · have hr' := Bool.eq_false_iff.mpr hr
    rw [hr', Bool.false_and]
    refine ⟨fun hc => absurd hc Bool.false_ne_true, fun _ => ?_⟩
    exact bytewise_none _ _ _ (hbad hr' 0 (Nat.zero_le _))

/-- A body after a head. -/
theorem completedFrom_body (hl : Lengths h) (s : State) (hleads : (headFacts h).leads = some s)
    (data : Bytes) (ch : Byte) (P : Prop)
    (hbody : ∀ q, q.state = s → facts q = headFacts h → (CompletedFrom (counted 0 q) data ch ↔ P)) :
    CompletedFrom httpParserInit (h.bytes ++ data) ch ↔ fitsHead h = true ∧ P := by
  rcases bytewise_head h hl s hleads with ⟨hgood, hbad⟩
  unfold CompletedFrom
  by_cases hfits : fitsHead h = true
  · rcases hgood hfits with ⟨q, hq, hs, hf⟩
    rw [bytewise_append _ _ _ data 0 hq]
    simp only [Nat.zero_add, Option.map_id']
    rw [← hbody q hs hf]
    exact ⟨fun hc => ⟨hfits, hc⟩, fun hc => hc.2⟩
  · refine ⟨fun ⟨_, _, hq, _⟩ => ?_, fun hc => absurd hc.1 hfits⟩
    rw [bytewise_none _ _ data (hbad (Bool.eq_false_iff.mpr hfits))] at hq
    exact absurd hq.symm (Option.some_ne_none _)

/-- A head with a length the parser does not read. -/
theorem not_readable (hl : Lengths h) (hr : h.fields.all readable = false) (data : Bytes) :
    bytewise httpParserInit (h.lines ++ data) = none :=
  rejects_append _ _ data ((reads_headLines h hl).2 hr) 0 (Nat.zero_le _)

/-! ### What follows a head -/

theorem leads_chunked (hsees : seesChunked h.fields = true) :
    (headFacts h).leads = some .chunkSizeStart := by
  rcases headFacts_rest h with ⟨htrailing, _, _, hchunked⟩
  unfold Facts.leads
  rw [htrailing, hchunked, hsees]
  rfl

theorem leads_unsized (hl : Lengths h) (hsees : seesChunked h.fields = false)
    (hnone : h.contentLength = none) :
    (headFacts h).leads = if bodiless h.status then none else some .bodyIdentityEof := by
  rcases headFacts_rest h with ⟨htrailing, hstatus, _, hchunked⟩
  unfold Facts.leads
  rw [htrailing, hchunked, hsees, headFacts_length h hl, hnone, hstatus]
  rfl

theorem leads_sized (hl : Lengths h) (hsees : seesChunked h.fields = false)
    (hread : h.fields.all readable = true) (n : Nat) (hn : h.contentLength = some n) :
    (headFacts h).leads = if n = 0 then none else some .bodyIdentity := by
  rcases headFacts_rest h with ⟨htrailing, _, _, hchunked⟩
  have hne := contentLength_lt h n hread hn
  unfold Facts.leads
  rw [htrailing, hchunked, hsees, headFacts_length h hl, hn, Option.getD_some, if_pos hne]
  rfl

/-! ### Responses -/

/-- The parser finds the end of the body where the protocol does. -/
def framed (method : Bytes) (r : Response) : Bool :=
  match framing method r.head, r.body with
  | .none, _ =>
      !seesChunked r.head.fields &&
        (r.head.contentLength = some 0 ||
          (r.head.contentLength = none && bodiless r.head.status))
  | .chunked, .chunked b => seesChunked r.head.fields && fitsBody b
  | .untilClose, _ => !seesChunked r.head.fields
  | _, _ => true

/-- A response is reported once, at its end. -/
def Delivered {σ : Type*} (s : Settings σ) (none one : σ → σ → Prop) (method : Bytes)
    (r : Response) : Prop :=
  if framing method r.head = .untilClose then DeliversAtEnd s none one r.bytes
  else Delivers s none one r.bytes

theorem completedBy_iff (data : Bytes) (ch : Byte) :
    CompletedBy data ch ↔ CompletedFrom httpParserInit data ch := Iff.rfl

/-- A head that is the whole response. -/
theorem delivers_head (hl : Lengths h) :
    Delivers collect Same More h.bytes ↔ fitsHead h = true ∧ (headFacts h).leads = none := by
  have hbytes : h.bytes = h.lines ++ [CR] ++ [LF] := by
    rw [List.append_assoc]
    rfl
  rw [hbytes, delivers_iff]
  exact completedFrom_headEnd h hl

theorem lengths_none (hl : Lengths h) (hcodings : h.codings.isEmpty = false) :
    h.contentLength = none := by
  have hnone := List.isEmpty_iff.mp (hl.exclusive hcodings)
  unfold Head.contentLength
  rw [hnone]
  rfl

theorem codings_of_endsInChunked (hends : h.endsInChunked = true) :
    h.codings.isEmpty = false := by
  rw [← Bool.not_eq_true, List.isEmpty_iff]
  intro hnil
  unfold Head.endsInChunked at hends
  rw [hnil] at hends
  exact Bool.false_ne_true hends

theorem not_bodiless (method : Bytes) (status : Nat) (hf : forbidsBody method status = false) :
    bodiless status = false := by
  unfold forbidsBody at hf
  rw [Bool.or_eq_false_iff, Bool.or_eq_false_iff] at hf
  exact hf.1.2

/-- A response without a body. -/
theorem delivers_none (hl : Lengths h) :
    Delivers collect Same More h.bytes ↔ fitsHead h = true ∧ (!seesChunked h.fields &&
      (h.contentLength = some 0 || (h.contentLength = none && bodiless h.status))) = true := by
  rw [delivers_head h hl]
  refine and_congr_right fun hfits => ?_
  unfold fitsHead at hfits
  rw [Bool.and_eq_true] at hfits
  cases hsees : seesChunked h.fields with
  | true =>
      -- The parser waits for chunks that do not come.
      rw [leads_chunked h hsees]
      exact ⟨fun hc => absurd hc (Option.some_ne_none _), fun hc => absurd hc Bool.false_ne_true⟩
  | false =>
      cases hn : h.contentLength with
      | none =>
          rw [leads_unsized h hl hsees hn]
          cases bodiless h.status with
          | true => exact ⟨fun _ => rfl, fun _ => rfl⟩
          | false =>
              exact ⟨fun hc => absurd hc (Option.some_ne_none _),
                fun hc => absurd hc Bool.false_ne_true⟩
      | some n =>
          rw [leads_sized h hl hsees hfits.1 n hn]
          by_cases hzero : n = 0
          · rw [hzero]
            exact ⟨fun _ => rfl, fun _ => rfl⟩
          · rw [if_neg hzero]
            refine ⟨fun hc => absurd hc (Option.some_ne_none _), fun hc => absurd hc ?_⟩
            simp [hzero]

/-- A response with a body in chunks. -/
theorem delivers_chunked (hl : Lengths h) (hends : h.endsInChunked = true)
    (hbody : bodiless h.status = false) (b : ChunkedBody) :
    Delivers collect Same More (h.bytes ++ b.bytes) ↔
      fitsHead h = true ∧ (seesChunked h.fields && fitsBody b) = true := by
  have hbytes : h.bytes ++ b.bytes = h.bytes ++ (b.lines ++ [CR]) ++ [LF] := by
    rw [List.append_assoc, List.append_assoc]
    rfl
  have hboth := headFacts_exclusive h hl
  have herr := (headFacts_rest h).2.2.1
  rw [hbytes, delivers_iff, completedBy_iff]
  cases hsees : seesChunked h.fields with
  | true =>
      refine completedFrom_body h hl _ (leads_chunked h hsees) _ LF _ fun q hs hf => ?_
      rw [← hf] at hboth herr
      exact completedFrom_chunked q b herr hs hboth
  | false =>
      -- Without the word the parser takes the chunks for a body that lasts until the end.
      have hnone := lengths_none h hl (codings_of_endsInChunked h hends)
      have hleads := leads_unsized h hl hsees hnone
      rw [hbody] at hleads
      refine completedFrom_body h hl _ hleads _ LF _ fun q hs hf => ?_
      rw [← hf] at herr
      exact ⟨fun hc => absurd hc (not_completedFrom_untilEof _ LF q herr hs 0 (Nat.zero_le _)),
        fun hc => absurd hc Bool.false_ne_true⟩

/-- A response with a body of a given length. -/
theorem delivers_exactly (hl : Lengths h) (hcodings : h.codings.isEmpty = true) (data : Bytes)
    (hn : h.contentLength = some data.length) :
    Delivers collect Same More (h.bytes ++ data) ↔ fitsHead h = true := by
  have hsees : seesChunked h.fields = false := by
    rw [← Bool.not_eq_true]
    intro hsees
    rw [codings_of_seesChunked h hsees] at hcodings
    exact Bool.false_ne_true hcodings
  rcases List.eq_nil_or_concat data with rfl | ⟨rest, ch, hconcat⟩
  · rw [List.append_nil, delivers_none h hl, hsees, hn]
    exact and_iff_left rfl
  · rw [List.concat_eq_append] at hconcat
    rw [hconcat, ← List.append_assoc, delivers_iff, completedBy_iff]
    by_cases hr : h.fields.all readable = true
    · have hleads := leads_sized h hl hsees hr _ hn
      rw [hconcat, if_neg (by simp)] at hleads
      rw [completedFrom_body h hl _ hleads rest ch True fun q hs hf => ?_, and_true]
      have herr : q.httpErrno = .ok := (congrArg Facts.errno hf).trans (headFacts_rest h).2.2.1
      have hlen : q.contentLength = data.length := by
        have hlength := congrArg Facts.length hf
        rw [headFacts_length h hl, hn] at hlength
        exact hlength
      refine iff_true_intro (completedFrom_identity rest ch q herr hs ?_ 0 (Nat.zero_le _))
      rw [hlen, hconcat, List.length_append]
      rfl
    · -- A head that is not readable is not read, whatever follows.
      have hr' := Bool.eq_false_iff.mpr hr
      have hno := not_readable h hl hr' (CRLF ++ rest)
      refine ⟨fun ⟨_, _, hq, _⟩ => ?_, fun hc => absurd (Bool.and_eq_true_iff.mp hc).1 hr⟩
      rw [Head.bytes, List.append_assoc, hno] at hq
      exact absurd hq.symm (Option.some_ne_none _)

/-- A response that lasts until the stream ends. -/
theorem delivers_untilClose (hl : Lengths h) (hnone : h.contentLength = none)
    (hbody : bodiless h.status = false) (data : Bytes) :
    DeliversAtEnd collect Same More (h.bytes ++ data) ↔
      fitsHead h = true ∧ seesChunked h.fields = false := by
  rw [deliversAtEnd_iff]
  have herr := (headFacts_rest h).2.2.1
  unfold UntilClose
  cases hsees : seesChunked h.fields with
  | false =>
      have hleads := leads_unsized h hl hsees hnone
      rw [hbody] at hleads
      rcases bytewise_head h hl _ hleads with ⟨hgood, hbad⟩
      by_cases hfits : fitsHead h = true
      · rcases hgood hfits with ⟨q, hq, hs, hf⟩
        rw [← hf] at herr
        -- Every byte of the body leaves the parser where it is.
        refine ⟨fun _ => ⟨hfits, rfl⟩, fun _ => ⟨counted (0 + 0) q, ?_, hs⟩⟩
        rw [bytewise_append _ _ _ data 0 hq, reads_untilEof data q herr hs 0 (Nat.zero_le _)]
        rfl
      · refine ⟨fun ⟨q, hq, _⟩ => ?_, fun hc => absurd hc.1 hfits⟩
        rw [bytewise_none _ _ data (hbad (Bool.eq_false_iff.mpr hfits))] at hq
        exact absurd hq.symm (Option.some_ne_none _)
  | true =>
      -- The parser takes what follows for chunks, whatever it is.
      refine ⟨fun ⟨q, hq, hs⟩ => ?_, fun hc => absurd hc.2.symm Bool.false_ne_true⟩
      rcases bytewise_head h hl _ (leads_chunked h hsees) with ⟨hgood, hbad⟩
      by_cases hfits : fitsHead h = true
      · rcases hgood hfits with ⟨p, hp, hstate, hf⟩
        have hwaits := bytewise_waits _ q _ 0 (Nat.zero_le _) hq
          (waits_of_state _ State.noConfusion)
        rw [bytewise_append _ _ _ data 0 hp] at hq
        simp only [Nat.zero_add, Option.map_id'] at hq
        have hchunked : p.flags.chunked = true :=
          (congrArg Facts.chunked hf).trans ((headFacts_rest h).2.2.2.trans hsees)
        have hin : InChunks (counted 0 p) := ⟨hchunked, by
          rw [counted_state, hstate]
          exact State.noConfusion⟩
        exact absurd hs (inChunks_not_waiting q
          (bytewise_inChunks _ q data (Nat.zero_le _) hq hin) hwaits)
      · rw [bytewise_none _ _ data (hbad (Bool.eq_false_iff.mpr hfits))] at hq
        exact absurd hq.symm (Option.some_ne_none _)

/-- The bodies a framing allows. -/
theorem allows_none (b : Body) (hb : Framing.none.Allows b) : b = .none := by
  cases b with
  | none => rfl
  | chunked => exact hb.elim
  | content => exact hb.elim

theorem allows_chunked (b : Body) (hb : Framing.chunked.Allows b) : ∃ c, b = .chunked c := by
  cases b with
  | none => exact hb.elim
  | chunked c => exact ⟨c, rfl⟩
  | content => exact hb.elim

theorem allows_exactly (n : Nat) (b : Body) (hb : (Framing.exactly n).Allows b) :
    ∃ data, b = .content data ∧ data.length = n := by
  cases b with
  | none => exact hb.elim
  | chunked => exact hb.elim
  | content data => exact ⟨data, rfl, hb⟩

theorem allows_untilClose (b : Body) (hb : Framing.untilClose.Allows b) :
    ∃ data, b = .content data := by
  cases b with
  | none => exact hb.elim
  | chunked => exact hb.elim
  | content data => exact ⟨data, rfl⟩

/-- The framing of a response, and what it means for its head and its body. -/
theorem framing_cases (method : Bytes) (r : Response) (hr : Conforming method r) :
    (framing method r.head = .none ∧ r.body = .none) ∨
    (∃ b, framing method r.head = .chunked ∧ r.body = .chunked b ∧
      r.head.endsInChunked = true ∧ bodiless r.head.status = false) ∨
    (∃ data, framing method r.head = .exactly data.length ∧ r.body = .content data ∧
      r.head.codings.isEmpty = true ∧ r.head.contentLength = some data.length) ∨
    (∃ data, framing method r.head = .untilClose ∧ r.body = .content data ∧
      r.head.contentLength = none ∧ bodiless r.head.status = false) := by
  have hallows := hr.body
  have hlengths := lengths_none r.head (conforming_lengths method r hr)
  generalize hframing : framing method r.head = f at hallows ⊢
  unfold framing at hframing
  -- The cases are those of the protocol, in its order.
  split_ifs at hframing with hforbids hends hcodings
  · rw [← hframing] at hallows
    exact Or.inl ⟨hframing.symm, allows_none r.body hallows⟩
  · rw [← hframing] at hallows
    rcases allows_chunked r.body hallows with ⟨c, hc⟩
    exact Or.inr (Or.inl ⟨c, hframing.symm, hc, hends,
      not_bodiless method r.head.status (Bool.eq_false_iff.mpr hforbids)⟩)
  · rw [← hframing] at hallows
    rcases allows_untilClose r.body hallows with ⟨data, hdata⟩
    rw [Bool.not_eq_true'] at hcodings
    exact Or.inr (Or.inr (Or.inr ⟨data, hframing.symm, hdata, hlengths hcodings,
      not_bodiless method r.head.status (Bool.eq_false_iff.mpr hforbids)⟩))
  · rw [Bool.not_eq_true', Bool.not_eq_false] at hcodings
    cases hn : r.head.contentLength with
    | some n =>
        rw [hn] at hframing
        rw [← hframing] at hallows
        rcases allows_exactly n r.body hallows with ⟨data, hdata, hlen⟩
        rw [← hframing, ← hlen]
        exact Or.inr (Or.inr (Or.inl ⟨data, rfl, hdata, hcodings, rfl⟩))
    | none =>
        rw [hn] at hframing
        rw [← hframing] at hallows
        rcases allows_untilClose r.body hallows with ⟨data, hdata⟩
        exact Or.inr (Or.inr (Or.inr ⟨data, hframing.symm, hdata, rfl,
          not_bodiless method r.head.status (Bool.eq_false_iff.mpr hforbids)⟩))

/-- A conforming response is reported once, at its end, if and only if its
    head fits and the parser frames it as the protocol does. -/
theorem delivered_iff (method : Bytes) (r : Response) (hr : Conforming method r) :
    Delivered collect Same More method r ↔
      fitsHead r.head = true ∧ framed method r = true := by
  have hl := conforming_lengths method r hr
  unfold Delivered framed
  rcases framing_cases method r hr with ⟨hf, hb⟩ | ⟨b, hf, hb, hends, hbody⟩ |
    ⟨data, hf, hb, hcodings, hn⟩ | ⟨data, hf, hb, hnone, hbody⟩
  · have hbytes : r.bytes = r.head.bytes := by
      rw [Response.bytes, hb]
      exact List.append_nil _
    rw [hf, if_neg (by exact Framing.noConfusion), hbytes, delivers_none r.head hl]
  · have hbytes : r.bytes = r.head.bytes ++ b.bytes := by
      rw [Response.bytes, hb]
      rfl
    rw [hf, hb, if_neg (by exact Framing.noConfusion), hbytes,
      delivers_chunked r.head hl hends hbody b]
  · have hbytes : r.bytes = r.head.bytes ++ data := by
      rw [Response.bytes, hb]
      rfl
    rw [hf, if_neg (by exact Framing.noConfusion), hbytes,
      delivers_exactly r.head hl hcodings data hn]
    exact (and_iff_left rfl).symm
  · have hbytes : r.bytes = r.head.bytes ++ data := by
      rw [Response.bytes, hb]
      rfl
    rw [hf, if_pos rfl, hbytes, delivers_untilClose r.head hl hnone hbody data]
    simp only [Bool.not_eq_true']

end HttpParser

end Wrk
