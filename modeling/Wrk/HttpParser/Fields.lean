import Wrk.HttpParser.Value
import Mathlib.Algebra.Ring.Nat

/-!
# Reading Fields

A length is a value of digits, then a whole field is its name and its value,
and a list of fields is one field after the other. A field is either read, at
a cost that depends on its text alone, or the parser gives up inside it, which
only happens to a length. What is read leaves its mark on the facts of the
head.

## Main definitions

* `readable`, `fieldCost`: When a field is read, and at what cost.
* `Facts.after`: What a field does to the facts of a head.
* `Stands`: The facts of a head where a line begins.

## Theorems

* `reads_length`: The value of a length.
* `reads_field`, `reads_fields`: A field, and fields.
-/

namespace Wrk

namespace HttpParser

open Http

/-! ### Lengths -/

/-- The largest length another digit is read after. -/
def lengthLimit : Nat := (ullongMax - 10) / 10

/-- The parser inside a length. -/
def InLength (q : HttpParser) : Prop :=
  q.state = .headerValue ∧ q.headerState = .contentLength ∧ q.httpErrno = .ok

theorem text_of_digit (ch : Byte) (h : isDigit ch = true) : isText ch = true := by
  have hall := byte_forall (fun ch => !isDigit ch || isText ch) (by decide +kernel) ch
  simpa only [h, Bool.not_true, Bool.false_or] using hall

theorem inLength_char (q : HttpParser) (ch : Byte) (hq : InLength q) (hch : isDigit ch = true) :
    headerValueChar q ch =
      if lengthLimit < q.contentLength then fail q .invalidContentLength
      else advance { q with contentLength := q.contentLength * 10 + digit ch } [] := by
  unfold headerValueChar
  rw [hq.2.1]
  dsimp only
  rw [if_neg (digit_not_space ch hch), isNum_eq, hch, if_neg (by exact Bool.false_ne_true)]
  rfl

/-- The digits of a length after the first. -/
theorem reads_digits (digits : Bytes) (q : HttpParser) (hq : InLength q)
    (hdigits : digits.all isDigit = true) :
    ((digits = [] ∨ numeral 10 digit q.contentLength digits / 10 ≤ lengthLimit) →
      Reads q digits { q with contentLength := numeral 10 digit q.contentLength digits }
        (2 * digits.length)) ∧
    (digits ≠ [] → lengthLimit < numeral 10 digit q.contentLength digits / 10 →
      Rejects q digits) := by
  refine reads_numeral 10 lengthLimit 2 digit InLength isDigit digit_lt ?_ ?_ ?_ digits q hq
    hdigits
  · -- A digit is read while the number before it is within the limit.
    intro q ch hq hch hle
    refine reads_valueChar q _ ch none hq.2.2 hq.1 (text_of_digit ch hch) ?_ rfl
    rw [inLength_char q ch hq hch, if_neg (Nat.not_lt.mpr hle)]
    rfl
  · intro q ch hq hch hlt
    refine rejects_byte q ch .invalidContentLength ?_
    rw [byteStep_headerValue q ch hq.1 (text_of_digit ch hch), inLength_char q ch hq hch,
      if_pos hlt]
    rfl
  · exact fun q n hq => hq

/-- The white space after a length must not contain a tab. -/
theorem reads_lengthTrail (trail : Bytes) (q : HttpParser) (hq : InLength q)
    (htrail : trail.all isSpace = true) :
    (trail.all (· == SP) = true → Reads q trail q (2 * trail.length)) ∧
      (trail.all (· == SP) = false → Rejects q trail) := by
  induction trail with
  | nil => exact ⟨fun _ => reads_nil q, fun h => absurd h.symm Bool.false_ne_true⟩
  | cons ch trail ih =>
      rw [List.all_cons, Bool.and_eq_true] at htrail
      rcases ih htrail.2 with ⟨hreads, hrejects⟩
      have htext := text_of_space ch htrail.1
      by_cases hc : ch = SP
      · have hone : Reads q [ch] q 2 := by
          refine reads_valueChar q q ch none hq.2.2 hq.1 htext ?_ rfl
          unfold headerValueChar
          rw [hq.2.1, hc]
          rfl
        have hall : (ch :: trail).all (· == SP) = trail.all (· == SP) := by
          rw [List.all_cons, hc]
          rfl
        rw [hall, List.length_cons, Nat.mul_succ, Nat.add_comm]
        exact ⟨fun h => reads_append q q q [ch] trail 2 _ hone (hreads h),
          fun h => reads_rejects q q [ch] trail 2 hone (hrejects h)⟩
      · -- White space that is not a space is a tab, to which the parser objects.
        have htab : ch = HTAB := by
          have hspace := htrail.1
          unfold isSpace at hspace
          rw [Bool.or_eq_true, beq_iff_eq, beq_iff_eq] at hspace
          exact hspace.resolve_left hc
        have hbad : Rejects q [ch] := by
          refine rejects_byte q ch .invalidContentLength ?_
          rw [byteStep_headerValue q ch hq.1 htext]
          unfold headerValueChar
          rw [hq.2.1, htab]
          rfl
        rw [List.all_cons, beq_eq_false_iff_ne.mpr hc, Bool.false_and]
        exact ⟨fun h => absurd h Bool.false_ne_true, fun _ => rejects_append q [ch] trail hbad⟩

/-- The value of a length and the white space after it. -/
theorem reads_length (q : HttpParser) (ch : Byte) (more trail : Bytes) (hok : q.httpErrno = .ok)
    (hs : q.state = .headerValueDiscardWs) (hq : q.headerState = .contentLength)
    (hsized : q.flags.contentLength = false) (hvalue : (ch :: more).all isDigit = true)
    (htrail : trail.all isSpace = true) :
    (decimal (ch :: more) / 10 ≤ lengthLimit ∧ trail.all (· == SP) = true →
      ∃ q', Reads q (ch :: (more ++ trail)) q' (1 + 2 * (more ++ trail).length) ∧
        q'.state = .headerValue ∧ q'.headerState = .contentLength ∧
        facts q' = { facts q with sized := true, length := decimal (ch :: more) }) ∧
    (¬ (decimal (ch :: more) / 10 ≤ lengthLimit ∧ trail.all (· == SP) = true) →
      Rejects q (ch :: (more ++ trail))) := by
  rw [List.all_cons, Bool.and_eq_true] at hvalue
  have hspace : isSpace ch = false := by
    have hall := byte_forall (fun ch => !isDigit ch || !isSpace ch) (by decide +kernel) ch
    simpa only [hvalue.1, Bool.not_true, Bool.false_or, Bool.not_eq_true'] using hall
  -- The first digit is not checked: there is no number before it.
  have hfirst : ∃ p, headerValueStart q ch = advance p [.mark .headerValue] ∧ InLength p ∧
      p.contentLength = digit ch ∧ facts p = { facts q with sized := true, length := digit ch } := by
    unfold headerValueStart
    rw [hq]
    dsimp only
    rw [isNum_eq, hvalue.1, hsized]
    exact ⟨_, rfl, ⟨rfl, rfl, hok⟩, rfl, rfl⟩
  rcases hfirst with ⟨p, hstart, hp, hlength, hfacts⟩
  have hread := reads_valueStart q p ch hok hs (text_of_digit ch hvalue.1) hspace hstart
  have hdecimal : decimal (ch :: more) = numeral 10 digit p.contentLength more := by
    rw [hlength]
    change numeral 10 digit (0 * 10 + digit ch) more = _
    rw [Nat.zero_mul, Nat.zero_add]
  rcases reads_digits more p hp hvalue.2 with ⟨hgood, hbad⟩
  rcases reads_lengthTrail trail { p with contentLength := numeral 10 digit p.contentLength more }
    hp htrail with ⟨hspaces, htab⟩
  -- A single digit is below the limit whatever it is.
  have hone : more = [] → decimal (ch :: more) / 10 ≤ lengthLimit := by
    rintro rfl
    have hlt := digit_lt ch hvalue.1
    rw [hdecimal, hlength]
    change digit ch / 10 ≤ lengthLimit
    rw [Nat.div_eq_of_lt hlt]
    exact Nat.zero_le _
  constructor
  · rintro ⟨hle, hsp⟩
    have hdigits := hgood (Or.inr (hdecimal ▸ hle))
    refine ⟨{ p with contentLength := numeral 10 digit p.contentLength more }, ?_, hp.1, hp.2.1, ?_⟩
    · rw [List.length_append, Nat.mul_add]
      exact reads_append q p _ [ch] _ 1 _ hread (reads_append p _ _ more trail _ _ hdigits
        (hspaces hsp))
    · rw [hdecimal]
      exact congrArg (fun f : Facts =>
        { f with length := numeral 10 digit p.contentLength more }) hfacts
  · intro hno
    refine reads_rejects q p [ch] (more ++ trail) 1 hread ?_
    by_cases hle : decimal (ch :: more) / 10 ≤ lengthLimit
    · have hsp : trail.all (· == SP) = false := by
        rw [← Bool.not_eq_true]
        exact fun h => hno ⟨hle, h⟩
      exact reads_rejects p _ more trail _ (hgood (Or.inr (hdecimal ▸ hle))) (htab hsp)
    · -- So what is too large has a digit that is checked.
      have hne : more ≠ [] := fun h => hle (hone h)
      exact rejects_append p more trail (hbad hne (hdecimal ▸ Nat.lt_of_not_le hle))

/-! ### A field -/

/-- The parser reads a field: if it is a length, another digit would have fit
    before the last, and no tab stands after it. -/
def readable (fd : Field) : Bool :=
  !fd.isContentLength ||
    (decide (decimal fd.value / 10 ≤ lengthLimit) && fd.trail.all (· == SP))

/-- What a field costs: its name and its value are read by loops. -/
def fieldCost (fd : Field) : Nat :=
  2 * fd.name.length + fd.lead.length + (2 * fd.rest.length - 1) + 2

/-- What a field does to the facts of a head. -/
def Facts.after (f : Facts) (fd : Field) : Facts :=
  if fd.isTransferEncoding then { f with chunked := f.chunked || saysChunked fd.rest }
  else if fd.isContentLength then { f with sized := true, length := decimal fd.value }
  else f

/-- The facts of a head where a line begins. -/
structure Stands (q : HttpParser) (f : Facts) : Prop where
  line : AtLine q
  facts : facts (lineStart q) = f

theorem stands_errno (q : HttpParser) (f : Facts) (h : Stands q f) : q.httpErrno = f.errno := by
  rw [← h.facts]
  unfold lineStart
  -- Finishing a header keeps the error.
  split_ifs
  · rfl
  · exact (errno_of_kept _ _ (finishHeader_kept q)).symm

/-- The line after a value. -/
theorem stands_later (q : HttpParser) (s : State) (f : Facts)
    (hs : s = .headerValueLws ∨ s = .headerValueDiscardLws)
    (hf : { facts q with
      chunked := q.flags.chunked || decide (q.headerState = .transferEncodingChunked) } = f) :
    Stands { q with state := s } f := by
  have hne : s ≠ .headerFieldStart := by
    rcases hs with rfl | rfl <;> exact State.noConfusion
  refine ⟨Or.inr hs, ?_⟩
  rw [lineStart_later _ hne]
  exact (finishHeader_facts { q with state := s }).trans hf

theorem rest_text (fd : Field) : fd.rest.all isText = true := by
  have htrail : fd.trail.all isText = true := by
    have hblank := fd.blank
    rw [List.all_append, Bool.and_eq_true] at hblank
    rw [List.all_eq_true] at hblank ⊢
    exact fun ch hch => text_of_space ch (List.all_eq_true.mp hblank.2 ch hch)
  unfold Field.rest
  rw [List.all_append, fd.text, htrail]
  rfl

theorem trail_space (fd : Field) : fd.trail.all isSpace = true := by
  have hblank := fd.blank
  rw [List.all_append, Bool.and_eq_true] at hblank
  exact hblank.2

/-- The end of a line after a value that has been read. -/
theorem reads_lineEnd (q q' : HttpParser) (data : Bytes) (c : Nat) (f : Facts)
    (hread : Reads q data q' c) (hok : q'.httpErrno = .ok) (hs : q'.state = .headerValue)
    (hf : { facts q' with
      chunked := q'.flags.chunked || decide (q'.headerState = .transferEncodingChunked) } = f) :
    ∃ q'', Reads q (data ++ CRLF) q'' (c + 2) ∧ Stands q'' f :=
  ⟨{ q' with state := .headerValueLws }, reads_append q q' _ data CRLF c 2 hread
    (reads_valueEnd q' hok hs), stands_later q' _ f (Or.inl rfl) hf⟩

variable (q : HttpParser) (fd : Field) (f : Facts) (ch : Byte) (more : Bytes)

theorem named_errno (h : Named fd f q) (hok : f.errno = .ok) : q.httpErrno = .ok :=
  (congrArg Facts.errno h.facts).trans hok

/-- A length is not a list of transfer codings. -/
theorem named_exclusive (h : Named fd f q) (hte : fd.isTransferEncoding = true) :
    fd.isContentLength = false := by
  rw [← Bool.not_eq_true]
  intro hcl
  exact HeaderState.noConfusion ((h.length.mpr hcl).symm.trans (h.coding.mpr hte))

/-- No value at all. -/
theorem reads_restEmpty (hok : f.errno = .ok) (h : Named fd f q) (hrest : fd.rest = [])
    (hcl : fd.isContentLength = false) :
    ∃ q', Reads q (fd.rest ++ CRLF) q' (2 * fd.rest.length - 1 + 2) ∧ Stands q' (f.after fd) := by
  have hnot : q.headerState ≠ .transferEncodingChunked := by
    intro hs
    have hv := h.value
    rw [hs] at hv
    exact absurd hv.symm Bool.false_ne_true
  rw [hrest]
  refine ⟨{ q with state := .headerValueDiscardLws },
    reads_emptyEnd q (named_errno q fd f h hok) h.state, stands_later q _ _ (Or.inr rfl) ?_⟩
  -- Nothing was compared, so no coding is recorded.
  unfold Facts.after
  rw [hcl, hrest, show saysChunked [] = false by decide, Bool.or_false, ← h.facts]
  simp only [hnot, decide_false, Bool.or_false, Bool.false_eq_true, if_false, ite_self]
  rfl

theorem rest_cost : 2 * (ch :: more).length - 1 = 1 + 2 * more.length := by
  rw [List.length_cons]
  omega

/-- Transfer codings. -/
theorem reads_restCoding (hok : f.errno = .ok) (h : Named fd f q) (hrest : fd.rest = ch :: more)
    (htext : isText ch = true ∧ more.all isText = true) (hspace : isSpace ch = false)
    (hte : fd.isTransferEncoding = true) :
    ∃ q', Reads q (fd.rest ++ CRLF) q' (2 * fd.rest.length - 1 + 2) ∧ Stands q' (f.after fd) := by
  have herr := named_errno q fd f h hok
  rcases reads_coding q ch more herr h.state (h.coding.mpr hte) htext.1 hspace htext.2 with
    ⟨q', hreads, hstate, hfacts, hiff⟩
  rw [hrest, rest_cost]
  refine reads_lineEnd q q' _ _ _ hreads ((congrArg Facts.errno hfacts).trans herr) hstate ?_
  have hdecide : decide (q'.headerState = .transferEncodingChunked) = saysChunked (ch :: more) := by
    rw [Bool.eq_iff_iff, decide_eq_true_eq]
    exact hiff
  unfold Facts.after
  rw [hte, if_pos rfl, hrest, hdecide, hfacts, ← h.facts,
    show q'.flags.chunked = q.flags.chunked from congrArg Facts.chunked hfacts]
  rfl

/-- A value of no interest. -/
theorem reads_restPlain (hok : f.errno = .ok) (h : Named fd f q) (hrest : fd.rest = ch :: more)
    (htext : isText ch = true ∧ more.all isText = true) (hspace : isSpace ch = false)
    (hte : fd.isTransferEncoding = false) (hcl : fd.isContentLength = false) :
    ∃ q', Reads q (fd.rest ++ CRLF) q' (2 * fd.rest.length - 1 + 2) ∧ Stands q' (f.after fd) := by
  have herr := named_errno q fd f h hok
  -- The name is neither of the two words, so the parser looks for nothing.
  have hquiet : framingValue q.headerState = false := by
    have hv := h.value
    cases hq : q.headerState with
    | contentLength =>
        rw [h.length.mp hq] at hcl
        exact absurd hcl.symm Bool.false_ne_true
    | transferEncoding =>
        rw [h.coding.mp hq] at hte
        exact absurd hte.symm Bool.false_ne_true
    | matchingTransferEncodingChunked | transferEncodingChunked =>
        rw [hq] at hv
        exact absurd hv.symm Bool.false_ne_true
    | _ => rfl
  rcases reads_plain q ch more herr h.state hquiet htext.1 hspace htext.2 with
    ⟨q', hreads, hstate, hfacts, hquiet'⟩
  have hnot : q'.headerState ≠ .transferEncodingChunked := by
    intro hs
    rw [hs] at hquiet'
    exact absurd hquiet'.symm Bool.false_ne_true
  rw [hrest, rest_cost]
  refine reads_lineEnd q q' _ _ _ hreads ((congrArg Facts.errno hfacts).trans herr) hstate ?_
  unfold Facts.after
  rw [hte, hcl, if_neg Bool.false_ne_true, if_neg Bool.false_ne_true, ← h.facts]
  simp only [hnot, decide_false, Bool.or_false]
  exact hfacts

/-- A length. -/
theorem reads_restLength (hok : f.errno = .ok) (h : Named fd f q) (hvalue : fd.value = ch :: more)
    (hcl : fd.isContentLength = true) (hsized : f.sized = false)
    (hdigits : fd.value.all isDigit = true) :
    (readable fd = true → ∃ q', Reads q (fd.rest ++ CRLF) q' (2 * fd.rest.length - 1 + 2) ∧
      Stands q' (f.after fd)) ∧
    (readable fd = false → Rejects q (fd.rest ++ CRLF)) := by
  have herr := named_errno q fd f h hok
  have hrest : fd.rest = ch :: (more ++ fd.trail) := by
    rw [Field.rest, hvalue]
    rfl
  rw [hvalue] at hdigits
  rcases reads_length q ch more fd.trail herr h.state (h.length.mpr hcl)
    ((congrArg Facts.sized h.facts).trans hsized) hdigits (trail_space fd) with ⟨hgood, hbad⟩
  have hread : readable fd = true ↔
      decimal (ch :: more) / 10 ≤ lengthLimit ∧ fd.trail.all (· == SP) = true := by
    rw [readable, hcl, hvalue, Bool.not_true, Bool.false_or, Bool.and_eq_true, decide_eq_true_eq]
  rw [hrest, rest_cost]
  constructor
  · intro hr
    rcases hgood (hread.mp hr) with ⟨q', hreads, hstate, hs', hfacts⟩
    refine reads_lineEnd q q' _ _ _ hreads ((congrArg Facts.errno hfacts).trans herr) hstate ?_
    -- A length cannot be a list of codings at the same time.
    have hte : fd.isTransferEncoding = false := by
      rw [← Bool.not_eq_true]
      intro hte
      rw [named_exclusive q fd f h hte] at hcl
      exact Bool.false_ne_true hcl
    unfold Facts.after
    rw [hte, hcl, if_neg Bool.false_ne_true, if_pos rfl, hvalue, hs', hfacts, ← h.facts,
      show q'.flags.chunked = q.flags.chunked from congrArg Facts.chunked hfacts]
    simp only [reduceCtorEq, decide_false, Bool.or_false]
    rfl
  · intro hr
    refine rejects_append q _ CRLF (hbad (fun hgood => ?_))
    rw [hread.mpr hgood] at hr
    exact absurd hr.symm Bool.false_ne_true

/-- What a length must be for the parser to read it as one: the only one so
    far, and a number. -/
def OneNumber (f : Facts) (fd : Field) : Prop :=
  fd.isContentLength = true →
    f.sized = false ∧ fd.value.isEmpty = false ∧ fd.value.all isDigit = true

/-- The value of a field and the end of its line, after the white space before
    the value. -/
theorem reads_rest (hok : f.errno = .ok) (h : Named fd f q) (hnumber : OneNumber f fd) :
    (readable fd = true → ∃ q', Reads q (fd.rest ++ CRLF) q' (2 * fd.rest.length - 1 + 2) ∧
      Stands q' (f.after fd)) ∧
    (readable fd = false → Rejects q (fd.rest ++ CRLF)) := by
  have hfree : fd.isContentLength = false → readable fd = true := by
    intro hcl
    rw [readable, hcl]
    rfl
  cases hvalue : fd.value with
  | nil =>
      -- White space belongs to the value before it, so here there is none.
      have htrail : fd.trail = [] := List.isEmpty_iff.mp (fd.empty (by rw [hvalue]; rfl))
      have hrest : fd.rest = [] := by
        rw [Field.rest, hvalue, htrail]
        rfl
      have hcl : fd.isContentLength = false := by
        rw [← Bool.not_eq_true]
        intro hcl
        have hne := (hnumber hcl).2.1
        rw [hvalue] at hne
        exact absurd hne.symm Bool.false_ne_true
      rw [hfree hcl]
      exact ⟨fun _ => reads_restEmpty q fd f hok h hrest hcl,
        fun h => absurd h.symm Bool.false_ne_true⟩
  | cons ch more =>
      have hrest : fd.rest = ch :: (more ++ fd.trail) := by
        rw [Field.rest, hvalue]
        rfl
      have htext := rest_text fd
      have hspace := fd.first
      rw [hvalue] at hspace
      rw [hrest, List.all_cons, Bool.and_eq_true] at htext
      cases hte : fd.isTransferEncoding with
      | true =>
          rw [hfree (named_exclusive q fd f h hte)]
          exact ⟨fun _ => reads_restCoding q fd f ch _ hok h hrest htext hspace hte,
            fun h => absurd h.symm Bool.false_ne_true⟩
      | false =>
          cases hcl : fd.isContentLength with
          | true =>
              rcases hnumber hcl with ⟨hsized, _, hdigits⟩
              exact reads_restLength q fd f ch more hok h hvalue hcl hsized hdigits
          | false =>
              rw [hfree hcl]
              exact ⟨fun _ => reads_restPlain q fd f ch _ hok h hrest htext hspace hte hcl,
                fun h => absurd h.symm Bool.false_ne_true⟩

/-- A field. -/
theorem reads_field (hok : f.errno = .ok) (h : Stands q f) (hnumber : OneNumber f fd) :
    (readable fd = true →
      ∃ q', Reads q fd.bytes q' (fieldCost fd) ∧ Stands q' (f.after fd)) ∧
    (readable fd = false → Rejects q fd.bytes) := by
  have herr : q.httpErrno = .ok := (stands_errno q f h).trans hok
  rcases reads_name q fd h.line herr with ⟨p, hname, hp⟩
  rw [h.facts] at hp
  have hblank := fd.blank
  rw [List.all_append, Bool.and_eq_true] at hblank
  have hlead := reads_lead p fd.lead (named_errno p fd f hp hok) hp.state hblank.1
  have hfirst := reads_append q p p _ fd.lead _ _ hname hlead
  have hbytes : fd.bytes = fd.name ++ [COLON] ++ fd.lead ++ (fd.rest ++ CRLF) := by
    rw [Field.bytes, List.append_assoc _ fd.rest CRLF]
  rcases reads_rest p fd f hok hp hnumber with ⟨hgood, hbad⟩
  rw [hbytes]
  constructor
  · intro hr
    rcases hgood hr with ⟨q', hrest, hq'⟩
    refine ⟨q', ?_, hq'⟩
    have hall := reads_append q p q' _ (fd.rest ++ CRLF) _ _ hfirst hrest
    have hcost : 2 * fd.name.length + fd.lead.length + (2 * fd.rest.length - 1 + 2) =
        fieldCost fd := by
      unfold fieldCost
      omega
    rw [hcost] at hall
    exact hall
  · intro hr
    exact reads_rejects q p _ (fd.rest ++ CRLF) _ hfirst (hbad hr)

/-! ### Fields -/

/-- What fields cost together. -/
def fieldsCost (fields : List Field) : Nat := (fields.map fieldCost).sum

/-- The lengths among fields: at most one, not after another, and numbers. -/
structure OneLength (f : Facts) (fields : List Field) : Prop where
  single : (fields.filter Field.isContentLength).length + (if f.sized then 1 else 0) ≤ 1
  number : ∀ fd ∈ fields.filter Field.isContentLength,
    fd.value.isEmpty = false ∧ fd.value.all isDigit = true

theorem after_errno (f : Facts) (fd : Field) : (f.after fd).errno = f.errno := by
  unfold Facts.after
  split_ifs <;> rfl

theorem oneLength_first (fields : List Field) (h : OneLength f (fd :: fields)) :
    OneNumber f fd := by
  intro hcl
  have hsingle := h.single
  rw [List.filter_cons_of_pos hcl, List.length_cons] at hsingle
  refine ⟨?_, h.number fd (by rw [List.filter_cons_of_pos hcl]; exact List.mem_cons_self)⟩
  -- A length already seen and this one would be two.
  by_contra hsized
  rw [Bool.not_eq_false] at hsized
  rw [hsized, if_pos rfl] at hsingle
  omega

theorem oneLength_rest (fields : List Field) (h : OneLength f (fd :: fields)) :
    OneLength (f.after fd) fields := by
  have hsingle := h.single
  by_cases hcl : fd.isContentLength = true
  · -- This is the one length, so there is none behind it.
    have hsized := (oneLength_first fd f fields h hcl).1
    rw [List.filter_cons_of_pos hcl, List.length_cons, hsized] at hsingle
    refine ⟨?_, fun g hg => h.number g (by
      rw [List.filter_cons_of_pos hcl]
      exact List.mem_cons_of_mem fd hg)⟩
    have hle : (if (f.after fd).sized = true then 1 else 0) ≤ 1 := by
      split_ifs
      · exact Nat.le_refl 1
      · exact Nat.zero_le 1
    rw [if_neg Bool.false_ne_true] at hsingle
    omega
  · rw [List.filter_cons_of_neg hcl] at hsingle
    refine ⟨?_, fun g hg => h.number g (by rw [List.filter_cons_of_neg hcl]; exact hg)⟩
    have hsame : (f.after fd).sized = f.sized := by
      unfold Facts.after
      rw [if_neg hcl]
      split_ifs <;> rfl
    rw [hsame]
    exact hsingle

/-- Fields, one after the other. -/
theorem reads_fields (fields : List Field) (hok : f.errno = .ok) (h : Stands q f)
    (hone : OneLength f fields) :
    (fields.all readable = true →
      ∃ q', Reads q (fields.flatMap Field.bytes) q' (fieldsCost fields) ∧
        Stands q' (fields.foldl Facts.after f)) ∧
    (fields.all readable = false → Rejects q (fields.flatMap Field.bytes)) := by
  induction fields generalizing q f with
  | nil => exact ⟨fun _ => ⟨q, reads_nil q, h⟩, fun h => absurd h.symm Bool.false_ne_true⟩
  | cons fd fields ih =>
      rcases reads_field q fd f hok h (oneLength_first fd f fields hone) with ⟨hgood, hbad⟩
      rw [List.all_cons, List.flatMap_cons, List.foldl_cons]
      by_cases hr : readable fd = true
      · rcases hgood hr with ⟨p, hread, hp⟩
        rcases ih p (f.after fd) ((after_errno f fd).trans hok) hp
          (oneLength_rest fd f fields hone) with ⟨hgoods, hbads⟩
        rw [hr, Bool.true_and]
        constructor
        · intro hrs
          rcases hgoods hrs with ⟨q', hreads, hq'⟩
          refine ⟨q', ?_, hq'⟩
          have hall := reads_append q p q' fd.bytes _ _ _ hread hreads
          rw [fieldsCost, List.map_cons, List.sum_cons]
          exact hall
        · intro hrs
          exact reads_rejects q p fd.bytes _ _ hread (hbads hrs)
      · -- The first field that is not read decides for the list.
        have hr' : readable fd = false := Bool.eq_false_iff.mpr hr
        rw [hr', Bool.false_and]
        exact ⟨fun h => absurd h Bool.false_ne_true,
          fun _ => rejects_append q fd.bytes _ (hbad hr')⟩

end HttpParser

end Wrk
