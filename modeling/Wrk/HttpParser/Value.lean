import Wrk.HttpParser.Name

/-!
# Reading the Value of a Field

What the parser makes of a value depends on the name. A value of no interest
leaves the facts of the head alone, whatever it is. A length is read digit by
digit, and the parser gives up when another digit might not fit, or at a tab
after the digits. Transfer codings are compared with one word, so that the
parser sees a chunked body only if the whole value is that word and spaces.

## Main definitions

* `numeral`: The value of digits read one after the other.
* `framingValue`: The states of a value that frames the message.
* `saysChunked`: The value in which the parser sees a chunked body.
* `Compared`: The comparison of a value with the word, part of the way.

## Theorems

* `reads_numeral`: Digits are read as long as another one fits.
* `reads_plain`: A value of no interest.
* `compared_char`: One more character of a value that is compared.
* `reads_coding`: Transfer codings.
-/

namespace Wrk

namespace HttpParser

open Http

/-! ### Numerals -/

/-- The value of digits that follow a number. -/
def numeral (base : Nat) (val : Byte → Nat) (a : Nat) (digits : Bytes) : Nat :=
  digits.foldl (fun n ch => n * base + val ch) a

theorem le_numeral (base : Nat) (val : Byte → Nat) (hbase : 0 < base) (digits : Bytes) (a : Nat) :
    a ≤ numeral base val a digits := by
  induction digits generalizing a with
  | nil => exact Nat.le_refl a
  | cons ch digits ih =>
      have hmul := Nat.le_mul_of_pos_right a hbase
      exact Nat.le_trans (Nat.le_trans hmul (Nat.le_add_right _ (val ch))) (ih _)

/-- Without its last digit, a numeral is at least what it started from. -/
theorem le_numeral_div (base : Nat) (val : Byte → Nat) (hbase : 0 < base) (ch : Byte)
    (digits : Bytes) (a : Nat) : a ≤ numeral base val a (ch :: digits) / base := by
  rw [Nat.le_div_iff_mul_le hbase]
  exact Nat.le_trans (Nat.le_add_right _ (val ch)) (le_numeral base val hbase digits _)

/-- Digits are read as long as the number before each of them is within a
    limit, and that is decided by the last. -/
theorem reads_numeral (base limit k : Nat) (val : Byte → Nat) (J : HttpParser → Prop)
    (ok : Byte → Bool) (hval : ∀ ch, ok ch = true → val ch < base)
    (hgood : ∀ q ch, J q → ok ch = true → q.contentLength ≤ limit →
      Reads q [ch] { q with contentLength := q.contentLength * base + val ch } k)
    (hbad : ∀ q ch, J q → ok ch = true → limit < q.contentLength → Rejects q [ch])
    (hJ : ∀ q n, J q → J { q with contentLength := n }) (digits : Bytes) (q : HttpParser)
    (hq : J q) (hdigits : digits.all ok = true) :
    ((digits = [] ∨ numeral base val q.contentLength digits / base ≤ limit) →
      Reads q digits { q with contentLength := numeral base val q.contentLength digits }
        (k * digits.length)) ∧
    (digits ≠ [] → limit < numeral base val q.contentLength digits / base →
      Rejects q digits) := by
  induction digits generalizing q with
  | nil => exact ⟨fun _ => reads_nil q, fun h => absurd rfl h⟩
  | cons ch digits ih =>
      rw [List.all_cons, Bool.and_eq_true] at hdigits
      have hbase : 0 < base := Nat.lt_of_le_of_lt (Nat.zero_le _) (hval ch hdigits.1)
      have hle := le_numeral_div base val hbase ch digits q.contentLength
      rcases ih { q with contentLength := q.contentLength * base + val ch } (hJ q _ hq) hdigits.2
        with ⟨hreads, hrejects⟩
      constructor
      · intro h
        -- The number before the first digit is below the one before the last.
        have hlimit := Nat.le_trans hle (h.resolve_left (List.cons_ne_nil ch digits))
        have hfirst := hgood q ch hq hdigits.1 hlimit
        rw [List.length_cons, Nat.mul_succ, Nat.add_comm]
        exact reads_append _ _ _ [ch] digits k _ hfirst
          (hreads (Or.inr (h.resolve_left (List.cons_ne_nil ch digits))))
      · intro _ hgt
        by_cases hlimit : q.contentLength ≤ limit
        · have hne : digits ≠ [] := by
            rintro rfl
            -- The only digit is checked against the number before it.
            have hone : numeral base val q.contentLength [ch] / base = q.contentLength := by
              change (q.contentLength * base + val ch) / base = _
              rw [Nat.mul_comm, Nat.mul_add_div hbase, Nat.div_eq_of_lt (hval ch hdigits.1),
                Nat.add_zero]
            rw [hone] at hgt
            exact absurd hgt (Nat.not_lt.mpr hlimit)
          exact reads_rejects q _ [ch] digits k (hgood q ch hq hdigits.1 hlimit)
            (hrejects hne hgt)
        · exact rejects_append q [ch] digits
            (hbad q ch hq hdigits.1 (Nat.lt_of_not_le hlimit))

/-! ### Values of no interest -/

/-- The states of a value that frames the message. -/
def framingValue : HeaderState → Bool
  | .contentLength | .transferEncoding | .matchingTransferEncodingChunked
  | .transferEncodingChunked => true
  | _ => false

theorem connectionKeyword_quiet (q : HttpParser) (flags : Flags) (ch : Byte)
    (hf : flags.chunked = q.flags.chunked ∧ flags.contentLength = q.flags.contentLength ∧
      flags.trailing = q.flags.trailing) (h : framingValue q.headerState = false) :
    facts (connectionKeyword q flags ch) = facts q ∧
      framingValue (connectionKeyword q flags ch).headerState = false := by
  unfold connectionKeyword facts
  split_ifs
  · dsimp only
    rw [hf.1, hf.2.1, hf.2.2]
    exact ⟨rfl, rfl⟩
  · exact ⟨rfl, rfl⟩
  · exact ⟨rfl, h⟩

/-- The first character of a value of no interest. -/
theorem headerValueStart_quiet (q : HttpParser) (ch : Byte)
    (h : framingValue q.headerState = false) :
    ∃ q', headerValueStart q ch = advance q' [.mark .headerValue] ∧ q'.state = .headerValue ∧
      facts q' = facts q ∧ framingValue q'.headerState = false := by
  unfold headerValueStart
  dsimp only
  cases hs : q.headerState with
  | contentLength | transferEncoding =>
      rw [hs] at h
      exact absurd h.symm Bool.false_ne_true
  | connection =>
      refine ⟨_, rfl, rfl, rfl, ?_⟩
      dsimp only
      split_ifs <;> rfl
  | matchingConnectionTokenStart => exact ⟨_, rfl, rfl, rfl, rfl⟩
  | _ => exact ⟨_, rfl, rfl, rfl, rfl⟩

/-- One more character of a value of no interest. -/
theorem headerValueChar_quiet (q : HttpParser) (ch : Byte)
    (h : framingValue q.headerState = false) :
    ∃ q' skip, headerValueChar q ch = ⟨q', [], .next, skip⟩ ∧ q'.state = q.state ∧
      facts q' = facts q ∧ framingValue q'.headerState = false := by
  have hmatching : ∀ word c found mismatch, framingValue found = false →
      framingValue mismatch = false →
      ∃ q' skip, advance (matching q word c found mismatch) [] = ⟨q', [], .next, skip⟩ ∧
        q'.state = q.state ∧ facts q' = facts q ∧ framingValue q'.headerState = false :=
    fun word c found mismatch hf hm => ⟨_, none, rfl, matching_state q word c found mismatch,
      matching_facts q word c found mismatch, matching_member word q c found mismatch _ h hf hm⟩
  unfold headerValueChar
  dsimp only
  cases hs : q.headerState with
  | contentLength | transferEncoding | matchingTransferEncodingChunked
  | transferEncodingChunked =>
      rw [hs] at h
      exact absurd h.symm Bool.false_ne_true
  -- A value that is skipped leaves the parser as it is.
  | general => exact ⟨q, _, rfl, rfl, rfl, h⟩
  | matchingConnectionKeepAlive | matchingConnectionClose | matchingConnectionUpgrade =>
      -- The words of a `Connection` field change flags that no body depends on.
      exact hmatching _ _ _ _ rfl rfl
  | matchingConnectionTokenStart =>
      refine ⟨_, none, rfl, rfl, rfl, ?_⟩
      dsimp only
      split_ifs <;> rfl
  | matchingConnectionToken =>
      dsimp only
      split_ifs
      · exact ⟨_, none, rfl, rfl, rfl, rfl⟩
      · exact ⟨q, none, rfl, rfl, rfl, h⟩
  | connectionKeepAlive | connectionClose | connectionUpgrade =>
      exact ⟨_, none, rfl, connectionKeyword_state q _ ch,
        connectionKeyword_quiet q _ ch ⟨rfl, rfl, rfl⟩ h⟩
  | connection => exact ⟨q, none, rfl, rfl, rfl, h⟩
  | _ => exact ⟨_, none, rfl, rfl, rfl, rfl⟩

/-! ### The bytes of a value -/

theorem byteStep_headerValue (q : HttpParser) (ch : Byte) (hs : q.state = .headerValue)
    (hch : isText ch = true) : byteStep q none ch = headerValueChar q ch := by
  rcases headerChar_of_text ch hch with ⟨hchar, hcr, hlf⟩
  unfold byteStep
  rw [hs]
  dsimp only
  unfold headerValue
  rw [if_neg (by exact nofun), if_neg hcr, if_neg hlf, hchar]
  rfl

theorem byteStep_discardWs (q : HttpParser) (ch : Byte) (hs : q.state = .headerValueDiscardWs)
    (hch : isText ch = true) (hspace : isSpace ch = false) :
    byteStep q none ch = headerValueStart q ch := by
  rcases headerChar_of_text ch hch with ⟨_, hcr, hlf⟩
  unfold byteStep
  rw [hs]
  dsimp only
  unfold headerValueDiscardWs
  rw [isBlank_eq, hspace, if_neg Bool.false_ne_true, if_neg hcr, if_neg hlf]

theorem reads_valueStart (q q' : HttpParser) (ch : Byte) (hok : q.httpErrno = .ok)
    (hs : q.state = .headerValueDiscardWs) (hch : isText ch = true) (hspace : isSpace ch = false)
    (hstart : headerValueStart q ch = advance q' [.mark .headerValue]) : Reads q [ch] q' 1 := by
  refine reads_single q q' ch [.mark .headerValue] hok ?_ ?_ (fun _ => ?_) (fun _ _ => rfl)
  · rw [byteStep_discardWs q ch hs hch hspace]
    exact hstart
  · rw [headerByte, hs]
    rfl
  · rw [hs]
    rfl

theorem reads_valueChar (q q' : HttpParser) (ch : Byte) (skip : Option Nat)
    (hok : q.httpErrno = .ok) (hs : q.state = .headerValue) (hch : isText ch = true)
    (hchar : headerValueChar q ch = ⟨q', [], .next, skip⟩) (hs' : q'.state = q.state) :
    Reads q [ch] q' 2 := by
  refine reads_inside q q' ch skip hok ?_ hs' ?_ ?_
  · rw [byteStep_headerValue q ch hs hch]
    exact hchar
  · rw [hs]
    rfl
  · rw [headerByte, hs]
    rfl

/-- The white space before a value. -/
theorem reads_lead (q : HttpParser) (lead : Bytes) (hok : q.httpErrno = .ok)
    (hs : q.state = .headerValueDiscardWs) (hlead : lead.all isSpace = true) :
    Reads q lead q lead.length := by
  have hspace : ∀ ch, isSpace ch = true → Reads q [ch] q 1 := by
    intro ch hch
    refine reads_single q q ch [] hok ?_ ?_ (fun _ => ?_) (fun _ _ => rfl)
    · unfold byteStep
      rw [hs]
      dsimp only
      unfold headerValueDiscardWs
      rw [isBlank_eq, hch, if_pos rfl]
    · rw [headerByte, hs]
      rfl
    · rw [hs]
      rfl
  have hread := reads_stay q isSpace 1 hspace lead hlead
  rw [Nat.one_mul] at hread
  exact hread

/-- The end of a line after a value. -/
theorem reads_valueEnd (q : HttpParser) (hok : q.httpErrno = .ok) (hs : q.state = .headerValue) :
    Reads q CRLF { q with state := .headerValueLws } 2 := by
  have hcr : Reads q [CR] { q with state := .headerAlmostDone } 1 := by
    refine reads_single q _ CR [.emit .headerValue, .count] hok ?_ ?_ ?_ ?_
    · unfold byteStep
      rw [hs]
      rfl
    · rw [headerByte, hs]
      rfl
    · intro h
      exact absurd (h.trans hs) State.noConfusion
    · intro n hn
      exact if_neg (Nat.not_lt.mpr hn)
  have hlf : Reads { q with state := .headerAlmostDone } [LF]
      { q with state := .headerValueLws } 1 :=
    reads_single { q with state := .headerAlmostDone } _ LF [] hok rfl rfl (fun _ => rfl)
      (fun _ _ => rfl)
  exact reads_append _ _ _ _ _ _ _ hcr hlf

/-- The end of a line without a value. -/
theorem reads_emptyEnd (q : HttpParser) (hok : q.httpErrno = .ok)
    (hs : q.state = .headerValueDiscardWs) :
    Reads q CRLF { q with state := .headerValueDiscardLws } 2 := by
  have hcr : Reads q [CR] { q with state := .headerValueDiscardWsAlmostDone } 1 := by
    refine reads_single q _ CR [] hok ?_ ?_ ?_ (fun _ _ => rfl)
    · unfold byteStep
      rw [hs]
      rfl
    · rw [headerByte, hs]
      rfl
    · intro h
      exact absurd (h.trans hs) State.noConfusion
  have hlf : Reads { q with state := .headerValueDiscardWsAlmostDone } [LF]
      { q with state := .headerValueDiscardLws } 1 :=
    reads_single { q with state := .headerValueDiscardWsAlmostDone } _ LF [] hok rfl rfl
      (fun _ => rfl) (fun _ _ => rfl)
  exact reads_append _ _ _ _ _ _ _ hcr hlf

/-! ### Plain values and transfer codings -/

/-- A value that does not frame the message. -/
theorem reads_plain (q : HttpParser) (ch : Byte) (more : Bytes) (hok : q.httpErrno = .ok)
    (hs : q.state = .headerValueDiscardWs) (hquiet : framingValue q.headerState = false)
    (hch : isText ch = true) (hspace : isSpace ch = false) (hmore : more.all isText = true) :
    ∃ q', Reads q (ch :: more) q' (1 + 2 * more.length) ∧ q'.state = .headerValue ∧
      facts q' = facts q ∧ framingValue q'.headerState = false := by
  rcases headerValueStart_quiet q ch hquiet with ⟨p, hstart, hp⟩
  have hfirst := reads_valueStart q p ch hok hs hch hspace hstart
  have hchar : ∀ (part : Bytes) (p : HttpParser) (ch : Byte),
      (p.state = .headerValue ∧ facts p = facts q ∧ framingValue p.headerState = false) →
      isText ch = true → ∃ p', Reads p [ch] p' 2 ∧
        (p'.state = .headerValue ∧ facts p' = facts q ∧ framingValue p'.headerState = false) := by
    intro part p ch hp hch
    rcases headerValueChar_quiet p ch hp.2.2 with ⟨p', skip, hchar, hstate, hfacts, hquiet'⟩
    refine ⟨p', reads_valueChar p p' ch skip ?_ hp.1 hch hchar hstate, hstate.trans hp.1,
      hfacts.trans hp.2.1, hquiet'⟩
    exact (congrArg Facts.errno hp.2.1).trans hok
  rcases reads_loop _ isText 2 hchar more [] p hp hmore with ⟨q', hread, hq'⟩
  exact ⟨q', reads_append q p q' [ch] more 1 _ hfirst hread, hq'⟩

/-- The value of a field in which the parser sees a chunked body: the word
    and nothing after it but spaces. -/
def saysChunked (rest : Bytes) : Bool :=
  decide ((rest.take CHUNKED.length).map lowerCase = CHUNKED) &&
    (rest.drop CHUNKED.length).all (· == SP)

theorem chunked_length : CHUNKED.length = 7 := by decide

theorem length_of_lower (v : Bytes) (h : v.map lowerCase = CHUNKED) : v.length = 7 := by
  have hlen := congrArg List.length h
  rw [List.length_map, chunked_length] at hlen
  exact hlen

theorem saysChunked_length (v : Bytes) (h : saysChunked v = true) : 7 ≤ v.length := by
  unfold saysChunked at h
  rw [Bool.and_eq_true, decide_eq_true_eq, chunked_length] at h
  have hlen := length_of_lower _ h.1
  rw [List.length_take] at hlen
  omega

/-- One more character of a value. -/
theorem saysChunked_snoc (v : Bytes) (ch : Byte) :
    saysChunked (v ++ [ch]) = true ↔
      (saysChunked v = true ∧ ch = SP) ∨ (v ++ [ch]).map lowerCase = CHUNKED := by
  by_cases hv : 7 ≤ v.length
  · -- With the word complete, only a space can follow.
    have hno : ¬ (v ++ [ch]).map lowerCase = CHUNKED := by
      intro h
      have hlen := length_of_lower _ h
      rw [List.length_append, List.length_singleton] at hlen
      omega
    unfold saysChunked
    rw [chunked_length, List.take_append_of_le_length hv, List.drop_append_of_le_length hv,
      List.all_append]
    simp only [Bool.and_eq_true, List.all_cons, List.all_nil, Bool.and_true, beq_iff_eq, hno,
      or_false, and_assoc]
  · have hno : ¬ saysChunked v = true := fun h => hv (saysChunked_length v h)
    -- Short of it, the value says so only by becoming the word.
    have hle : (v ++ [ch]).length ≤ 7 := by
      rw [List.length_append, List.length_singleton]
      omega
    unfold saysChunked at hno ⊢
    rw [chunked_length, List.take_of_length_le hle, List.drop_of_length_le hle]
    rw [chunked_length] at hno
    simp only [List.all_nil, Bool.and_true, decide_eq_true_eq, hno, Bool.false_eq_true, false_and,
      false_or]

/-- The comparison of a value with the word, after part of the value. -/
inductive Compared (v : Bytes) (q : HttpParser) : Prop where
  | going (hp : v.map lowerCase <+: CHUNKED) (hlen : v.length < 7)
      (hs : q.headerState = .matchingTransferEncodingChunked) (hi : q.index + 1 = v.length)
  | found (hs : q.headerState = .transferEncodingChunked) (h : saysChunked v = true)
  | lost (hs : q.headerState = .general) (hp : ¬ v.map lowerCase <+: CHUNKED)
      (h : ¬ saysChunked v = true)

/-- A letter of the word, in either comparison. -/
theorem lower_chunked (ch : Byte) (k : Nat) (hk : k < 7) :
    lower ch = CHUNKED.getD k 0 ↔ lowerCase ch = CHUNKED.getD k 0 := by
  refine lower_eq_iff ch _ ?_
  have hcases : k = 0 ∨ k = 1 ∨ k = 2 ∨ k = 3 ∨ k = 4 ∨ k = 5 ∨ k = 6 := by omega
  rcases hcases with rfl | rfl | rfl | rfl | rfl | rfl | rfl <;> decide

theorem lower_isPrefix (v : Bytes) (ch : Byte) :
    (v ++ [ch]).map lowerCase <+: CHUNKED ↔ v.map lowerCase <+: CHUNKED ∧ v.length < 7 ∧
      lowerCase ch = CHUNKED.getD v.length 0 := by
  have h := isPrefix_snoc (v.map lowerCase) CHUNKED (lowerCase ch)
  rw [List.length_map, chunked_length] at h
  rw [List.map_append]
  exact h

/-- One more character of a value that is compared. -/
theorem compared_char (v : Bytes) (q : HttpParser) (ch : Byte) (h : Compared v q) :
    ∃ q' skip, headerValueChar q ch = ⟨q', [], .next, skip⟩ ∧ q'.state = q.state ∧
      facts q' = facts q ∧ Compared (v ++ [ch]) q' := by
  have hbegins := lower_isPrefix v ch
  have hword := saysChunked_snoc v ch
  cases h with
  | going hp hlen hs hi =>
      have hchar : headerValueChar q ch = advance (matching q CHUNKED (lower ch)
          .transferEncodingChunked .general) [] := by
        unfold headerValueChar
        rw [hs]
      refine ⟨_, none, hchar, matching_state q _ _ _ _, matching_facts q _ _ _ _, ?_⟩
      have hletter := lower_chunked ch v.length hlen
      rw [matching_eq CHUNKED q (lower ch) v.length _ _ hlen hi, chunked_length]
      by_cases hc : lower ch = CHUNKED.getD v.length 0
      · have hp' := hbegins.mpr ⟨hp, hlen, hletter.mp hc⟩
        rw [if_pos hc]
        by_cases hlast : v.length + 1 < 7
        · rw [if_pos hlast]
          refine .going hp' ?_ hs ?_
          · rw [List.length_append]
            exact hlast
          · rw [List.length_append]
            rfl
        · rw [if_neg hlast]
          -- The word is complete.
          refine .found rfl (hword.mpr (Or.inr (hp'.eq_of_length ?_)))
          rw [List.length_map, List.length_append, List.length_singleton, chunked_length]
          omega
      · rw [if_neg hc]
        -- A letter that is not the word's: the comparison is lost for good.
        refine .lost rfl (fun h => hc (hletter.mpr (hbegins.mp h).2.2)) (fun h => ?_)
        rcases hword.mp h with h | h
        · have hle := saysChunked_length v h.1
          omega
        · exact hc (hletter.mpr (hbegins.mp (h ▸ List.prefix_refl _)).2.2)
  | found hs hv =>
      have hlen := saysChunked_length v hv
      by_cases hc : ch = SP
      · refine ⟨q, none, ?_, rfl, rfl, .found hs (hword.mpr (Or.inl ⟨hv, hc⟩))⟩
        unfold headerValueChar
        rw [hs, hc]
        rfl
      · -- Anything but a space after the word makes it another coding.
        refine ⟨{ q with headerState := .general }, none, ?_, rfl, rfl,
          .lost rfl (fun h => ?_) (fun h => ?_)⟩
        · unfold headerValueChar
          rw [hs]
          exact if_pos hc
        · exact absurd (hbegins.mp h).2.1 (by omega)
        · rcases hword.mp h with h | h
          · exact hc h.2
          · have hlen' := length_of_lower _ h
            rw [List.length_append, List.length_singleton] at hlen'
            omega
  | lost hs hp hv =>
      -- The rest of such a value is skipped.
      refine ⟨q, some (httpMaxHeaderSize - 1), ?_, rfl, rfl,
        .lost hs (fun h => hp (hbegins.mp h).1) (fun h => ?_)⟩
      · unfold headerValueChar
        rw [hs]
      · rcases hword.mp h with h | h
        · exact hv h.1
        · exact hp (hbegins.mp (h ▸ List.prefix_refl _)).1

/-- Transfer codings. -/
theorem reads_coding (q : HttpParser) (ch : Byte) (more : Bytes) (hok : q.httpErrno = .ok)
    (hs : q.state = .headerValueDiscardWs) (hq : q.headerState = .transferEncoding)
    (hch : isText ch = true) (hspace : isSpace ch = false) (hmore : more.all isText = true) :
    ∃ q', Reads q (ch :: more) q' (1 + 2 * more.length) ∧ q'.state = .headerValue ∧
      facts q' = facts q ∧
      (q'.headerState = .transferEncodingChunked ↔ saysChunked (ch :: more) = true) := by
  have hfirst : ∃ p, headerValueStart q ch = advance p [.mark .headerValue] ∧
      p.state = .headerValue ∧ facts p = facts q ∧ Compared [ch] p := by
    have hbegins := lower_isPrefix [] ch
    have hlower := lower_chunked ch 0 (by omega)
    rw [show CHUNKED.getD 0 0 = 'c'.toUInt8 by decide] at hlower
    unfold headerValueStart
    rw [hq]
    refine ⟨_, rfl, rfl, rfl, ?_⟩
    dsimp only
    by_cases hc : lower ch = 'c'.toUInt8
    · rw [if_pos hc]
      exact .going (hbegins.mpr ⟨List.nil_prefix, by decide, hlower.mp hc⟩)
        (by rw [List.length_singleton]; omega) rfl rfl
    · rw [if_neg hc]
      refine .lost rfl (fun h => hc (hlower.mpr (hbegins.mp h).2.2)) (fun h => ?_)
      have hle := saysChunked_length [ch] h
      rw [List.length_singleton] at hle
      omega
  -- The first character is read at the start of the value, the others in its loop.
  rcases hfirst with ⟨p, hstart, hp⟩
  have hchar : ∀ (part : Bytes) (p : HttpParser) (ch : Byte),
      (p.state = .headerValue ∧ facts p = facts q ∧ Compared part p) →
      isText ch = true → ∃ p', Reads p [ch] p' 2 ∧
        (p'.state = .headerValue ∧ facts p' = facts q ∧ Compared (part ++ [ch]) p') := by
    intro part p ch hp hch
    rcases compared_char part p ch hp.2.2 with ⟨p', skip, hchar, hstate, hfacts, hcompared⟩
    refine ⟨p', reads_valueChar p p' ch skip ?_ hp.1 hch hchar hstate, hstate.trans hp.1,
      hfacts.trans hp.2.1, hcompared⟩
    exact (congrArg Facts.errno hp.2.1).trans hok
  rcases reads_loop _ isText 2 hchar more [ch] p hp hmore with ⟨q', hread, hstate, hfacts, hq'⟩
  refine ⟨q', reads_append q p q' [ch] more 1 _
    (reads_valueStart q p ch hok hs hch hspace hstart) hread, hstate, hfacts, ?_⟩
  cases hq' with
  | going hp hlen hs hi =>
      -- A value that ends inside the word is too short to be it.
      rw [hs]
      refine ⟨fun h => HeaderState.noConfusion h, fun h => ?_⟩
      have hle := saysChunked_length _ h
      change ([ch] ++ more).length < 7 at hlen
      change 7 ≤ ([ch] ++ more).length at hle
      omega
  | found hs h => exact ⟨fun _ => h, fun _ => hs⟩
  | lost hs hp h =>
      rw [hs]
      exact ⟨fun h => HeaderState.noConfusion h, fun h' => absurd h' h⟩

end HttpParser

end Wrk
