import Wrk.HttpParser.Chars
import Wrk.HttpParser.Cost

/-!
# Reading the Name of a Field

A field begins where a line does: after the status line, or after a field
whose end the parser only sees now. The name is compared with the words the
parser knows while it is read. Two of them frame messages, and what is proved
here is that the parser is looking at one of those if and only if that is the
name, in any case.

## Main definitions

* `Facts`, `facts`: What the end of a head depends on.
* `AtLine`, `lineStart`: Where a line begins.
* `Word`: A word the parser compares names with.
* `Tracks`: The comparison after part of a name.
* `Naming`, `Named`: The parser after part of a name, and after a colon.

## Theorems

* `reads_loop`, `reads_stay`: A loop of the source.
* `tracks_char`: One more character.
* `reads_name`: A whole name.
-/

namespace Wrk

namespace HttpParser

open Http

/-! ### Facts -/

/-- What the end of a head depends on. -/
structure Facts where
  chunked : Bool
  sized : Bool
  length : Nat
  trailing : Bool
  status : Nat
  errno : HttpErrno

def facts (q : HttpParser) : Facts :=
  ⟨q.flags.chunked, q.flags.contentLength, q.contentLength, q.flags.trailing, q.statusCode,
    q.httpErrno⟩

theorem matching_facts (q : HttpParser) (word : Bytes) (c : Byte) (found mismatch : HeaderState) :
    facts (matching q word c found mismatch) = facts q := by
  unfold matching
  dsimp only
  split_ifs <;> rfl

theorem headerFieldChar_facts (q : HttpParser) (ch c : Byte) :
    facts (headerFieldChar q ch c) = facts q := by
  unfold headerFieldChar
  split
  all_goals first
    | rfl
    | exact matching_facts _ _ _ _ _
    | (split_ifs <;> rfl)

/-- Finishing a header records a coding, if one has been recognized. -/
theorem finishHeader_facts (q : HttpParser) :
    facts (finishHeader q) =
      { facts q with
        chunked := q.flags.chunked || decide (q.headerState = .transferEncodingChunked) } := by
  unfold finishHeader
  cases hq : q.headerState with
  | transferEncodingChunked =>
      simp only [facts, decide_true, Bool.or_true]
  | _ => simp only [facts, reduceCtorEq, decide_false, Bool.or_false]

/-! ### Where a line begins -/

/-- A field or the end of the head may begin here. -/
def AtLine (q : HttpParser) : Prop :=
  q.state = .headerFieldStart ∨ q.state = .headerValueLws ∨ q.state = .headerValueDiscardLws

/-- The parser with the header before it finished. -/
def lineStart (q : HttpParser) : HttpParser :=
  if q.state = .headerFieldStart then q
  else { finishHeader q with state := .headerFieldStart }

theorem lineStart_first (q : HttpParser) (h : q.state = .headerFieldStart) : lineStart q = q :=
  if_pos h

theorem lineStart_later (q : HttpParser) (h : q.state ≠ .headerFieldStart) :
    lineStart q = { finishHeader q with state := .headerFieldStart } := if_neg h

/-- A line that does not continue the one before begins as a field does. -/
theorem byteStep_atLine (q : HttpParser) (ch : Byte) (h : AtLine q) (hch : isBlank ch = false) :
    ∃ pre, (∀ span ops n, countOps span (pre ++ ops) n = countOps span ops n) ∧
      byteStep q none ch = (headerFieldStart (lineStart q) ch).after pre := by
  have hblank : ¬ isBlank ch = true := by
    rw [hch]
    exact Bool.false_ne_true
  rcases h with h | h | h
  · rw [lineStart_first q h]
    refine ⟨[], fun _ _ _ => rfl, ?_⟩
    unfold byteStep
    rw [h]
    rfl
  · -- A field with a value has been reported when its line ended.
    rw [lineStart_later q (by rw [h]; exact State.noConfusion)]
    refine ⟨[], fun _ _ _ => rfl, ?_⟩
    unfold byteStep
    rw [h]
    exact if_neg hblank
  · -- One without is reported here, as an empty value.
    rw [lineStart_later q (by rw [h]; exact State.noConfusion)]
    refine ⟨[.mark .headerValue, .emit .headerValue], fun _ _ _ => rfl, ?_⟩
    unfold byteStep
    rw [h]
    exact if_neg hblank

theorem atLine_header (q : HttpParser) (h : AtLine q) :
    headerByte q = 1 ∧ Exec.spanState q.state = false := by
  unfold headerByte
  rcases h with h | h | h <;> rw [h] <;> exact ⟨rfl, rfl⟩

/-! ### Loops -/

/-- A loop of the source: every byte is read at the same cost, and what holds
    depends on the bytes read so far. -/
theorem reads_loop (J : Bytes → HttpParser → Prop) (ok : Byte → Bool) (k : Nat)
    (hbyte : ∀ part q ch, J part q → ok ch = true →
      ∃ q', Reads q [ch] q' k ∧ J (part ++ [ch]) q')
    (data part : Bytes) (q : HttpParser) (hq : J part q) (hdata : data.all ok = true) :
    ∃ q', Reads q data q' (k * data.length) ∧ J (part ++ data) q' := by
  induction data generalizing part q with
  | nil =>
      rw [List.append_nil]
      exact ⟨q, reads_nil q, hq⟩
  | cons ch data ih =>
      rw [List.all_cons, Bool.and_eq_true] at hdata
      rcases hbyte part q ch hq hdata.1 with ⟨q1, hread, hJ⟩
      rcases ih (part ++ [ch]) q1 hJ hdata.2 with ⟨q2, hrest, hlast⟩
      rw [List.append_cons, List.length_cons, Nat.mul_succ, Nat.add_comm]
      exact ⟨q2, reads_append q q1 q2 [ch] data k _ hread hrest, hlast⟩

/-- A loop whose bytes leave the parser where it is. -/
theorem reads_stay (q : HttpParser) (ok : Byte → Bool) (k : Nat)
    (hbyte : ∀ ch, ok ch = true → Reads q [ch] q k) (data : Bytes) (hdata : data.all ok = true) :
    Reads q data q (k * data.length) := by
  have hstay : ∀ (part : Bytes) (p : HttpParser) (ch : Byte), p = q → ok ch = true →
      ∃ p', Reads p [ch] p' k ∧ p' = q := by
    intro part p ch hp hch
    rw [hp]
    exact ⟨q, hbyte ch hch, rfl⟩
  rcases reads_loop (fun _ p => p = q) ok k hstay data [] q rfl hdata with ⟨p, hread, rfl⟩
  exact hread

/-- A byte outside the loops that costs one. -/
theorem reads_single (q q' : HttpParser) (ch : Byte) (ops : List Op) (hok : q.httpErrno = .ok)
    (hstep : byteStep q none ch = advance q' ops) (hheader : headerByte q = 1)
    (hspan : q'.state = q.state → Exec.spanState q.state = false)
    (hops : ∀ n, n ≤ httpMaxHeaderSize → countOps 0 ops n = some n) : Reads q [ch] q' 1 := by
  have hread := reads_byte q ch hok (by rw [hstep]; rfl) (by rw [hstep]; exact hops)
  have hcost : byteCost q ch = 1 := by
    have hinside : staysInside q (advance q' ops) = false := by
      unfold staysInside
      rw [Bool.and_eq_false_iff, decide_eq_false_iff_not]
      by_cases hs : q'.state = q.state
      · exact Or.inr (hspan hs)
      · exact Or.inl (fun h => hs h.symm)
    unfold byteCost
    rw [hstep, hinside, hheader]
    rfl
  rw [hcost, hstep] at hread
  exact hread

/-- A byte inside a loop costs two. -/
theorem reads_inside (q q' : HttpParser) (ch : Byte) (skip : Option Nat)
    (hok : q.httpErrno = .ok) (hstep : byteStep q none ch = ⟨q', [], .next, skip⟩)
    (hs : q'.state = q.state) (hspan : Exec.spanState q.state = true)
    (hheader : headerByte q = 1) : Reads q [ch] q' 2 := by
  have hread := reads_byte q ch hok (by rw [hstep]) (by rw [hstep]; exact fun _ _ => rfl)
  have hcost : byteCost q ch = 2 := by
    have hinside : staysInside q ⟨q', [], .next, skip⟩ = true := by
      unfold staysInside
      rw [Bool.and_eq_true, decide_eq_true_eq]
      exact ⟨hs.symm, hspan⟩
    unfold byteCost
    rw [hstep, hinside, hheader]
    rfl
  rw [hcost, hstep] at hread
  exact hread

/-! ### Words -/

/-- A word that names are compared with: the state of the comparison after
    each of its first characters, the states that belong to it, and what one
    more character does. -/
structure Word (word : Bytes) (stage : Nat → HeaderState) (member : HeaderState → Bool) :
    Prop where
  on : ∀ q ch k, 1 ≤ k → k ≤ word.length → q.headerState = stage k → q.index + 1 = k →
    if k < word.length ∧ tokens ch = word.getD k 0 then
      (headerFieldChar q ch (tokens ch)).headerState = stage (k + 1) ∧
        (headerFieldChar q ch (tokens ch)).index + 1 = k + 1
    else tokens ch ≠ 0 → member (headerFieldChar q ch (tokens ch)).headerState = false
  off : ∀ q ch, member q.headerState = false →
    member (headerFieldChar q ch (tokens ch)).headerState = false

/-- The comparison after part of a name, given in lower case. -/
def Tracks (word : Bytes) (stage : Nat → HeaderState) (member : HeaderState → Bool) (part : Bytes)
    (q : HttpParser) : Prop :=
  (part <+: word ∧ q.headerState = stage part.length ∧ q.index + 1 = part.length) ∨
    (¬ part <+: word ∧ member q.headerState = false)

/-- A longer part is a beginning if the shorter one is and the next character
    is right. -/
theorem isPrefix_snoc (part word : Bytes) (c : Byte) :
    part ++ [c] <+: word ↔ part <+: word ∧ part.length < word.length ∧
      c = word.getD part.length 0 := by
  induction part generalizing word with
  | nil =>
      cases word with
      | nil => simp
      | cons w word => simp
  | cons p part ih =>
      cases word with
      | nil => simp
      | cons w word =>
          rw [List.cons_append, List.cons_prefix_cons, List.cons_prefix_cons, ih,
            List.length_cons, List.length_cons, Nat.add_lt_add_iff_right, List.getD_cons_succ,
            and_assoc]

theorem tracks_char (word : Bytes) (stage : Nat → HeaderState) (member : HeaderState → Bool)
    (hw : Word word stage member) (part : Bytes) (q : HttpParser) (ch : Byte)
    (hpart : 1 ≤ part.length) (hch : tokens ch ≠ 0) (h : Tracks word stage member part q) :
    Tracks word stage member (part ++ [tokens ch]) (headerFieldChar q ch (tokens ch)) := by
  unfold Tracks
  rw [isPrefix_snoc, List.length_append, List.length_singleton]
  -- Inside the word the next character decides; outside it nothing leads back.
  rcases h with ⟨hp, hs, hi⟩ | ⟨hp, hm⟩
  · have hstep := hw.on q ch part.length hpart hp.length_le hs hi
    by_cases hc : part.length < word.length ∧ tokens ch = word.getD part.length 0
    · rw [if_pos hc] at hstep
      exact Or.inl ⟨⟨hp, hc⟩, hstep⟩
    · rw [if_neg hc] at hstep
      exact Or.inr ⟨fun h => hc h.2, hstep hch⟩
  · exact Or.inr ⟨fun h => hp h.1, hw.off q ch hm⟩

/-- At the end of a name the comparison is complete if the name is the
    word. -/
theorem tracks_final (word : Bytes) (stage : Nat → HeaderState) (member : HeaderState → Bool)
    (final : HeaderState) (hfinal : member final = true)
    (hstage : ∀ k, k ≤ word.length → (stage k = final ↔ k = word.length)) (name : Bytes)
    (q : HttpParser) (h : Tracks word stage member name q) :
    q.headerState = final ↔ name = word := by
  rcases h with ⟨hp, hs, _⟩ | ⟨hp, hm⟩
  · rw [hs, hstage _ hp.length_le]
    exact ⟨fun hlen => hp.eq_of_length hlen, fun heq => congrArg List.length heq⟩
  · -- A name that has left the word is not the word.
    constructor
    · intro hq
      rw [hq, hfinal] at hm
      exact absurd hm.symm Bool.false_ne_true
    · intro heq
      rw [heq] at hp
      exact absurd (List.prefix_refl word) hp

/-- How far the comparison with `content-length` is. -/
def lengthStage (k : Nat) : HeaderState :=
  if k = 1 then .c
  else if k = 2 then .co
  else if k = 3 then .con
  else if k < 14 then .matchingContentLength
  else .contentLength

def lengthMember : HeaderState → Bool
  | .c | .co | .con | .matchingContentLength | .contentLength => true
  | _ => false

/-- How far the comparison with `transfer-encoding` is. -/
def codingStage (k : Nat) : HeaderState :=
  if k < 17 then .matchingTransferEncoding else .transferEncoding

def codingMember : HeaderState → Bool
  | .matchingTransferEncoding | .transferEncoding => true
  | _ => false

/-- Comparing one more character of a word, before its end. -/
theorem matching_eq (word : Bytes) (q : HttpParser) (c : Byte) (k : Nat)
    (found mismatch : HeaderState) (hk : k < word.length) (hi : q.index + 1 = k) :
    matching q word c found mismatch =
      { q with
        index := k
        headerState :=
          if c = word.getD k 0 then if k + 1 < word.length then q.headerState else found
          else mismatch } := by
  unfold matching
  dsimp only
  rw [hi]
  by_cases hc : c = word.getD k 0
  · have hcond : ¬ (decide (k > word.length) || decide (c ≠ word.getD k 0)) = true := by
      simp only [hc, ne_eq, not_true_eq_false, decide_false, Bool.or_false, decide_eq_true_eq]
      omega
    rw [if_neg hcond, if_pos hc]
    -- The state changes with the last character of the word, not before.
    by_cases hlast : k = word.length - 1
    · rw [if_pos hlast, if_neg (by omega)]
    · rw [if_neg hlast, if_pos (by omega)]
  · have hcond : (decide (k > word.length) || decide (c ≠ word.getD k 0)) = true := by
      simp only [ne_eq, hc, not_false_eq_true, decide_true, Bool.or_true]
    rw [if_pos hcond, if_neg hc]

/-- One more character of a name that is compared in one state. -/
theorem matching_on (word : Bytes) (member : HeaderState → Bool) (hm : member .general = false)
    (q : HttpParser) (ch : Byte) (k : Nat) (found : HeaderState) (hk : k < word.length)
    (hi : q.index + 1 = k)
    (hchar : headerFieldChar q ch (tokens ch) = matching q word (tokens ch) found .general) :
    if k < word.length ∧ tokens ch = word.getD k 0 then
      (headerFieldChar q ch (tokens ch)).headerState =
          (if k + 1 < word.length then q.headerState else found) ∧
        (headerFieldChar q ch (tokens ch)).index + 1 = k + 1
    else tokens ch ≠ 0 → member (headerFieldChar q ch (tokens ch)).headerState = false := by
  rw [hchar, matching_eq word q _ k _ _ hk hi]
  by_cases hc : tokens ch = word.getD k 0
  · rw [if_pos ⟨hk, hc⟩, if_pos hc]
    exact ⟨rfl, rfl⟩
  · rw [if_neg (fun h => hc h.2), if_neg hc]
    exact fun _ => hm

theorem matching_member (word : Bytes) (q : HttpParser) (c : Byte) (found mismatch : HeaderState)
    (member : HeaderState → Bool) (hq : member q.headerState = false)
    (hf : member found = false) (hm : member mismatch = false) :
    member (matching q word c found mismatch).headerState = false := by
  unfold matching
  dsimp only
  split_ifs
  · exact hm
  · exact hf
  · exact hq

theorem codingWord : Word TRANSFER_ENCODING codingStage codingMember where
  on q ch k hk hle hs hi := by
    have hlen : TRANSFER_ENCODING.length = 17 := by decide
    rw [hlen] at hle
    unfold codingStage at hs ⊢
    by_cases hlt : k < 17
    · rw [if_pos hlt] at hs
      -- Before its end the word is compared in one state.
      have hstep := matching_on TRANSFER_ENCODING codingMember rfl q ch k .transferEncoding
        (by omega) hi (by unfold headerFieldChar; rw [hs])
      rw [hs, hlen] at hstep
      rw [hlen]
      exact hstep
    · rw [if_neg hlt] at hs
      rw [if_neg (fun h => hlt (hlen ▸ h.1))]
      -- After it any character but a space makes the name another one.
      intro hch
      unfold headerFieldChar
      rw [hs]
      dsimp only
      rw [if_pos (token_not_end ch hch).2.2]
      rfl
  off q ch hq := by
    unfold headerFieldChar
    cases hs : q.headerState with
    | matchingConnection | matchingProxyConnection | matchingContentLength | matchingUpgrade =>
        exact matching_member _ q _ _ _ codingMember hq rfl rfl
    | matchingTransferEncoding | transferEncoding =>
        rw [hs] at hq
        exact absurd hq.symm Bool.false_ne_true
    | c | co | con | connection | contentLength | upgrade =>
        dsimp only
        split_ifs
        all_goals first
          | rfl
          | exact hq
    | _ => exact hq

theorem lengthWord : Word CONTENT_LENGTH lengthStage lengthMember where
  on q ch k hk hle hs hi := by
    have hlen : CONTENT_LENGTH.length = 14 := by decide
    rw [hlen] at hle ⊢
    by_cases hearly : k < 4
    · -- The first characters are shared with other words.
      have hcases : k = 1 ∨ k = 2 ∨ k = 3 := by omega
      unfold headerFieldChar
      rcases hcases with rfl | rfl | rfl
      · rw [show q.headerState = .c from hs,
          show CONTENT_LENGTH.getD 1 0 = 'o'.toUInt8 by decide]
        by_cases hc : tokens ch = 'o'.toUInt8
        · rw [if_pos ⟨by omega, hc⟩]
          exact ⟨if_pos hc, congrArg Nat.succ hi⟩
        · rw [if_neg (fun h => hc h.2)]
          dsimp only
          rw [if_neg hc]
          exact fun _ => rfl
      · rw [show q.headerState = .co from hs,
          show CONTENT_LENGTH.getD 2 0 = 'n'.toUInt8 by decide]
        by_cases hc : tokens ch = 'n'.toUInt8
        · rw [if_pos ⟨by omega, hc⟩]
          exact ⟨if_pos hc, congrArg Nat.succ hi⟩
        · rw [if_neg (fun h => hc h.2)]
          dsimp only
          rw [if_neg hc]
          exact fun _ => rfl
      · rw [show q.headerState = .con from hs,
          show CONTENT_LENGTH.getD 3 0 = 't'.toUInt8 by decide]
        dsimp only
        by_cases hc : tokens ch = 't'.toUInt8
        · rw [if_pos ⟨by omega, hc⟩, hc, if_neg (by decide), if_pos rfl]
          exact ⟨rfl, congrArg Nat.succ hi⟩
        · rw [if_neg (fun h => hc h.2), if_neg hc]
          split_ifs <;> exact fun _ => rfl
    · -- From the fourth on it is the only word left.
      have hstage : lengthStage (k + 1) =
          if k + 1 < 14 then .matchingContentLength else .contentLength := by
        rw [lengthStage, if_neg (by omega), if_neg (by omega), if_neg (by omega)]
      rw [lengthStage, if_neg (by omega), if_neg (by omega), if_neg (by omega)] at hs
      rw [hstage]
      by_cases hlt : k < 14
      · rw [if_pos hlt] at hs
        have hstep := matching_on CONTENT_LENGTH lengthMember rfl q ch k .contentLength
          (by omega) hi (by unfold headerFieldChar; rw [hs])
        rw [hs, hlen] at hstep
        exact hstep
      · rw [if_neg hlt] at hs
        rw [if_neg (fun h => hlt h.1)]
        intro hch
        unfold headerFieldChar
        rw [hs]
        dsimp only
        rw [if_pos (token_not_end ch hch).2.2]
        rfl
  off q ch hq := by
    unfold headerFieldChar
    cases hs : q.headerState with
    | matchingConnection | matchingProxyConnection | matchingTransferEncoding | matchingUpgrade =>
        exact matching_member _ q _ _ _ lengthMember hq rfl rfl
    | c | co | con | matchingContentLength | contentLength =>
        rw [hs] at hq
        exact absurd hq.symm Bool.false_ne_true
    | connection | transferEncoding | upgrade =>
        dsimp only
        split_ifs
        all_goals first
          | rfl
          | exact hq
    | _ => exact hq

/-! ### Names -/

/-- The states that belong to a transfer coding, which no name leads to. -/
def codingValue : HeaderState → Bool
  | .matchingTransferEncodingChunked | .transferEncodingChunked => true
  | _ => false

theorem headerFieldChar_named (q : HttpParser) (ch c : Byte)
    (h : codingValue q.headerState = false) :
    codingValue (headerFieldChar q ch c).headerState = false := by
  unfold headerFieldChar
  cases hs : q.headerState with
  | matchingConnection | matchingProxyConnection | matchingContentLength
  | matchingTransferEncoding | matchingUpgrade =>
      exact matching_member _ q _ _ _ codingValue h rfl rfl
  | c | co | con | connection | contentLength | transferEncoding | upgrade =>
      dsimp only
      split_ifs
      all_goals first
        | rfl
        | exact h
  | _ => exact h

/-- The parser after the first character of a name. -/
def nameStart (q : HttpParser) (c : Byte) : HttpParser :=
  { q with
    state := .headerField
    index := 0
    headerState :=
      if c = 'c'.toUInt8 then .c
      else if c = 'p'.toUInt8 then .matchingProxyConnection
      else if c = 't'.toUInt8 then .matchingTransferEncoding
      else if c = 'u'.toUInt8 then .matchingUpgrade
      else .general }

theorem reads_nameStart (q : HttpParser) (ch : Byte) (hq : AtLine q) (hok : q.httpErrno = .ok)
    (hch : isTokenChar ch = true) : Reads q [ch] (nameStart (lineStart q) (tokens ch)) 1 := by
  rcases tokens_of_token ch hch with ⟨_, hne, hblank⟩
  rcases token_not_end ch hne with ⟨hcr, hlf, _⟩
  rcases byteStep_atLine q ch hq hblank with ⟨pre, hpre, hstep⟩
  refine reads_single q _ ch (pre ++ [.mark .headerField]) hok ?_ (atLine_header q hq).1
    (fun _ => (atLine_header q hq).2) (fun n _ => hpre 0 _ n)
  rw [hstep, headerFieldStart, if_neg hcr, if_neg hlf, if_neg hne]
  rfl

/-- The first character is the beginning of a word or is not. -/
theorem tracks_nameStart (q : HttpParser) (c : Byte) :
    Tracks CONTENT_LENGTH lengthStage lengthMember [c] (nameStart q c) ∧
      Tracks TRANSFER_ENCODING codingStage codingMember [c] (nameStart q c) ∧
        codingValue (nameStart q c).headerState = false := by
  have hlength := isPrefix_snoc [] CONTENT_LENGTH c
  have hcoding := isPrefix_snoc [] TRANSFER_ENCODING c
  rw [List.nil_append] at hlength hcoding
  unfold Tracks
  rw [hlength, hcoding, show CONTENT_LENGTH.getD ([] : Bytes).length 0 = 'c'.toUInt8 by decide,
    show TRANSFER_ENCODING.getD ([] : Bytes).length 0 = 't'.toUInt8 by decide]
  unfold nameStart
  dsimp only
  by_cases hc : c = 'c'.toUInt8
  · rw [if_pos hc, hc]
    refine ⟨Or.inl ⟨⟨List.nil_prefix, by decide, rfl⟩, rfl, rfl⟩, Or.inr ⟨?_, rfl⟩, rfl⟩
    exact fun h => absurd h.2.2 (by decide)
  · rw [if_neg hc]
    refine ⟨Or.inr ⟨fun h => hc h.2.2, ?_⟩, ?_, ?_⟩
    · split_ifs <;> rfl
    · by_cases ht : c = 't'.toUInt8
      · rw [ht, if_neg (by decide), if_pos rfl]
        exact Or.inl ⟨⟨List.nil_prefix, by decide, rfl⟩, rfl, rfl⟩
      · rw [if_neg ht]
        refine Or.inr ⟨fun h => ht h.2.2, ?_⟩
        split_ifs <;> rfl
    · split_ifs <;> rfl

/-- The parser after part of a name. -/
structure Naming (f : Facts) (part : Bytes) (q : HttpParser) : Prop where
  state : q.state = .headerField
  facts : facts q = f
  value : codingValue q.headerState = false
  started : 1 ≤ part.length
  length : Tracks CONTENT_LENGTH lengthStage lengthMember (part.map lowerCase) q
  coding : Tracks TRANSFER_ENCODING codingStage codingMember (part.map lowerCase) q

/-- One more character of a name is read inside a loop. -/
theorem reads_nameChar (f : Facts) (hok : f.errno = .ok) (part : Bytes) (q : HttpParser)
    (ch : Byte) (h : Naming f part q) (hch : isTokenChar ch = true) :
    ∃ q', Reads q [ch] q' 2 ∧ Naming f (part ++ [ch]) q' := by
  rcases tokens_of_token ch hch with ⟨hlower, hne, _⟩
  have hstate := headerFieldChar_state q ch (tokens ch)
  have hstep : byteStep q none ch = ⟨headerFieldChar q ch (tokens ch), [], .next, none⟩ := by
    unfold byteStep
    rw [h.state]
    exact if_pos hne
  -- The words are compared with the name in lower case, as `tokens` gives it.
  have hstarted : 1 ≤ (part.map lowerCase).length := by
    rw [List.length_map]
    exact h.started
  have hparts : (part ++ [ch]).map lowerCase = part.map lowerCase ++ [tokens ch] := by
    rw [List.map_append, hlower]
    rfl
  refine ⟨headerFieldChar q ch (tokens ch), reads_inside q _ ch none ?_ hstep hstate ?_ ?_,
    hstate.trans h.state, (headerFieldChar_facts q ch _).trans h.facts,
    headerFieldChar_named q ch _ h.value, ?_, ?_, ?_⟩
  · exact (congrArg Facts.errno h.facts).trans hok
  · rw [h.state]
    rfl
  · rw [headerByte, h.state]
    rfl
  · rw [List.length_append]
    exact Nat.le_add_right_of_le h.started
  · rw [hparts]
    exact tracks_char _ _ _ lengthWord _ q ch hstarted hne h.length
  · rw [hparts]
    exact tracks_char _ _ _ codingWord _ q ch hstarted hne h.coding

/-- The parser after the name of a field and its colon. It looks for a length
    or for transfer codings if and only if that is the name. -/
structure Named (fd : Field) (f : Facts) (q : HttpParser) : Prop where
  state : q.state = .headerValueDiscardWs
  facts : facts q = f
  value : codingValue q.headerState = false
  length : q.headerState = .contentLength ↔ fd.isContentLength = true
  coding : q.headerState = .transferEncoding ↔ fd.isTransferEncoding = true

/-- The parser past the colon of a whole name. -/
theorem named_of_naming (f : Facts) (q : HttpParser) (fd : Field) (h : Naming f fd.name q) :
    Named fd f { q with state := .headerValueDiscardWs } := by
  refine ⟨rfl, h.facts, h.value, ?_, ?_⟩
  · unfold Field.isContentLength Field.isNamed
    rw [decide_eq_true_eq]
    refine tracks_final _ _ _ .contentLength rfl (fun k hk => ?_) _ q h.length
    -- Only the last stage is the state in which a length is seen.
    have hlen : CONTENT_LENGTH.length = 14 := by decide
    unfold lengthStage
    split_ifs <;> simp only [false_iff, true_iff] <;> omega
  · unfold Field.isTransferEncoding Field.isNamed
    rw [decide_eq_true_eq]
    refine tracks_final _ _ _ .transferEncoding rfl (fun k hk => ?_) _ q h.coding
    have hlen : TRANSFER_ENCODING.length = 17 := by decide
    unfold codingStage
    split_ifs <;> simp only [false_iff, true_iff] <;> omega

/-- A name and its colon. -/
theorem reads_name (q : HttpParser) (fd : Field) (hq : AtLine q) (hok : q.httpErrno = .ok) :
    ∃ q', Reads q (fd.name ++ [COLON]) q' (2 * fd.name.length) ∧
      Named fd (facts (lineStart q)) q' := by
  have htoken := fd.token
  have hnamed := fd.named
  cases hname : fd.name with
  | nil =>
      rw [hname] at hnamed
      exact absurd hnamed.symm Bool.false_ne_true
  | cons ch more =>
      rw [hname, List.all_cons, Bool.and_eq_true] at htoken
      -- What is finished before the name is the field of the line before.
      have herr : (facts (lineStart q)).errno = .ok := by
        unfold lineStart
        split_ifs
        · exact hok
        · exact (errno_of_kept _ _ (finishHeader_kept q)).trans hok
      rcases tracks_nameStart (lineStart q) (tokens ch) with ⟨hlength, hcoding, hvalue⟩
      have hlower : [tokens ch] = [ch].map lowerCase := by
        rw [(tokens_of_token ch htoken.1).1]
        rfl
      rw [hlower] at hlength hcoding
      rcases reads_loop (Naming (facts (lineStart q))) isTokenChar 2
        (reads_nameChar (facts (lineStart q)) herr) more [ch]
        (nameStart (lineStart q) (tokens ch))
        ⟨rfl, rfl, hvalue, Nat.le_refl 1, hlength, hcoding⟩ htoken.2 with ⟨p, hrest, hp⟩
      -- The colon ends the pass through the loop, and what it counts is nothing.
      have hcolon : Reads p [COLON] { p with state := .headerValueDiscardWs } 1 := by
        refine reads_single p _ COLON [.count, .emit .headerField] ?_ ?_ ?_ ?_ ?_
        · exact (congrArg Facts.errno hp.facts).trans herr
        · unfold byteStep
          rw [hp.state]
          rfl
        · rw [headerByte, hp.state]
          rfl
        · intro h
          exact absurd (h.trans hp.state) State.noConfusion
        · intro n hn
          exact if_neg (Nat.not_lt.mpr hn)
      refine ⟨{ p with state := .headerValueDiscardWs }, ?_, named_of_naming _ p fd ?_⟩
      · have hall := reads_append _ _ _ _ _ _ _
          (reads_append _ _ _ _ _ _ _ (reads_nameStart q ch hq hok htoken.1) hrest) hcolon
        have hcost : 1 + 2 * more.length + 1 = 2 * (ch :: more).length := by
          rw [List.length_cons]
          omega
        rw [hcost] at hall
        exact hall
      · rw [hname]
        exact hp

end HttpParser

end Wrk
