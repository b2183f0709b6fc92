import Wrk.HttpParser.Deliver
import Wrk.HttpParser.Frame

/-!
# What a Text Costs

What the parser does with a text that comes one byte at a time, and how much
of the header limit it uses up. A byte outside the loops for names and values
is counted once, a byte inside one of them twice: it is the first of its chunk
and the last of its pass. So a text has a cost, and it is read if and only if
the count does not pass the limit.

The count starts again after a head, a chunk and the line of a chunk. A text
that ends in such a byte leaves nothing counted.

## Main definitions

* `Reads`: A text is read at a cost.
* `Clears`: A text is read at a cost and leaves nothing counted.
* `Rejects`: A text is not read.
* `CompletedFrom`: A text is read, and a further byte completes the message.

## Theorems

* `reads_byte`, `clears_byte`, `rejects_byte`: One byte.
* `reads_append`, `reads_clears`, `reads_rejects`: Texts one after the other.
* `completedFrom_reads`: The last byte of a message.
* `completedFrom_append`, `completedFrom_clears`: What comes before it.
-/

namespace Wrk

namespace HttpParser

/-- The text takes one parser to another at a cost, whatever was counted
    before. -/
def Reads (q : HttpParser) (data : Bytes) (q' : HttpParser) (c : Nat) : Prop :=
  ∀ n, n ≤ httpMaxHeaderSize → bytewise (counted n q) data =
    if n + c ≤ httpMaxHeaderSize then some (counted (n + c) q', 0) else none

/-- The text takes one parser to another, and the count is cleared by its last
    byte. -/
def Clears (q : HttpParser) (data : Bytes) (q' : HttpParser) (c : Nat) : Prop :=
  ∀ n, n ≤ httpMaxHeaderSize → bytewise (counted n q) data =
    if n + c ≤ httpMaxHeaderSize then some (counted 0 q', 0) else none

/-- The parser objects to the text. -/
def Rejects (q : HttpParser) (data : Bytes) : Prop :=
  ∀ n, n ≤ httpMaxHeaderSize → bytewise (counted n q) data = none

/-- The text is read from here, and one more byte completes the message. -/
def CompletedFrom (q : HttpParser) (data : Bytes) (ch : Byte) : Prop :=
  ∃ q' exit, bytewise q data = some (q', 0) ∧ countByte q' none ≤ httpMaxHeaderSize ∧
    (byteStep q' none ch).verdict = .complete exit

@[simp] theorem counted_state (n : Nat) (q : HttpParser) : (counted n q).state = q.state := rfl

@[simp] theorem counted_nread (n : Nat) (q : HttpParser) : (counted n q).nread = n := rfl

/-! ### One byte -/

/-- What reading a byte outside the loops counts. -/
def headerByte (q : HttpParser) : Nat := if q.state.parsingHeader then 1 else 0

theorem countByte_counted (n : Nat) (q : HttpParser) :
    countByte (counted n q) none = n + headerByte q := by
  unfold countByte headerByte
  rw [Option.isNone_none, Bool.true_and]
  rfl

/-- A byte on its own that the parser reads. -/
theorem alone_next (q : HttpParser) (ch : Byte) (m : Nat) (hok : q.httpErrno = .ok)
    (hn : countByte q none ≤ httpMaxHeaderSize) (hv : (byteStep q none ch).verdict = .next)
    (hm : countOps 0 (byteStep q none ch).ops (countByte q none) = some m)
    (hle : m + (if staysInside q (byteStep q none ch) then 1 else 0) ≤ httpMaxHeaderSize) :
    alone q ch = some (counted (m + if staysInside q (byteStep q none ch) then 1 else 0)
      (byteStep q none ch).parser, 0) := by
  -- The byte is the first of its chunk and the last: the pass it begins ends with it.
  rcases byte_reading collect (fun done => done = []) (collect_data []) ch (Exec.start q []) q
    none 0 m ⟨rfl, rfl, rfl, rfl, rfl⟩ hn hm with ⟨z, hz, hbyte⟩
  change (Exec.start q []).byte collect ch =
    z.finish collect ch q.state (byteStep q none ch) at hbyte
  have hread := (finish_next collect _ ch q.state (byteStep q none ch) z _ none 0 hz hv).1
  -- What the end of the chunk counts is that pass.
  have hspan : m + (if decide (q.state = (byteStep q none ch).parser.state) &&
      Exec.spanState q.state then some (0 + 1) else none).getD 0 =
        m + if staysInside q (byteStep q none ch) then 1 else 0 := by
    unfold staysInside
    split_ifs <;> rfl
  rcases endChunk_reading collect (fun done => done = []) (collect_data []) _ _ _ _ hread
    (by
      change m + _ ≤ _
      exact hspan ▸ hle) with ⟨hret, hparser, huser⟩
  have hexec : execute collect q [] [ch] =
      (counted (m + if staysInside q (byteStep q none ch) then 1 else 0)
        (byteStep q none ch).parser, [], 1) := by
    unfold execute
    rw [if_neg (not_not.mpr hok), if_neg (List.cons_ne_nil ch [])]
    dsimp only [Exec.feed, List.foldl_cons, List.foldl_nil]
    rw [hbyte, hret, hparser, huser]
    refine Prod.ext ?_ rfl
    exact congrArg (fun k => counted k (byteStep q none ch).parser) hspan
  unfold alone
  dsimp only
  rw [hexec, if_pos ⟨rfl, (byteStep_errno q none ch).trans hok, rfl⟩]
  rfl

/-- What reading a byte counts: the byte itself, and its pass if the byte is
    inside a loop. -/
def byteCost (q : HttpParser) (ch : Byte) : Nat :=
  headerByte q + if staysInside q (byteStep q none ch) then 1 else 0

/-- A byte after which the next one is read. -/
theorem reads_byte (q : HttpParser) (ch : Byte) (hok : q.httpErrno = .ok)
    (hv : (byteStep q none ch).verdict = .next)
    (hops : ∀ n, n ≤ httpMaxHeaderSize → countOps 0 (byteStep q none ch).ops n = some n) :
    Reads q [ch] (byteStep q none ch).parser (byteCost q ch) := by
  intro n hn
  have hstep : byteStep (counted n q) none ch = (byteStep q none ch).counted n :=
    byteStep_counted n q none ch
  have hcount := countByte_counted n q
  have hinside : staysInside (counted n q) ((byteStep q none ch).counted n) =
      staysInside q (byteStep q none ch) := rfl
  have hcost : byteCost q ch =
    headerByte q + if staysInside q (byteStep q none ch) then 1 else 0 := rfl
  simp only [bytewise]
  by_cases hle : n + byteCost q ch ≤ httpMaxHeaderSize
  · have hone := alone_next (counted n q) ch (n + headerByte q) hok (by omega)
      (by rw [hstep]; exact hv) (by rw [hstep, hcount]; exact hops _ (by omega))
      (by rw [hstep, hinside]; omega)
    rw [if_pos hle, hone, hstep, hinside, hcost, ← Nat.add_assoc]
    rfl
  · rw [if_neg hle]
    -- Had the byte been read on its own, its cost would have fitted.
    cases hone : alone (counted n q) ch with
    | none => rfl
    | some x =>
        exfalso
        rcases alone_cases (counted n q) x.1 ch x.2 hn hone with
          ⟨_, hc, m, hm, ⟨_, _, hx, hx'⟩ | ⟨exit, hexit, _⟩⟩
        · rw [hstep] at hm hx
          rw [hcount] at hc hm
          rw [show ((byteStep q none ch).counted n).ops = (byteStep q none ch).ops from rfl,
            hops _ hc, Option.some.injEq] at hm
          rw [hx, hinside] at hx'
          rw [counted_nread] at hx'
          omega
        · rw [hstep] at hexit
          exact Verdict.noConfusion (hv.symm.trans hexit)

/-- A byte outside the loops after which the count starts again. -/
theorem clears_byte (q : HttpParser) (ch : Byte) (hok : q.httpErrno = .ok)
    (hv : (byteStep q none ch).verdict = .next) (hspan : Exec.spanState q.state = false)
    (hops : ∀ n, countOps 0 (byteStep q none ch).ops n = some 0) :
    Clears q [ch] (byteStep q none ch).parser (headerByte q) := by
  intro n hn
  have hstep : byteStep (counted n q) none ch = (byteStep q none ch).counted n :=
    byteStep_counted n q none ch
  have hcount := countByte_counted n q
  have hout : staysInside (counted n q) (byteStep (counted n q) none ch) = false := by
    unfold staysInside
    rw [counted_state, hspan, Bool.and_false]
  simp only [bytewise]
  split_ifs with hle
  · have hone := alone_next (counted n q) ch 0 hok (by omega) (by rw [hstep]; exact hv)
      (by rw [hstep]; exact hops _) (by rw [hout]; exact Nat.zero_le _)
    rw [hone, hout, hstep]
    rfl
  · -- The count is checked before it is cleared.
    cases hone : alone (counted n q) ch with
    | none => rfl
    | some x =>
        rcases alone_cases (counted n q) x.1 ch x.2 hn hone with ⟨_, hc, _⟩
        omega

/-- A byte that the parser objects to. -/
theorem rejects_byte (q : HttpParser) (ch : Byte) (e : HttpErrno)
    (hv : (byteStep q none ch).verdict = .fail e) : Rejects q [ch] := by
  intro n hn
  have hstep : byteStep (counted n q) none ch = (byteStep q none ch).counted n :=
    byteStep_counted n q none ch
  simp only [bytewise]
  cases hone : alone (counted n q) ch with
  | none => rfl
  | some x =>
      exfalso
      -- A byte that is read has another verdict.
      rcases alone_cases (counted n q) x.1 ch x.2 hn hone with
        ⟨_, _, m, _, ⟨hnext, _⟩ | ⟨exit, hexit, _⟩⟩
      · rw [hstep] at hnext
        exact Verdict.noConfusion (hv.symm.trans hnext)
      · rw [hstep] at hexit
        exact Verdict.noConfusion (hv.symm.trans hexit)

/-! ### Texts one after the other -/

variable (q q1 q2 : HttpParser) (a b : Bytes) (c d : Nat)

theorem reads_nil : Reads q [] q 0 := by
  intro n hn
  rw [Nat.add_zero, if_pos hn]
  rfl

/-- A text is read in two parts, of which the first has a cost. -/
theorem bytewise_reads (h : Reads q a q1 c) (n : Nat) (hn : n ≤ httpMaxHeaderSize) :
    bytewise (counted n q) (a ++ b) =
      if n + c ≤ httpMaxHeaderSize then bytewise (counted (n + c) q1) b else none := by
  have ha := h n hn
  split_ifs at ha ⊢ with hle
  · rw [bytewise_append _ _ a b 0 ha]
    simp only [Nat.zero_add, Option.map_id']
  · exact bytewise_none _ a b ha

theorem bytewise_clears (h : Clears q a q1 c) (n : Nat) (hn : n ≤ httpMaxHeaderSize) :
    bytewise (counted n q) (a ++ b) =
      if n + c ≤ httpMaxHeaderSize then bytewise (counted 0 q1) b else none := by
  have ha := h n hn
  split_ifs at ha ⊢ with hle
  · rw [bytewise_append _ _ a b 0 ha]
    simp only [Nat.zero_add, Option.map_id']
  · exact bytewise_none _ a b ha

theorem reads_append (ha : Reads q a q1 c) (hb : Reads q1 b q2 d) :
    Reads q (a ++ b) q2 (c + d) := by
  intro n hn
  rw [bytewise_reads q q1 a b c ha n hn]
  by_cases hc : n + c ≤ httpMaxHeaderSize
  · rw [if_pos hc, hb _ hc, Nat.add_assoc]
  · rw [if_neg hc, if_neg (by omega)]

theorem reads_clears (ha : Reads q a q1 c) (hb : Clears q1 b q2 d) :
    Clears q (a ++ b) q2 (c + d) := by
  intro n hn
  rw [bytewise_reads q q1 a b c ha n hn]
  by_cases hc : n + c ≤ httpMaxHeaderSize
  · rw [if_pos hc, hb _ hc, Nat.add_assoc]
  · rw [if_neg hc, if_neg (by omega)]

theorem reads_rejects (ha : Reads q a q1 c) (hb : Rejects q1 b) : Rejects q (a ++ b) := by
  intro n hn
  rw [bytewise_reads q q1 a b c ha n hn]
  split_ifs with hc
  · exact hb _ hc
  · rfl

/-- Whatever follows, a text the parser objects to is not read. -/
theorem rejects_append (h : Rejects q a) : Rejects q (a ++ b) :=
  fun n hn => bytewise_none _ a b (h n hn)

/-! ### The last byte -/

theorem completedFrom_reads (ch : Byte) (n : Nat) (hn : n ≤ httpMaxHeaderSize)
    (h : Reads q a q1 c) :
    CompletedFrom (counted n q) a ch ↔ n + c + headerByte q1 ≤ httpMaxHeaderSize ∧
      ∃ exit, (byteStep q1 none ch).verdict = .complete exit := by
  have ha := h n hn
  have hverdict : (byteStep (counted (n + c) q1) none ch).verdict =
      (byteStep q1 none ch).verdict := by
    rw [byteStep_counted]
    rfl
  unfold CompletedFrom
  rw [ha]
  constructor
  · rintro ⟨q', exit, hq, hle, hv⟩
    split_ifs at hq with hc
    rw [Option.some.injEq, Prod.mk.injEq] at hq
    rw [← hq.1] at hle hv
    rw [countByte_counted] at hle
    rw [hverdict] at hv
    exact ⟨hle, exit, hv⟩
  · rintro ⟨hle, exit, hv⟩
    refine ⟨counted (n + c) q1, exit, if_pos (by omega), ?_, ?_⟩
    · rw [countByte_counted]
      exact hle
    · rw [hverdict]
      exact hv

theorem completedFrom_append (ch : Byte) (n : Nat) (hn : n ≤ httpMaxHeaderSize)
    (h : Reads q a q1 c) :
    CompletedFrom (counted n q) (a ++ b) ch ↔
      n + c ≤ httpMaxHeaderSize ∧ CompletedFrom (counted (n + c) q1) b ch := by
  unfold CompletedFrom
  rw [bytewise_reads q q1 a b c h n hn]
  by_cases hc : n + c ≤ httpMaxHeaderSize
  · rw [if_pos hc]
    exact ⟨fun h => ⟨hc, h⟩, fun h => h.2⟩
  · rw [if_neg hc]
    exact ⟨fun ⟨_, _, hq, _⟩ => absurd hq.symm (Option.some_ne_none _), fun h => absurd h.1 hc⟩

theorem completedFrom_clears (ch : Byte) (n : Nat) (hn : n ≤ httpMaxHeaderSize)
    (h : Clears q a q1 c) :
    CompletedFrom (counted n q) (a ++ b) ch ↔
      n + c ≤ httpMaxHeaderSize ∧ CompletedFrom (counted 0 q1) b ch := by
  unfold CompletedFrom
  rw [bytewise_clears q q1 a b c h n hn]
  by_cases hc : n + c ≤ httpMaxHeaderSize
  · rw [if_pos hc]
    exact ⟨fun h => ⟨hc, h⟩, fun h => h.2⟩
  · rw [if_neg hc]
    exact ⟨fun ⟨_, _, hq, _⟩ => absurd hq.symm (Option.some_ne_none _), fun h => absurd h.1 hc⟩

theorem not_completedFrom_rejects (ch : Byte) (n : Nat) (hn : n ≤ httpMaxHeaderSize)
    (h : Rejects q a) : ¬ CompletedFrom (counted n q) a ch := by
  rintro ⟨q', exit, hq, _⟩
  rw [h n hn] at hq
  exact absurd hq.symm (Option.some_ne_none _)

end HttpParser

end Wrk
