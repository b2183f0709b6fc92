import Wrk.HttpParser.Count
import Wrk.HttpParser.Rule

/-!
# Splitting a Stream

A stream of responses reaches the parser in chunks. Where they end matters to
the header count, to jumps to the end of a line and to what the data
callbacks are given, but not to which messages complete, as long as the
parser accepts the stream one byte at a time. That is the split that counts
the most header bytes and makes no jumps.

The proof runs the parser on a chunk against the parser that gets the same
bytes one at a time. The two differ in their counts only, and the first is
never ahead.

## Main definitions

* `alone`, `bytewise`: A byte as a chunk of its own, and a stream of them.
* `isResponse`: One final message after which the connection is kept.
* `Completes`: What callbacks keep, by the number of messages to come.
* `Trails`: A parser against one that gets the same bytes one at a time.

## Theorems

* `bytewise_keeps`: The induction rule for a stream.
* `bytewise_append`, `bytewise_split`: A stream is read in parts.
* `alone_cases`: What a byte on its own does.
* `byte_behind`: What it does in the middle of a chunk.
* `execute_bytewise`: The rule for a chunk.
-/

namespace Wrk

namespace HttpParser

/-- Callbacks that collect the messages that complete. -/
def collect : Settings (List HttpParser) :=
  { onHeaderField := fun _ done => done
    onHeaderValue := fun _ done => done
    onBody := fun _ done => done
    onMessageComplete := fun q done =>
      (if httpShouldKeepAlive q then httpParserInit else q, q :: done) }

/-- A message that is not interim, and after which the connection is kept. -/
def final (q : HttpParser) : Bool := httpShouldKeepAlive q && decide (200 ≤ q.statusCode)

/-- A byte that comes as a chunk of its own: the parser afterwards, and how
    many messages completed. There is no result if the parser objects, or if a
    message completes that is not final. -/
def alone (q : HttpParser) (ch : Byte) : Option (HttpParser × Nat) :=
  let x := execute collect q [] [ch]
  if x.2.2 = 1 ∧ x.1.httpErrno = .ok ∧ x.2.1.all final then some (x.1, x.2.1.length) else none

/-- Bytes that come one at a time. -/
def bytewise (q : HttpParser) : Bytes → Option (HttpParser × Nat)
  | [] => some (q, 0)
  | ch :: data =>
      match alone q ch with
      | none => none
      | some (q', k) => (bytewise q' data).map (fun x => (x.1, k + x.2))

/-- A response is one message, if it comes one byte at a time. -/
def isResponse (text : Bytes) : Bool := bytewise httpParserInit text = some (httpParserInit, 1)

theorem bytewise_nil (q q' : HttpParser) (k : Nat) (h : bytewise q [] = some (q', k)) :
    q = q' ∧ k = 0 := by
  simp only [bytewise, Option.some.injEq, Prod.mk.injEq] at h
  exact ⟨h.1, h.2.symm⟩

/-- A stream is accepted if its first byte is, and then the others are. -/
theorem bytewise_cons (q q' : HttpParser) (ch : Byte) (data : Bytes) (k : Nat)
    (h : bytewise q (ch :: data) = some (q', k)) :
    ∃ q1 k1 k2, alone q ch = some (q1, k1) ∧ bytewise q1 data = some (q', k2) ∧
      k = k1 + k2 := by
  simp only [bytewise] at h
  cases hone : alone q ch with
  | none => simp only [hone, reduceCtorEq] at h
  | some x =>
      rcases x with ⟨q1, k1⟩
      simp only [hone, Option.map_eq_some_iff, Prod.mk.injEq] at h
      rcases h with ⟨⟨q2, k2⟩, hrest, rfl, hk⟩
      exact ⟨q1, k1, k2, rfl, hrest, hk.symm⟩

/-- What every byte keeps, with the number of messages that have completed so
    far, holds at the end of the stream. -/
theorem bytewise_keeps (P : HttpParser → Nat → Prop)
    (hstep : ∀ q q' ch n k, alone q ch = some (q', k) → P q n → P q' (n + k))
    (q q' : HttpParser) (data : Bytes) (n k : Nat) (h : bytewise q data = some (q', k))
    (hP : P q n) : P q' (n + k) := by
  induction data generalizing q n k with
  | nil =>
      rcases bytewise_nil q q' k h with ⟨rfl, rfl⟩
      exact hP
  | cons ch data ih =>
      rcases bytewise_cons q q' ch data k h with ⟨q1, k1, k2, hone, hrest, rfl⟩
      have hP1 : P q1 (n + k1) := hstep q q1 ch n k1 hone hP
      have hP2 : P q' (n + k1 + k2) := ih q1 (n + k1) k2 hrest hP1
      rw [← Nat.add_assoc]
      exact hP2

theorem bytewise_append (q q' : HttpParser) (a b : Bytes) (k : Nat)
    (h : bytewise q a = some (q', k)) :
    bytewise q (a ++ b) = (bytewise q' b).map (fun x => (x.1, k + x.2)) := by
  induction a generalizing q k with
  | nil =>
      rcases bytewise_nil q q' k h with ⟨rfl, rfl⟩
      simp only [List.nil_append, Nat.zero_add, Option.map_id']
  | cons ch a ih =>
      rcases bytewise_cons q q' ch a k h with ⟨q1, k1, k2, hone, hrest, rfl⟩
      simp only [bytewise, List.cons_append, hone]
      rw [ih q1 k2 hrest, Option.map_map]
      simp only [Function.comp_def, Nat.add_assoc]

/-- A stream that the parser objects to stays so. -/
theorem bytewise_none (q : HttpParser) (a b : Bytes) (h : bytewise q a = none) :
    bytewise q (a ++ b) = none := by
  induction a generalizing q with
  | nil => exact absurd h (Option.some_ne_none _)
  | cons ch a ih =>
      simp only [List.cons_append, bytewise] at h ⊢
      cases hone : alone q ch with
      | none => rfl
      | some x =>
          simp only [hone, Option.map_eq_none_iff] at h ⊢
          exact ih x.1 h

/-- A stream that is read in two parts. -/
theorem bytewise_split (q q' : HttpParser) (a b : Bytes) (k : Nat)
    (h : bytewise q (a ++ b) = some (q', k)) :
    ∃ mid i j, bytewise q a = some (mid, i) ∧ bytewise mid b = some (q', j) ∧ k = i + j := by
  cases ha : bytewise q a with
  | none =>
      rw [bytewise_none q a b ha] at h
      exact absurd h.symm (Option.some_ne_none _)
  | some x =>
      rcases x with ⟨mid, i⟩
      rw [bytewise_append q mid a b i ha, Option.map_eq_some_iff] at h
      rcases h with ⟨⟨q2, j⟩, hb, heq⟩
      simp only [Prod.mk.injEq] at heq
      exact ⟨mid, i, j, rfl, by rw [hb, heq.1], heq.2.symm⟩

/-- What is owed of the callbacks: `P n` while `n` messages are still to
    complete. -/
structure Completes {σ : Type*} (s : Settings σ) (P : Nat → σ → Prop) : Prop where
  data : ∀ n m d u, P n u → P n (s.onData m d u)
  done : ∀ n q u, final q = true → P (n + 1) u → P n (s.onMessageComplete q u).2

variable {σ : Type*}

theorem callbackData_user (s : Settings σ) (P : σ → Prop)
    (hdata : ∀ m d u, P u → P (s.onData m d u)) (x : Exec σ) (m : Mark) (more : Bytes)
    (hP : P x.user) :
    P (x.callbackData s m more).user ∧
      (x.callbackData s m more).returned = x.returned ∧
      (x.callbackData s m more).locals.span = x.locals.span ∧
      (x.callbackData s m more).pos = x.pos := by
  unfold Exec.callbackData
  cases x.locals.marks m with
  | none => exact ⟨hP, rfl, rfl, rfl⟩
  | some d => exact ⟨hdata m _ _ hP, rfl, rfl, rfl⟩

/-- A call that goes on, apart from its marks and its jumps. -/
structure Exec.Reading (x : Exec σ) (q : HttpParser) (span : Option Nat) (pos : Nat)
    (P : σ → Prop) : Prop where
  returned : x.returned = none
  parser : x.parser = q
  span : x.locals.span = span
  pos : x.pos = pos
  user : P x.user

theorem perform_going (s : Settings σ) (ch : Byte) (x : Exec σ) (op : Op)
    (hret : x.returned = none) :
    x.perform s ch op = match op with
      | .count => x.count (x.locals.span.getD 0)
      | .resetNread => { x with parser := { x.parser with nread := 0 } }
      | .mark m => x.setMark m (some ((x.locals.marks m).getD []))
      | .emit m => x.callbackData s m []
      | .emitThrough m => x.callbackData s m [ch] := by
  refine (if_neg (by rw [hret]; exact Bool.false_ne_true)).trans ?_
  cases op <;> rfl

theorem perform_reading (s : Settings σ) (P : σ → Prop)
    (hdata : ∀ m d u, P u → P (s.onData m d u)) (ch : Byte) (ops : List Op) (x : Exec σ)
    (q : HttpParser) (span : Option Nat) (pos m : Nat) (hx : x.Reading q span pos P)
    (hm : countOps (span.getD 0) ops q.nread = some m) :
    (ops.foldl (Exec.perform s ch) x).Reading (counted m q) span pos P := by
  induction ops generalizing x q with
  | nil =>
      simp only [countOps, Option.some.injEq] at hm
      rw [← hm]
      exact hx
  | cons op ops ih =>
      have hcallback : ∀ mark more, (x.callbackData s mark more).Reading q span pos P := by
        intro mark more
        rcases callbackData_user s P hdata x mark more hx.user with ⟨hu, hr, hsp, hpos⟩
        exact ⟨hr.trans hx.returned, (callbackData_rest s x mark more).trans hx.parser,
          hsp.trans hx.span, hpos.trans hx.pos, hu⟩
      rw [List.foldl_cons, perform_going s ch x op hx.returned]
      cases op with
      | count =>
          simp only [countOps] at hm
          split_ifs at hm with hle
          refine ih _ (counted (q.nread + span.getD 0) q) ?_ hm
          have hcount : x.count (x.locals.span.getD 0) =
              { x with parser := counted (q.nread + span.getD 0) q } := by
            unfold Exec.count
            rw [if_neg (by rw [hx.parser, hx.span]; exact hle), hx.parser, hx.span]
            rfl
          rw [hcount]
          exact ⟨hx.returned, rfl, hx.span, hx.pos, hx.user⟩
      | resetNread =>
          refine ih _ (counted 0 q) ⟨hx.returned, ?_, hx.span, hx.pos, hx.user⟩ hm
          rw [hx.parser]
          rfl
      | mark mark => exact ih _ q ⟨hx.returned, hx.parser, hx.span, hx.pos, hx.user⟩ hm
      | emit mark => exact ih _ q (hcallback mark []) hm
      | emitThrough mark => exact ih _ q (hcallback mark [ch]) hm

/-- The count of header bytes when a byte is about to be handled. -/
def countByte (q : HttpParser) (span : Option Nat) : Nat :=
  q.nread + if span.isNone && q.state.parsingHeader then 1 else 0

/-- One byte, up to its verdict. -/
theorem byte_reading (s : Settings σ) (P : σ → Prop)
    (hdata : ∀ m d u, P u → P (s.onData m d u)) (ch : Byte) (x : Exec σ)
    (q : HttpParser) (span : Option Nat) (pos m : Nat) (hx : x.Reading q span pos P)
    (hle : countByte q span ≤ httpMaxHeaderSize)
    (hm : countOps (span.getD 0) (byteStep q x.locals.skip ch).ops (countByte q span) = some m) :
    ∃ z : Exec σ, z.Reading (counted m (byteStep q x.locals.skip ch).parser) span pos P ∧
      x.byte s ch = z.finish s ch q.state (byteStep q x.locals.skip ch) := by
  -- Counting the byte leaves the call as it was, with another count.
  have hcount : (if x.locals.span.isNone && x.parser.state.parsingHeader then x.count 1 else x) =
      { x with parser := counted (countByte q span) q } := by
    rw [hx.span, hx.parser]
    by_cases hc : (span.isNone && q.state.parsingHeader) = true
    · rw [if_pos hc]
      have hn : countByte q span = q.nread + 1 := by rw [countByte, if_pos hc]
      rw [hn] at hle ⊢
      unfold Exec.count
      rw [if_neg (by rw [hx.parser]; exact Nat.not_lt.mpr hle), hx.parser]
      rfl
    · rw [if_neg hc]
      have hn : countByte q span = q.nread := by rw [countByte, if_neg hc, Nat.add_zero]
      rw [hn]
      change x = { x with parser := q }
      rw [← hx.parser]
  unfold Exec.byte
  rw [if_neg (by rw [hx.returned]; exact Bool.false_ne_true)]
  dsimp only
  rw [hcount, if_neg (by rw [hx.returned]; exact Bool.false_ne_true)]
  unfold Exec.read
  dsimp only
  rw [byteStep_counted]
  have hz := perform_reading s P hdata ch (byteStep q x.locals.skip ch).ops
    { x with parser := counted (countByte q span) (byteStep q x.locals.skip ch).parser } _ span pos
    m ⟨hx.returned, rfl, hx.span, hx.pos, hx.user⟩ hm
  refine ⟨_, hz, ?_⟩
  exact if_neg (fun hret => Bool.false_ne_true ((congrArg Option.isSome hz.returned).symm.trans hret))

theorem flush_user (s : Settings σ) (P : σ → Prop)
    (hdata : ∀ m d u, P u → P (s.onData m d u)) (x : Exec σ) (hP : P x.user) :
    P (x.flush s).user := by
  have h1 := (callbackData_user s P hdata x .headerField [] hP).1
  have h2 := (callbackData_user s P hdata _ .headerValue [] h1).1
  exact (callbackData_user s P hdata _ .body [] h2).1

/-- The end of a chunk within the limit. -/
theorem endChunk_reading (s : Settings σ) (P : σ → Prop)
    (hdata : ∀ m d u, P u → P (s.onData m d u)) (x : Exec σ) (q : HttpParser)
    (span : Option Nat) (pos : Nat) (hx : x.Reading q span pos P)
    (hle : q.nread + span.getD 0 ≤ httpMaxHeaderSize) :
    (x.endChunk s).returned = some pos ∧
      (x.endChunk s).parser = counted (q.nread + span.getD 0) q ∧ P (x.endChunk s).user := by
  have hflush : ∀ y : Exec σ, y.Reading (counted (q.nread + span.getD 0) q) span pos P →
      (if y.returned.isSome then y else y.flush s).returned = some pos ∧
        (if y.returned.isSome then y else y.flush s).parser =
          counted (q.nread + span.getD 0) q ∧
        P (if y.returned.isSome then y else y.flush s).user := by
    intro y hy
    rw [if_neg (by rw [hy.returned]; exact Bool.false_ne_true)]
    refine ⟨congrArg some hy.pos, ?_, flush_user s P hdata y hy.user⟩
    simp only [Exec.flush, callbackData_rest, hy.parser]
  unfold Exec.endChunk
  rw [if_neg (by rw [hx.returned]; exact Bool.false_ne_true), hx.span]
  cases span with
  | none => exact hflush x ⟨hx.returned, hx.parser, hx.span, hx.pos, hx.user⟩
  | some k =>
      refine hflush _ ?_
      have hcount : x.count k = { x with parser := counted (q.nread + k) q } := by
        unfold Exec.count
        rw [if_neg (by rw [hx.parser]; exact Nat.not_lt.mpr hle), hx.parser]
        rfl
      dsimp only
      rw [hcount]
      exact ⟨hx.returned, rfl, hx.span, hx.pos, hx.user⟩

/-- The last span of a chunk exceeds the limit. -/
theorem endChunk_overflow (s : Settings σ) (P : σ → Prop) (x : Exec σ) (q : HttpParser)
    (k pos : Nat) (hx : x.Reading q (some k) pos P) (hgt : httpMaxHeaderSize < q.nread + k) :
    (x.endChunk s).parser.httpErrno = .headerOverflow := by
  have hcount : x.count k =
      { x with
        parser := { counted (q.nread + k) q with httpErrno := .headerOverflow }
        returned := some x.pos } := by
    unfold Exec.count
    rw [if_pos (by rw [hx.parser]; exact hgt), hx.parser]
    rfl
  unfold Exec.endChunk
  rw [if_neg (by rw [hx.returned]; exact Bool.false_ne_true), hx.span]
  dsimp only
  rw [hcount]
  rfl

/-- The end of a chunk outside a span. -/
theorem endChunk_outside (s : Settings σ) (P : σ → Prop)
    (hdata : ∀ m d u, P u → P (s.onData m d u)) (x : Exec σ) (hspan : x.locals.span = none)
    (hP : P x.user) : (x.endChunk s).parser = x.parser ∧ P (x.endChunk s).user := by
  unfold Exec.endChunk
  rw [hspan]
  dsimp only
  split_ifs
  · exact ⟨rfl, hP⟩
  · refine ⟨?_, flush_user s P hdata x hP⟩
    simp only [Exec.flush, callbackData_rest]

/-- A span goes on after a byte. -/
def staysInside (q : HttpParser) (o : Out) : Bool :=
  decide (q.state = o.parser.state) && Exec.spanState q.state

theorem countsOnce_alone (ops : List Op) (n : Nat) (h : CountsOnce ops)
    (hn : n ≤ httpMaxHeaderSize) : ∃ m, countOps 0 ops n = some m ∧ m ≤ n := by
  cases h with
  | idle h => exact ⟨n, h 0 n, Nat.le_refl n⟩
  | count h =>
      refine ⟨n, ?_, Nat.le_refl n⟩
      rw [h 0 n]
      simp only [countOps, Nat.add_zero, Nat.not_lt.mpr hn, if_false]
  | reset h => exact ⟨0, h 0 n, Nat.zero_le n⟩

/-- The message that a byte completes. -/
def completed (m : Nat) (o : Out) : HttpParser :=
  { counted m o.parser with state := newMessage (counted m o.parser) }

/-- A byte after which the next one is read. -/
theorem finish_next (s : Settings σ) (P : σ → Prop) (ch : Byte) (before : State) (o : Out)
    (x : Exec σ) (q : HttpParser) (span : Option Nat) (pos : Nat) (hx : x.Reading q span pos P)
    (hv : o.verdict = .next) :
    (x.finish s ch before o).Reading q
        (if decide (before = q.state) && Exec.spanState before then some (span.getD 0 + 1)
          else none) (pos + 1) P ∧
      (x.finish s ch before o).locals.skip = o.skip := by
  unfold Exec.finish
  rw [hv]
  refine ⟨⟨hx.returned, hx.parser, ?_, congrArg Nat.succ hx.pos, hx.user⟩, rfl⟩
  dsimp only [Exec.coverByte]
  rw [hx.parser, hx.span]

/-- A byte that completes a message after which the connection is kept. -/
theorem finish_complete (s : Settings σ) (hl : s.Lawful) (P : σ → Prop) (ch : Byte)
    (before : State) (o : Out) (x : Exec σ) (q : HttpParser) (span : Option Nat) (pos : Nat)
    (hx : x.Reading q span pos P) (exit : Exit) (hv : o.verdict = .complete exit)
    (hexit : exit ≠ .always)
    (hkeep : httpShouldKeepAlive { q with state := newMessage q } = true) :
    (x.finish s ch before o).Reading httpParserInit none (pos + 1)
        (fun u' => ∃ u, P u ∧ u' = (s.onMessageComplete { q with state := newMessage q } u).2) ∧
      (x.finish s ch before o).locals.skip = none := by
  have hinit := hl.keep { q with state := newMessage q } x.user hkeep
  unfold Exec.finish
  rw [hv]
  dsimp only
  rw [hx.parser, hinit]
  refine ⟨⟨if_neg ?_, rfl, rfl, congrArg Nat.succ hx.pos, x.user, hx.user, rfl⟩, rfl⟩
  simp only [hexit, decide_false, httpParserInit, Bool.and_false, Bool.or_self,
    Bool.false_eq_true, not_false_eq_true]

/-- The count of a byte on its own exceeds the limit. -/
theorem byte_overflow (s : Settings σ) (q : HttpParser) (u : σ) (ch : Byte)
    (hn : httpMaxHeaderSize < countByte q none) (hq : q.nread ≤ httpMaxHeaderSize) :
    (((Exec.start q u).byte s ch).endChunk s).returned = some 0 := by
  have hheader : (Exec.start q u).locals.span.isNone && q.state.parsingHeader := by
    unfold countByte at hn
    split_ifs at hn with hc
    · exact hc
    · omega
  have hn' : q.nread + 1 > httpMaxHeaderSize := by
    unfold countByte at hn
    split_ifs at hn
    · exact hn
    · omega
  have hbyte : ((Exec.start q u).byte s ch).returned = some 0 := by
    have hcount : ((Exec.start q u).count 1).returned = some 0 := by
      unfold Exec.count
      rw [if_pos (by exact hn')]
      rfl
    unfold Exec.byte
    rw [if_neg (by exact Bool.false_ne_true)]
    have hif : (if (Exec.start q u).locals.span.isNone &&
        (Exec.start q u).parser.state.parsingHeader then (Exec.start q u).count 1
        else Exec.start q u) = (Exec.start q u).count 1 := if_pos hheader
    dsimp only
    rw [hif, if_pos (by rw [hcount]; rfl)]
    exact hcount
  unfold Exec.endChunk
  rw [if_pos (by rw [hbyte]; rfl)]
  exact hbyte

/-- What the call for a byte on its own leaves, if the parser does not
    object. -/
structure Accepted (y : Exec (List HttpParser)) (q' : HttpParser) (k : Nat) : Prop where
  returned : y.returned.getD 0 = 1
  ok : y.parser.httpErrno = .ok
  final : y.user.all final = true
  parser : y.parser = q'
  user : y.user.length = k

theorem alone_accepted (q q' : HttpParser) (ch : Byte) (k : Nat)
    (h : alone q ch = some (q', k)) :
    q.httpErrno = .ok ∧
      Accepted (((Exec.start q []).byte collect ch).endChunk collect) q' k := by
  unfold alone at h
  dsimp only at h
  split_ifs at h with hacc
  rcases hacc with ⟨hlen, herr, hfinal⟩
  simp only [Option.some.injEq, Prod.mk.injEq] at h
  have hok : q.httpErrno = .ok := by
    by_contra hne
    unfold execute at hlen
    rw [if_pos hne] at hlen
    exact Nat.zero_ne_one hlen
  unfold execute at hlen herr hfinal h
  rw [if_neg (not_not.mpr hok), if_neg (List.cons_ne_nil ch [])] at hlen herr hfinal h
  exact ⟨hok, hlen, herr, hfinal, h.1, h.2⟩

theorem collect_data (done : List HttpParser) (m : Mark) (d : Bytes) (u : List HttpParser)
    (hu : u = done) : collect.onData m d u = done := by
  cases m <;> exact hu

/-- A byte on its own after which the next one is read. -/
theorem accepted_next (z : Exec (List HttpParser)) (q q' : HttpParser) (ch : Byte) (o : Out)
    (m k : Nat) (hz : z.Reading (counted m o.parser) none 0 (fun done => done = []))
    (hm : m ≤ httpMaxHeaderSize) (hv : o.verdict = .next)
    (h : Accepted ((z.finish collect ch q.state o).endChunk collect) q' k) :
    k = 0 ∧ q' = counted (m + if staysInside q o then 1 else 0) o.parser ∧
      q'.nread ≤ httpMaxHeaderSize := by
  have hread := (finish_next collect _ ch q.state o z _ none 0 hz hv).1
  change (z.finish collect ch q.state o).Reading (counted m o.parser)
    (if staysInside q o then some 1 else none) 1 _ at hread
  by_cases hin : staysInside q o = true
  · rw [if_pos hin] at hread ⊢
    by_cases hle : m + 1 ≤ httpMaxHeaderSize
    · rcases endChunk_reading collect _ (collect_data []) _ _ _ 1 hread hle with ⟨_, hp, hu⟩
      rw [← h.parser, ← h.user, hp, hu]
      exact ⟨rfl, rfl, hle⟩
    · -- The span at the end of the chunk is one byte too many.
      have herr := h.ok
      rw [endChunk_overflow collect _ _ _ 1 1 hread (Nat.lt_of_not_le hle)] at herr
      exact HttpErrno.noConfusion herr
  · rw [if_neg hin] at hread ⊢
    rcases endChunk_reading collect _ (collect_data []) _ _ _ 1 hread hm with ⟨_, hp, hu⟩
    rw [← h.parser, ← h.user, hp, hu]
    exact ⟨rfl, rfl, hm⟩

/-- A byte on its own that completes a message. -/
theorem accepted_complete (z : Exec (List HttpParser)) (q q' : HttpParser) (ch : Byte) (o : Out)
    (m k : Nat) (hz : z.Reading (counted m o.parser) none 0 (fun done => done = []))
    (exit : Exit) (hv : o.verdict = .complete exit)
    (h : Accepted ((z.finish collect ch q.state o).endChunk collect) q' k) :
    k = 1 ∧ q' = httpParserInit ∧ final (completed m o) = true := by
  have hdone : (z.finish collect ch q.state o).user = [completed m o] ∧
      (z.finish collect ch q.state o).locals.span = none ∧
      (z.finish collect ch q.state o).parser =
        if httpShouldKeepAlive (completed m o) then httpParserInit else completed m o := by
    unfold Exec.finish
    rw [hv]
    dsimp only [collect]
    rw [hz.user, hz.parser]
    exact ⟨rfl, rfl, rfl⟩
  rcases endChunk_outside collect (fun done => done = [completed m o]) (collect_data _) _
    hdone.2.1 hdone.1 with ⟨hp, hu⟩
  have hfinal := h.final
  rw [hu] at hfinal
  have hf : final (completed m o) = true := by
    simpa only [List.all_cons, List.all_nil, Bool.and_true] using hfinal
  refine ⟨?_, ?_, hf⟩
  · rw [← h.user, hu]
    rfl
  · rw [← h.parser, hp, hdone.2.2, if_pos (Bool.and_eq_true_iff.mp hf).1]

/-- What a byte on its own does, if the parser does not object. -/
theorem alone_cases (q q' : HttpParser) (ch : Byte) (k : Nat) (hq : q.nread ≤ httpMaxHeaderSize)
    (h : alone q ch = some (q', k)) :
    q.httpErrno = .ok ∧ countByte q none ≤ httpMaxHeaderSize ∧
      ∃ m, countOps 0 (byteStep q none ch).ops (countByte q none) = some m ∧
        (((byteStep q none ch).verdict = .next ∧ k = 0 ∧
            q' = counted (m + if staysInside q (byteStep q none ch) then 1 else 0)
              (byteStep q none ch).parser ∧
            q'.nread ≤ httpMaxHeaderSize) ∨
          ∃ exit, (byteStep q none ch).verdict = .complete exit ∧ k = 1 ∧
            q' = httpParserInit ∧ final (completed m (byteStep q none ch)) = true) := by
  rcases alone_accepted q q' ch k h with ⟨hok, hacc⟩
  have hn : countByte q none ≤ httpMaxHeaderSize := by
    by_contra hc
    have hlen := hacc.returned
    rw [byte_overflow collect q [] ch (Nat.lt_of_not_le hc) hq] at hlen
    exact Nat.zero_ne_one hlen
  rcases countsOnce_alone _ _ (byteStep_frugal q ch).once hn with ⟨m, hm, hmn⟩
  rcases byte_reading collect (fun done => done = []) (collect_data []) ch (Exec.start q []) q
    none 0 m ⟨rfl, rfl, rfl, rfl, rfl⟩ hn hm with ⟨z, hz, hbyte⟩
  rw [hbyte] at hacc
  refine ⟨hok, hn, m, hm, ?_⟩
  cases hv : (byteStep q none ch).verdict with
  | fail e =>
      -- The call returns where the byte is.
      have hstop : (z.finish collect ch q.state (byteStep q none ch)).returned = some 0 := by
        unfold Exec.finish
        rw [hv]
        exact congrArg some hz.pos
      have hlen := hacc.returned
      unfold Exec.endChunk at hlen
      rw [if_pos (by exact (congrArg Option.isSome hstop).trans rfl)] at hlen
      exact absurd ((congrArg (Option.getD · 0) hstop).symm.trans hlen) Nat.zero_ne_one
  | next =>
      exact Or.inl ⟨rfl, accepted_next z q q' ch _ m k hz (Nat.le_trans hmn hn) hv hacc⟩
  | complete exit =>
      exact Or.inr ⟨exit, rfl, accepted_complete z q q' ch _ m k hz exit hv hacc⟩

/-- A call in the middle of a chunk, against a parser that gets the same bytes
    one at a time. It has counted no more, and a jump under way would not have
    reached its end. -/
structure Behind (P : σ → Prop) (q : HttpParser) (x : Exec σ) (pos : Nat) : Prop where
  reading : x.Reading (counted x.parser.nread q) x.locals.span pos P
  count : x.parser.nread + x.locals.span.getD 0 ≤ q.nread
  bound : q.nread ≤ httpMaxHeaderSize
  live : q.state ≠ .headersDone
  skip : ∀ j, x.locals.skip = some j →
    q.state = .headerValue ∧ q.headerState = .general ∧ httpMaxHeaderSize < j + q.nread

/-- What a byte does in the middle of a chunk is what it does on its own, with
    a jump that has farther to go. -/
theorem byteStep_behind (q : HttpParser) (skip : Option Nat) (ch : Byte)
    (hbound : q.nread ≤ httpMaxHeaderSize)
    (hskip : ∀ j, skip = some j →
      q.state = .headerValue ∧ q.headerState = .general ∧ httpMaxHeaderSize < j + q.nread)
    (hok : ∀ e, (byteStep q none ch).verdict ≠ .fail e) :
    ∃ skip', byteStep q skip ch = { byteStep q none ch with skip := skip' } ∧
      ∀ j, skip' = some j → (byteStep q none ch).verdict = .next ∧
        (byteStep q none ch).parser.state = .headerValue ∧
        (byteStep q none ch).parser.headerState = .general ∧ q.state = .headerValue ∧
        httpMaxHeaderSize < j + q.nread + 2 := by
  have hfresh : ∀ j, (byteStep q none ch).skip = some j →
      (byteStep q none ch).verdict = .next ∧ (byteStep q none ch).parser.state = .headerValue ∧
        (byteStep q none ch).parser.headerState = .general ∧ q.state = .headerValue ∧
        httpMaxHeaderSize < j + q.nread + 2 := by
    intro j hj
    rcases (byteStep_frugal q ch).skip j hj with ⟨h1, h2, h3, h4, h5⟩
    exact ⟨h1, h2, h3, h4, by omega⟩
  cases skip with
  | none => exact ⟨_, rfl, hfresh⟩
  | some j =>
      rcases hskip j rfl with ⟨hq, hg, hj⟩
      rcases byteStep_skip q ch j hq hg (by omega) hok with h | ⟨h, h'⟩
      · rw [h]
        exact ⟨_, rfl, hfresh⟩
      · rw [h, h']
        refine ⟨some (j - 1), rfl, fun i hi => ⟨rfl, hq, hg, hq, ?_⟩⟩
        rw [Option.some.injEq] at hi
        omega

/-- The operations of a byte count no more than they do for the byte on its
    own, even when a span that goes on is added. -/
theorem countOps_behind (q : HttpParser) (ch : Byte) (span n n' m : Nat)
    (hn : n + span ≤ n') (hn' : n' ≤ httpMaxHeaderSize)
    (hm : countOps 0 (byteStep q none ch).ops n' = some m) :
    ∃ m', countOps span (byteStep q none ch).ops n = some m' ∧ m' ≤ m ∧
      ((byteStep q none ch).verdict = .next → staysInside q (byteStep q none ch) = true →
        m' + span ≤ m) := by
  have hfrugal := byteStep_frugal q ch
  by_cases hin : (byteStep q none ch).verdict = .next ∧
      staysInside q (byteStep q none ch) = true
  · have hstays := hin.2
    simp only [staysInside, Bool.and_eq_true, decide_eq_true_eq] at hstays
    have hidle := hfrugal.inside hin.1 hstays.1.symm hstays.2
    rw [hidle, Option.some.injEq] at hm
    exact ⟨n, hidle span n, by omega, fun _ _ => by omega⟩
  · have hleft : ∀ m', (byteStep q none ch).verdict = .next →
        staysInside q (byteStep q none ch) = true → m' + span ≤ m :=
      fun _ h1 h2 => absurd ⟨h1, h2⟩ hin
    cases hfrugal.once with
    | idle h =>
        rw [h, Option.some.injEq] at hm
        exact ⟨n, h span n, by omega, hleft n⟩
    | count h =>
        have hle : ¬ n + span > httpMaxHeaderSize := by omega
        rw [h] at hm
        simp only [countOps, Nat.add_zero, Nat.not_lt.mpr hn', if_false, Option.some.injEq] at hm
        refine ⟨n + span, ?_, by omega, hleft _⟩
        rw [h]
        simp only [countOps, hle, if_false]
    | reset h => exact ⟨0, h span n, Nat.zero_le m, hleft 0⟩

theorem countByte_behind (q p : HttpParser) (span : Option Nat) (hp : p.state = q.state)
    (h : p.nread + span.getD 0 ≤ q.nread) :
    countByte p span + span.getD 0 ≤ countByte q none := by
  unfold countByte
  rw [hp]
  cases span with
  | none =>
      rw [Option.isNone_none]
      simp only [Option.getD_none] at h ⊢
      omega
  | some k =>
      simp only [Option.isNone_some, Bool.false_and, Bool.false_eq_true, if_false]
      omega

/-- One byte of a chunk. -/
theorem byte_behind (s : Settings σ) (hl : s.Lawful) (P : Nat → σ → Prop) (hs : Completes s P)
    (q q' : HttpParser) (x : Exec σ) (pos : Nat) (ch : Byte) (k n : Nat)
    (h : Behind (P (k + n)) q x pos) (hone : alone q ch = some (q', k)) :
    Behind (P n) q' (x.byte s ch) (pos + 1) := by
  rcases alone_cases q q' ch k h.bound hone with ⟨_, hn, m, hm, hcase⟩
  have hok : ∀ e, (byteStep q none ch).verdict ≠ .fail e := by
    intro e he
    rcases hcase with ⟨hv, _⟩ | ⟨exit, hv, _⟩
    · exact Verdict.noConfusion (hv.symm.trans he)
    · exact Verdict.noConfusion (hv.symm.trans he)
  rcases byteStep_behind q x.locals.skip ch h.bound h.skip hok with ⟨skip', ho, hskip⟩
  have hcount := countByte_behind q (counted x.parser.nread q) x.locals.span rfl h.count
  rcases countOps_behind q ch _ _ _ m hcount hn hm with ⟨m', hm', hmm, hinside⟩
  have hstep : byteStep (counted x.parser.nread q) x.locals.skip ch =
      ({ byteStep q none ch with skip := skip' } : Out).counted x.parser.nread := by
    rw [byteStep_counted, ho]
  rcases byte_reading s (P (k + n)) (hs.data (k + n)) ch x (counted x.parser.nread q)
    x.locals.span pos m' h.reading (by omega) (by rw [hstep]; exact hm') with ⟨z, hz, hbyte⟩
  rw [hstep] at hz
  rw [hstep, show (counted x.parser.nread q).state = q.state from rfl] at hbyte
  rw [hbyte]
  rcases hcase with ⟨hv, rfl, rfl, hq'⟩ | ⟨exit, hv, rfl, rfl, hfinal⟩
  · rcases finish_next s _ ch q.state
      (({ byteStep q none ch with skip := skip' } : Out).counted x.parser.nread) z _ _ pos hz hv
      with ⟨hread, hsk⟩
    rw [Nat.zero_add] at hread
    refine ⟨⟨hread.returned, ?_, rfl, hread.pos, hread.user⟩, ?_, hq',
      (byteStep_frugal q ch).done hv, fun j hj => ?_⟩
    · rw [hread.parser]
      rfl
    · rw [hread.parser, hread.span]
      change m' + (if staysInside q (byteStep q none ch) then some (x.locals.span.getD 0 + 1)
        else none).getD 0 ≤ m + if staysInside q (byteStep q none ch) then 1 else 0
      by_cases hin : staysInside q (byteStep q none ch) = true
      · have hle := hinside hv hin
        rw [if_pos hin, if_pos hin, Option.getD_some]
        omega
      · rw [if_neg hin, if_neg hin, Option.getD_none]
        exact hmm
    · rw [hsk] at hj
      rcases hskip j hj with ⟨_, hstate, hgeneral, hbefore, hlt⟩
      refine ⟨hstate, hgeneral, ?_⟩
      -- The byte counts twice for the parser that gets it alone.
      have hin : staysInside q (byteStep q none ch) = true := by
        rw [staysInside, hbefore, hstate]
        rfl
      have hidle := (byteStep_frugal q ch).inside hv (hstate.trans hbefore.symm)
        (by rw [hbefore]; rfl) 0 (countByte q none)
      rw [hm, Option.some.injEq] at hidle
      have hone : countByte q none = q.nread + 1 := by
        rw [countByte, hbefore]
        rfl
      change httpMaxHeaderSize < j + (m + if staysInside q (byteStep q none ch) then 1 else 0)
      rw [if_pos hin]
      omega
  · have hexit : exit ≠ .always := by
      intro hc
      rw [hc] at hv
      rcases (byteStep_frugal q ch).stop hv with hdone | hstatus
      · exact h.live hdone
      · -- Only a switch of protocols stops the parser for good, and it is interim.
        have hge : 200 ≤ (byteStep q none ch).parser.statusCode :=
          of_decide_eq_true (Bool.and_eq_true_iff.mp hfinal).2
        omega
    rcases finish_complete s hl _ ch q.state
      (({ byteStep q none ch with skip := skip' } : Out).counted x.parser.nread) z _ _ pos hz exit
      hv hexit (Bool.and_eq_true_iff.mp hfinal).1 with ⟨hread, hsk⟩
    rcases hread.user with ⟨u, hu, huser⟩
    rw [Nat.add_comm] at hu
    refine ⟨⟨hread.returned, ?_, rfl, hread.pos, ?_⟩, ?_, Nat.zero_le _, State.noConfusion,
      fun j hj => ?_⟩
    · rw [hread.parser]
      rfl
    · rw [huser]
      exact hs.done n _ u hfinal hu
    · rw [hread.parser, hread.span]
      exact Nat.le_refl 0
    · rw [hsk] at hj
      exact absurd hj.symm (Option.some_ne_none j)

/-- The bytes of a chunk. -/
theorem feed_behind (s : Settings σ) (hl : s.Lawful) (P : Nat → σ → Prop) (hs : Completes s P)
    (data : Bytes) (q q' : HttpParser) (x : Exec σ) (pos k n : Nat)
    (h : Behind (P (k + n)) q x pos) (hdata : bytewise q data = some (q', k)) :
    Behind (P n) q' (x.feed s data) (pos + data.length) := by
  induction data generalizing q x pos k with
  | nil =>
      rcases bytewise_nil q q' k hdata with ⟨rfl, rfl⟩
      rw [Nat.zero_add] at h
      exact h
  | cons ch data ih =>
      rcases bytewise_cons q q' ch data k hdata with ⟨q1, k1, k2, hone, hrest, rfl⟩
      rw [Nat.add_assoc] at h
      have h1 := byte_behind s hl P hs q q1 x pos ch k1 (k2 + n) h hone
      have h2 := ih q1 (x.byte s ch) (pos + 1) k2 h1 hrest
      rw [List.length_cons, show pos + (data.length + 1) = pos + 1 + data.length by omega]
      exact h2

/-- A parser between two chunks, against one that gets the same bytes one at a
    time. -/
structure Trails (p q : HttpParser) : Prop where
  parser : p = counted p.nread q
  count : p.nread ≤ q.nread
  bound : q.nread ≤ httpMaxHeaderSize
  live : q.state ≠ .headersDone

theorem trails_init : Trails httpParserInit httpParserInit :=
  ⟨rfl, Nat.le_refl _, Nat.zero_le _, State.noConfusion⟩

/-- A chunk of a stream that the parser accepts one byte at a time is read to
    its end, and the messages in it complete, however the stream is split. -/
theorem execute_bytewise (s : Settings σ) (hl : s.Lawful) (P : Nat → σ → Prop)
    (hs : Completes s P) (p q q' : HttpParser) (u : σ) (data : Bytes) (k n : Nat)
    (hne : data ≠ []) (htrails : Trails p q) (hdata : bytewise q data = some (q', k))
    (hP : P (k + n) u) :
    Trails (execute s p u data).1 q' ∧ P n (execute s p u data).2.1 ∧
      (execute s p u data).2.2 = data.length := by
  have hok : p.httpErrno = .ok := by
    rw [htrails.parser]
    cases data with
    | nil => exact absurd rfl hne
    | cons ch data =>
        rcases bytewise_cons q q' ch data k hdata with ⟨q1, k1, _, hone, _⟩
        exact (alone_accepted q q1 ch k1 hone).1
  have hstart : Behind (P (k + n)) q (Exec.start p u) 0 :=
    ⟨⟨rfl, htrails.parser, rfl, rfl, hP⟩, htrails.count, htrails.bound, htrails.live, nofun⟩
  have hfeed := feed_behind s hl P hs data q q' (Exec.start p u) 0 k n hstart hdata
  rcases endChunk_reading s (P n) (hs.data n) _ _ _ _ hfeed.reading
    (Nat.le_trans hfeed.count hfeed.bound) with ⟨hret, hparser, huser⟩
  unfold execute
  rw [if_neg (not_not.mpr hok), if_neg hne]
  dsimp only
  refine ⟨⟨?_, ?_, hfeed.bound, hfeed.live⟩, huser, ?_⟩
  · rw [hparser]
    rfl
  · rw [hparser]
    exact hfeed.count
  · rw [hret, Nat.zero_add, Option.getD_some]

end HttpParser

end Wrk
