import Wrk.HttpParser.Settle

/-!
# A Call on a String of Requests

One call of the parser, byte by byte. A byte is either read, and then the call
goes on or has completed a message, or the parser objects to it and the call
has returned. The position of a call is the number of bytes it has read, and
it is what the call returns.

Two calls whose parsers agree on what their states know read a byte alike, as
long as the one that has counted more header bytes reads it. This compares a
parser that comes back to its start state in the middle of a string with one
that has just been initialized.

## Main definitions

* `Call.tally`: The count of header bytes after a byte.
* `Read`: How a byte that is read ends.
* `ReadsAll`: A string is read to its end.
* `Agree`: A call against one that has counted no more.

## Theorems

* `byte_read`: A byte is read, or the call returns where it is.
* `readsAll_snoc`: A string is read from its start.
* `byte_agree`: Calls that agree read a byte alike.
-/

namespace Wrk

namespace HttpParser

namespace Request

/-! ### One byte -/

/-- The count of header bytes when a byte is about to be handled. There is no
    result when the limit is exceeded. -/
def Call.counts (x : Call) : Option Nat :=
  if x.span.isNone && Call.parsingHeader x.parser then
    if x.parser.core.nread + 1 > httpMaxHeaderSize then none else some (x.parser.core.nread + 1)
  else some x.parser.core.nread

/-- The count of header bytes after a byte. -/
def Call.tally (x : Call) (ch : Byte) : Option Nat :=
  x.counts.bind (countOps (x.span.getD 0) (step x.parser x.skip ch).ops)

/-- The call after a byte, up to its verdict. -/
def Call.handled (x : Call) (ch : Byte) (n : Nat) : Call :=
  { x with parser := counted n (step x.parser x.skip ch).parser }

theorem countHeaderSize_eq (x : Call) (n : Nat) :
    x.countHeaderSize n =
      if x.parser.core.nread + n > httpMaxHeaderSize then
        { x with parser := counted (x.parser.core.nread + n) x.parser }.error .headerOverflow
      else { x with parser := counted (x.parser.core.nread + n) x.parser } := rfl

theorem foldl_perform_returned (ops : List Op) (x : Call) (h : x.returned.isSome = true) :
    ops.foldl Call.perform x = x := by
  induction ops with
  | nil => rfl
  | cons op ops ih =>
      rw [List.foldl_cons, show x.perform op = x from if_pos h]
      exact ih

/-- The operations of a byte only count. -/
theorem foldl_perform (ops : List Op) (x : Call) (hret : x.returned = none) :
    (∀ n, countOps (x.span.getD 0) ops x.parser.core.nread = some n →
      ops.foldl Call.perform x = { x with parser := counted n x.parser }) ∧
      (countOps (x.span.getD 0) ops x.parser.core.nread = none →
        (ops.foldl Call.perform x).returned = some x.pos ∧
          (ops.foldl Call.perform x).pos = x.pos) := by
  induction ops generalizing x with
  | nil =>
      refine ⟨fun n hn => ?_, fun h => absurd h (Option.some_ne_none _)⟩
      rw [← Option.some.inj hn]
      rfl
  | cons op ops ih =>
      -- An operation within the limit leaves the call as it was, with some count.
      have hgo : ∀ k, x.perform op = { x with parser := counted k x.parser } →
          countOps (x.span.getD 0) (op :: ops) x.parser.core.nread =
            countOps (x.span.getD 0) ops k →
          (∀ n, countOps (x.span.getD 0) (op :: ops) x.parser.core.nread = some n →
            (op :: ops).foldl Call.perform x = { x with parser := counted n x.parser }) ∧
            (countOps (x.span.getD 0) (op :: ops) x.parser.core.nread = none →
              ((op :: ops).foldl Call.perform x).returned = some x.pos ∧
                ((op :: ops).foldl Call.perform x).pos = x.pos) := by
        intro k hk hcount
        rw [List.foldl_cons, hk, hcount]
        exact ih { x with parser := counted k x.parser } hret
      have hperform : x.perform op = match op with
          | .count => x.countHeaderSize (x.span.getD 0)
          | .resetNread => { x with parser.core.nread := 0 }
          | .mark _ | .emit _ | .emitThrough _ => x := by
        refine (if_neg (by rw [hret]; exact Bool.false_ne_true)).trans ?_
        cases op <;> rfl
      cases op with
      | count =>
          dsimp only at hperform
          rw [countHeaderSize_eq] at hperform
          by_cases hmax : x.parser.core.nread + x.span.getD 0 > httpMaxHeaderSize
          · rw [if_pos hmax] at hperform
            have hnone : countOps (x.span.getD 0) (.count :: ops) x.parser.core.nread = none :=
              if_pos hmax
            rw [hnone, List.foldl_cons, hperform, foldl_perform_returned ops _ rfl]
            exact ⟨fun n hn => absurd hn.symm (Option.some_ne_none _), fun _ => ⟨rfl, rfl⟩⟩
          · rw [if_neg hmax] at hperform
            exact hgo _ hperform (if_neg hmax)
      | resetNread => exact hgo 0 hperform rfl
      | mark m => exact hgo x.parser.core.nread hperform rfl
      | emit m => exact hgo x.parser.core.nread hperform rfl
      | emitThrough m => exact hgo x.parser.core.nread hperform rfl

/-- A byte that has been counted. -/
theorem read_tally (x : Call) (ch : Byte) (k : Nat) (hret : x.returned = none) :
    (∀ n, countOps (x.span.getD 0) (step x.parser x.skip ch).ops k = some n →
      Call.read { x with parser := counted k x.parser } ch =
        (x.handled ch n).finish x.parser (step x.parser x.skip ch)) ∧
      (countOps (x.span.getD 0) (step x.parser x.skip ch).ops k = none →
        (Call.read { x with parser := counted k x.parser } ch).pos = x.pos ∧
          (Call.read { x with parser := counted k x.parser } ch).returned = some x.pos) := by
  unfold Call.read
  dsimp only
  rw [step_counted]
  rcases foldl_perform (step x.parser x.skip ch).ops
    { x with parser := counted k (step x.parser x.skip ch).parser } hret with ⟨hsome, hnone⟩
  -- The operations of the step either all fit the limit or one of them ends the call.
  refine ⟨fun n hn => ?_, fun hn => ?_⟩
  · have hops := hsome n hn
    refine (if_neg (fun hstop => ?_)).trans (congrArg (Call.finish _ _) hops)
    have hret' := (congrArg (fun y : Call => y.returned.isSome) hops).symm.trans hstop
    rw [show Option.isSome _ = x.returned.isSome from rfl, hret] at hret'
    exact Bool.false_ne_true hret'
  · rcases hnone hn with ⟨hr, hp⟩
    have hstop : (((step x.parser x.skip ch).counted k).ops.foldl Call.perform
        { x with parser := ((step x.parser x.skip ch).counted k).parser }).returned.isSome =
          true := congrArg Option.isSome hr
    rw [if_pos hstop]
    exact ⟨hp, hr⟩

/-- A byte up to its verdict, or a count beyond the limit. -/
theorem byte_tally (x : Call) (ch : Byte) (hret : x.returned = none) :
    (∀ n, x.tally ch = some n →
      x.byte ch = (x.handled ch n).finish x.parser (step x.parser x.skip ch)) ∧
      (x.tally ch = none → (x.byte ch).pos = x.pos ∧ (x.byte ch).returned = some x.pos) := by
  have hgo : ¬ x.returned.isSome = true := by
    rw [hret]
    exact Bool.false_ne_true
  unfold Call.byte Call.tally Call.counts
  rw [if_neg hgo]
  dsimp only
  -- A byte outside the loops is counted before the step.
  by_cases hout : (x.span.isNone && Call.parsingHeader x.parser) = true
  · rw [if_pos hout, if_pos hout, countHeaderSize_eq]
    by_cases hmax : x.parser.core.nread + 1 > httpMaxHeaderSize
    · rw [if_pos hmax, if_pos hmax]
      exact ⟨fun n hn => absurd hn.symm (Option.some_ne_none _), fun _ => ⟨rfl, rfl⟩⟩
    · rw [if_neg hmax, if_neg hmax, if_neg hgo]
      exact read_tally x ch _ hret
  · rw [if_neg hout, if_neg hout, if_neg hgo]
    exact read_tally x ch x.parser.core.nread hret

/-- A message that ends a call. -/
def stops (exit : Exit) (q : RequestParser) : Bool :=
  exit = .always || (exit = .ifUpgrade && q.core.upgrade)

/-- The call after a byte that only goes on. -/
def Call.afterNext (x : Call) (ch : Byte) (n : Nat) : Call :=
  { x.handled ch n with
    span :=
      if Call.inside x.parser (x.handled ch n).parser then some (x.span.getD 0 + 1) else none
    skip := (step x.parser x.skip ch).skip
    pos := x.pos + 1 }

/-- The call after a byte that completes a message. -/
def Call.afterComplete (x : Call) (ch : Byte) (n : Nat) (exit : Exit) : Call :=
  { parser := newMessage (x.handled ch n).parser
    span := none
    skip := none
    count := x.count + 1
    pos := x.pos + 1
    returned := if stops exit (newMessage (x.handled ch n).parser) then some (x.pos + 1) else none }

theorem byte_next (x : Call) (ch : Byte) (n : Nat) (hret : x.returned = none)
    (htally : x.tally ch = some n) (hv : (step x.parser x.skip ch).verdict = .next) :
    x.byte ch = x.afterNext ch n := by
  have hbyte := (byte_tally x ch hret).1 n htally
  unfold Call.finish at hbyte
  rw [hv] at hbyte
  exact hbyte

theorem byte_complete (x : Call) (ch : Byte) (n : Nat) (exit : Exit) (hret : x.returned = none)
    (htally : x.tally ch = some n) (hv : (step x.parser x.skip ch).verdict = .complete exit) :
    x.byte ch = x.afterComplete ch n exit := by
  have hbyte := (byte_tally x ch hret).1 n htally
  unfold Call.finish at hbyte
  rw [hv] at hbyte
  exact hbyte

/-- How a byte that is read ends. -/
inductive Read (x : Call) (ch : Byte) : Prop where
  | next (n : Nat) (tally : x.tally ch = some n)
      (verdict : (step x.parser x.skip ch).verdict = .next)
      (after : x.byte ch = x.afterNext ch n)
  | complete (n : Nat) (exit : Exit) (tally : x.tally ch = some n)
      (verdict : (step x.parser x.skip ch).verdict = .complete exit)
      (after : x.byte ch = x.afterComplete ch n exit)

/-- A call that has returned reads no more. -/
theorem byte_returned (x : Call) (ch : Byte) (h : x.returned.isSome = true) : x.byte ch = x :=
  if_pos h

/-- A byte is read, or the call returns where the byte is. -/
theorem byte_read (x : Call) (ch : Byte) (hret : x.returned = none) :
    Read x ch ∨ ((x.byte ch).pos = x.pos ∧ (x.byte ch).returned = some x.pos) := by
  rcases byte_tally x ch hret with ⟨hsome, hnone⟩
  cases htally : x.tally ch with
  | none => exact Or.inr (hnone htally)
  | some n =>
      -- The limit was kept; the verdict decides.
      cases hv : (step x.parser x.skip ch).verdict with
      | fail e =>
          have hbyte := hsome n htally
          unfold Call.finish at hbyte
          rw [hv] at hbyte
          rw [hbyte]
          exact Or.inr ⟨rfl, rfl⟩
      | next => exact Or.inl (.next n htally hv (byte_next x ch n hret htally hv))
      | complete exit =>
          exact Or.inl (.complete n exit htally hv (byte_complete x ch n exit hret htally hv))

theorem Read.pos {x : Call} {ch : Byte} (h : Read x ch) : (x.byte ch).pos = x.pos + 1 := by
  cases h with
  | next n tally verdict after =>
      rw [after]
      rfl
  | complete n exit tally verdict after =>
      rw [after]
      rfl

/-- What a call returns is how far it has come. -/
def ReturnsPos (x : Call) : Prop := x.returned = none ∨ x.returned = some x.pos

theorem byte_pos (x : Call) (ch : Byte) (h : ReturnsPos x) :
    ReturnsPos (x.byte ch) ∧ (x.byte ch).pos ≤ x.pos + 1 := by
  -- A call that has returned stays where it is.
  rcases h with hret | hret
  · rcases byte_read x ch hret with hread | ⟨hpos, hret'⟩
    · refine ⟨?_, Nat.le_of_eq hread.pos⟩
      cases hread with
      | next n tally verdict after =>
          rw [after]
          exact Or.inl hret
      | complete n exit tally verdict after =>
          rw [after]
          unfold ReturnsPos Call.afterComplete
          dsimp only
          split_ifs
          · exact Or.inr rfl
          · exact Or.inl rfl
    · exact ⟨Or.inr (by rw [hret', hpos]), by omega⟩
  · rw [byte_returned x ch (by rw [hret]; rfl)]
    exact ⟨Or.inr hret, Nat.le_succ _⟩

theorem feed_pos (x : Call) (data : Bytes) (h : ReturnsPos x) :
    ReturnsPos (x.feed data) ∧ (x.feed data).pos ≤ x.pos + data.length := by
  induction data generalizing x with
  | nil => exact ⟨h, Nat.le_refl _⟩
  | cons ch data ih =>
      rcases byte_pos x ch h with ⟨hbyte, hle⟩
      rcases ih (x.byte ch) hbyte with ⟨hfeed, hle'⟩
      refine ⟨hfeed, ?_⟩
      rw [List.length_cons]
      change ((x.byte ch).feed data).pos ≤ _
      omega

theorem feed_snoc (x : Call) (data : Bytes) (ch : Byte) :
    x.feed (data ++ [ch]) = (x.feed data).byte ch := List.foldl_append

/-- A string is read to its end. -/
def ReadsAll (data : Bytes) : Prop := (Call.start.feed data).pos = data.length

/-- A string that is read to its end is read up to its last byte, and so is
    that byte. -/
theorem readsAll_snoc (data : Bytes) (ch : Byte) (h : ReadsAll (data ++ [ch])) :
    ReadsAll data ∧ (Call.start.feed data).returned = none ∧ Read (Call.start.feed data) ch := by
  rcases feed_pos Call.start data (Or.inl rfl) with ⟨hret, hle⟩
  unfold ReadsAll at h
  rw [feed_snoc, List.length_append, List.length_singleton] at h
  rw [show Call.start.pos = 0 from rfl, Nat.zero_add] at hle
  rcases hret with hret | hret
  · rcases byte_read _ ch hret with hread | ⟨hpos, _⟩
    · have hpos := hread.pos
      exact ⟨by unfold ReadsAll; omega, hret, hread⟩
    · omega
  · rw [byte_returned _ ch (by rw [hret]; rfl)] at h
    omega

/-! ### Calls that agree -/

/-- A call against one that knows the same, and has counted no more. -/
structure Agree (x y : Call) : Prop where
  parser : settle x.parser = settle y.parser
  nread : y.parser.core.nread ≤ x.parser.core.nread
  span : x.span = y.span
  skip : x.skip = y.skip

theorem parsingHeader_settle (q : RequestParser) :
    Call.parsingHeader (settle q) = Call.parsingHeader q := by
  rcases q with ⟨line, m, core⟩
  cases line with
  | none => rfl
  | some l => cases l <;> rfl

theorem inside_settle (a b : RequestParser) :
    Call.inside (settle a) (settle b) = Call.inside a b := by
  rcases a with ⟨line, m, core⟩
  rcases b with ⟨line', m', core'⟩
  cases line with
  | some l => cases l <;> rfl
  | none =>
      cases line' with
      | some l => cases l <;> rfl
      | none => rfl

/-- What follows a message depends on what its last state knows. -/
theorem newMessage_settle (q : RequestParser) (h : q.line = none) :
    settle (newMessage (settle q)) = settle (newMessage q) := by
  rcases q with ⟨line, m, core⟩
  dsimp only at h
  rw [h]
  unfold newMessage
  rw [show httpShouldKeepAlive (settle ⟨none, m, core⟩).core = httpShouldKeepAlive core from rfl]
  by_cases hkeep : httpShouldKeepAlive core = true
  · rw [if_pos hkeep, if_pos hkeep]
    rfl
  · rw [if_neg hkeep, if_neg hkeep]
    rfl

theorem newMessage_agree (p q : RequestParser) (h : settle p = settle q) (hp : p.line = none) :
    settle (newMessage p) = settle (newMessage q) := by
  have hq : q.line = none := by
    rw [← settle_line q, ← h, settle_line, hp]
  rw [← newMessage_settle p hp, h, newMessage_settle q hq]

theorem settle_upgrade (q : RequestParser) : (settle q).core.upgrade = q.core.upgrade := by
  rcases q with ⟨line, m, core⟩
  cases line with
  | none => rfl
  | some l => cases l <;> rfl

theorem newMessage_upgrade (q : RequestParser) :
    (newMessage q).core.upgrade = q.core.upgrade ∧ (newMessage q).core.nread = q.core.nread := by
  unfold newMessage
  split_ifs <;> exact ⟨rfl, rfl⟩

theorem stops_agree (p q : RequestParser) (exit : Exit) (h : settle p = settle q) :
    stops exit (newMessage p) = stops exit (newMessage q) := by
  unfold stops
  rw [(newMessage_upgrade p).1, (newMessage_upgrade q).1, ← settle_upgrade p, ← settle_upgrade q, h]

/-- Counting from less stays within the limit. -/
theorem countOps_le (span : Nat) (ops : List Op) (n n' m : Nat) (hle : n' ≤ n)
    (h : countOps span ops n = some m) : ∃ m', countOps span ops n' = some m' ∧ m' ≤ m := by
  induction ops generalizing n n' with
  | nil => exact ⟨n', rfl, by rw [← Option.some.inj h]; exact hle⟩
  | cons op ops ih =>
      cases op with
      | count =>
          simp only [countOps] at h ⊢
          split_ifs at h with hmax
          rw [if_neg (by omega)]
          exact ih _ _ (Nat.add_le_add_right hle span) h
      | resetNread => exact ih 0 0 (Nat.le_refl _) h
      | mark m => exact ih n n' hle h
      | emit m => exact ih n n' hle h
      | emitThrough m => exact ih n n' hle h

theorem step_agree (x y : Call) (ch : Byte) (h : Agree x y) :
    (step x.parser x.skip ch).settle = (step y.parser y.skip ch).settle := by
  rw [step_settle x.parser, step_settle y.parser, h.parser, h.skip]

/-- Calls that agree handle a byte alike. -/
theorem step_alike (x y : Call) (ch : Byte) (h : Agree x y) :
    (step x.parser x.skip ch).ops = (step y.parser y.skip ch).ops ∧
      (step x.parser x.skip ch).verdict = (step y.parser y.skip ch).verdict ∧
      (step x.parser x.skip ch).skip = (step y.parser y.skip ch).skip := by
  have hout := step_agree x y ch h
  unfold RequestOut.settle at hout
  injection hout with _ hops hverdict hskip
  exact ⟨hops, hverdict, hskip⟩

theorem counts_agree (x y : Call) (n : Nat) (h : Agree x y) (hx : x.counts = some n) :
    ∃ n', y.counts = some n' ∧ n' ≤ n := by
  have hle := h.nread
  unfold Call.counts at hx ⊢
  rw [← h.span, ← parsingHeader_settle y.parser, ← h.parser, parsingHeader_settle]
  split_ifs at hx ⊢ with hout hmax hmax'
  · omega
  · refine ⟨_, rfl, ?_⟩
    rw [← Option.some.inj hx]
    omega
  · refine ⟨_, rfl, ?_⟩
    rw [← Option.some.inj hx]
    exact hle

theorem tally_agree (x y : Call) (ch : Byte) (m : Nat) (h : Agree x y)
    (hx : x.tally ch = some m) : ∃ m', y.tally ch = some m' ∧ m' ≤ m := by
  rcases Option.bind_eq_some_iff.mp hx with ⟨n, hn, hm⟩
  rcases counts_agree x y n h hn with ⟨n', hn', hle⟩
  rcases countOps_le _ _ n n' m hle hm with ⟨m', hm', hle'⟩
  refine ⟨m', ?_, hle'⟩
  unfold Call.tally
  rw [hn', Option.bind_some, ← h.span, ← (step_alike x y ch h).1]
  exact hm'

/-- The parsers of two calls that agree, after a byte and before its verdict. -/
theorem handled_agree (x y : Call) (ch : Byte) (m m' : Nat) (h : Agree x y) :
    settle (x.handled ch m).parser = settle (y.handled ch m').parser := by
  unfold Call.handled
  rw [settle_counted, settle_counted]
  exact congrArg RequestOut.parser (step_agree x y ch h)

/-- Calls that agree read a byte alike, if the one that has counted more
    reads it. -/
theorem byte_agree (x y : Call) (ch : Byte) (h : Agree x y) (hx : x.returned = none)
    (hy : y.returned = none) (hread : Read x ch) :
    Read y ch ∧ Agree (x.byte ch) (y.byte ch) ∧
      ((y.byte ch).returned = none ↔ (x.byte ch).returned = none) ∧
      (x.byte ch).count + y.count = (y.byte ch).count + x.count := by
  rcases step_alike x y ch h with ⟨_, hverdict, hskip⟩
  cases hread with
  | next n tally verdict after =>
      rcases tally_agree x y ch n h tally with ⟨n', tally', hle⟩
      have after' := byte_next y ch n' hy tally' (hverdict.symm.trans verdict)
      have hhandled := handled_agree x y ch n n' h
      -- Whether the next byte is inside a loop is decided by the state alone.
      have hspan : (x.afterNext ch n).span = (y.afterNext ch n').span := by
        unfold Call.afterNext
        dsimp only
        rw [← inside_settle x.parser, ← inside_settle y.parser, h.parser, hhandled, h.span]
      rw [after, after']
      refine ⟨.next n' tally' (hverdict.symm.trans verdict) after',
        ⟨hhandled, hle, hspan, hskip⟩, ?_, Nat.add_comm _ _⟩
      rw [show (y.afterNext ch n').returned = y.returned from rfl,
        show (x.afterNext ch n).returned = x.returned from rfl, hx, hy]
  | complete n exit tally verdict after =>
      rcases tally_agree x y ch n h tally with ⟨n', tally', hle⟩
      have after' := byte_complete y ch n' exit hy tally' (hverdict.symm.trans verdict)
      have hhandled := handled_agree x y ch n n' h
      have hline := (step_complete x.parser x.skip ch exit verdict).1
      -- Both calls end here or neither does, since that depends on the parser alone.
      have hstops := stops_agree _ _ exit hhandled
      rw [after, after']
      refine ⟨.complete n' exit tally' (hverdict.symm.trans verdict) after',
        ⟨newMessage_agree _ _ hhandled hline, ?_, rfl, rfl⟩, ?_, ?_⟩
      · rw [show (x.afterComplete ch n exit).parser = newMessage (x.handled ch n).parser from rfl,
          show (y.afterComplete ch n' exit).parser = newMessage (y.handled ch n').parser from rfl,
          (newMessage_upgrade _).2, (newMessage_upgrade _).2]
        exact hle
      · unfold Call.afterComplete
        dsimp only
        rw [← hstops]
        by_cases hstop : stops exit (newMessage (x.handled ch n).parser) = true
        · rw [if_pos hstop, if_pos hstop]
          exact ⟨fun hc => absurd hc (Option.some_ne_none _),
            fun hc => absurd hc (Option.some_ne_none _)⟩
        · rw [if_neg hstop, if_neg hstop]
      · change x.count + 1 + y.count = y.count + 1 + x.count
        omega

end Request

end HttpParser

end Wrk
