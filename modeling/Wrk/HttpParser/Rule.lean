import Wrk.HttpParser.Execute
import Wrk.HttpParser.Orderly

/-!
# A Rule for Callbacks

What a caller may conclude about its own state from a call of the parser,
knowing only what each callback keeps. The rule has two predicates. `P ph`
holds while messages arrive, and `ph` is the last header callback of the
current message: a value callback may rely on a name before it, and the end
of a message on there being no name without its value. `D` holds once a
message has ended that allows no other to follow: its callback left the
parser alone, so the parser is dead and calls nothing more.

Both facts come from the order of the callbacks, which is proved for one byte
elsewhere and is carried here through a chunk by an invariant of the call in
progress.

## Main definitions

* `Settings.Lawful`: How a completed message changes the parser.
* `Reports`: What the callbacks keep.
* `Agrees`: What a parser's state says of the last header callback.

## Theorems

* `perform_progress`: One operation.
* `byte_invariant`: One byte.
* `endChunk_invariant`: The end of a chunk.
* `execute_rule`: The rule for a whole call.
* `execute_dead`: A dead parser calls nothing.
-/

namespace Wrk

namespace HttpParser

variable {σ : Type*}

/-- When another message may follow, its parser is reinitialized; otherwise
    the parser is left alone. -/
structure Settings.Lawful (s : Settings σ) : Prop where
  keep : ∀ q u, httpShouldKeepAlive q = true → (s.onMessageComplete q u).1 = httpParserInit
  close : ∀ q u, httpShouldKeepAlive q = false → (s.onMessageComplete q u).1 = q

/-- What callbacks keep: `P` while messages arrive, and `D` from the message
    on that allows no other. -/
structure Reports (s : Settings σ) (P : Phase → σ → Prop) (D : σ → Prop) : Prop where
  field : ∀ ph d u, P ph u → P .name (s.onHeaderField d u)
  value : ∀ ph d u, ph ≠ .fresh → P ph u → P .value (s.onHeaderValue d u)
  body : ∀ ph d u, P ph u → P ph (s.onBody d u)
  keep : ∀ ph q u, httpShouldKeepAlive q = true → ph ≠ .name → P ph u →
    P .fresh (s.onMessageComplete q u).2
  close : ∀ ph q u, httpShouldKeepAlive q = false → ph ≠ .name → P ph u →
    D (s.onMessageComplete q u).2

/-- A working parser past a header's colon has reported the name, and one that
    is outside a header has reported the value. -/
def Agrees (q : HttpParser) (ph : Phase) : Prop :=
  q.httpErrno = .ok →
    (valueState q.state = true → ph ≠ .fresh) ∧ (ph = .name → nameState q.state = true)

/-- The progress of a call in progress. -/
def Exec.progress (x : Exec σ) (ph : Phase) : Progress :=
  ⟨ph, fun m => (x.locals.marks m).isSome⟩

/-- The call goes on. -/
def Running (P : Phase → σ → Prop) (x : Exec σ) : Prop :=
  x.returned = none ∧
    ∃ ph, P ph x.user ∧ (x.progress ph).Fits x.parser.state

/-- The call has returned, and messages may still arrive. -/
def Stopped (P : Phase → σ → Prop) (x : Exec σ) : Prop :=
  x.returned.isSome = true ∧ ∃ ph, P ph x.user ∧ Agrees x.parser ph

/-- A message has ended that allows no other. -/
def Closed (D : σ → Prop) (x : Exec σ) : Prop :=
  D x.user ∧ x.parser.state = .dead ∧ ∀ m, x.locals.marks m = none

/-- Counting header bytes changes only the count, or stops the call. -/
theorem count_cases (x : Exec σ) (n : Nat) :
    (x.count n = { x with parser := { x.parser with nread := x.parser.nread + n } }) ∨
      ((x.count n).returned.isSome = true ∧ (x.count n).user = x.user ∧
        (x.count n).parser.httpErrno = .headerOverflow) := by
  unfold Exec.count
  dsimp only
  split_ifs
  · exact Or.inr ⟨rfl, rfl, rfl⟩
  · exact Or.inl rfl

theorem count_state (x : Exec σ) (n : Nat) :
    (x.count n).parser.state = x.parser.state ∧ (x.count n).user = x.user ∧
      (x.count n).locals = x.locals := by
  unfold Exec.count
  dsimp only
  split_ifs
  · exact ⟨rfl, rfl, rfl⟩
  · exact ⟨rfl, rfl, rfl⟩

/-- Handing marked bytes to a callback, as progress. -/
theorem callbackData_progress (s : Settings σ) (P : Phase → σ → Prop) (D : σ → Prop)
    (hr : Reports s P D) (x : Exec σ) (m : Mark) (more : Bytes) (ph : Phase)
    (hP : P ph x.user) (t : Progress) (ht : (x.progress ph).report m = some t) :
    ∃ ph', P ph' (x.callbackData s m more).user ∧
      (x.callbackData s m more).progress ph' = t := by
  unfold Exec.callbackData
  cases hmark : x.locals.marks m with
  | none =>
      -- Nothing is marked, so clearing the mark changes nothing.
      have hclear : (x.progress ph).setMark m false = x.progress ph := by
        unfold Progress.setMark Exec.progress
        congr 1
        funext k
        by_cases hk : k = m
        · rw [if_pos hk, hk, hmark]
          rfl
        · rw [if_neg hk]
      have hm : (x.progress ph).marked m = false := by
        simp only [Exec.progress, hmark, Option.isSome_none]
      refine ⟨ph, hP, ?_⟩
      cases m with
      | headerField =>
          simp only [Progress.report, hm, Bool.false_eq_true, if_false, Option.some.injEq] at ht
          rw [← ht]
          exact hclear.symm
      | headerValue =>
          simp only [Progress.report, hm, Bool.false_and, Bool.false_eq_true, if_false,
            Option.some.injEq] at ht
          rw [← ht]
          exact hclear.symm
      | body =>
          simp only [Progress.report, Option.some.injEq] at ht
          rw [← ht]
          exact hclear.symm
  | some d =>
      have hm : (x.progress ph).marked m = true := by
        simp only [Exec.progress, hmark, Option.isSome_some]
      have hset : ∀ (b : Phase) (y : σ),
          ({ x with user := y }.setMark m none).progress b
            = { x.progress ph with phase := b }.setMark m false := by
        intro b y
        unfold Progress.setMark Exec.progress Exec.setMark
        congr 1
        funext k
        by_cases hk : k = m
        · simp only [hk, if_true, Option.isSome_none]
        · simp only [hk, if_false]
      cases m with
      | headerField =>
          simp only [Progress.report, hm, if_true, Option.some.injEq] at ht
          exact ⟨.name, hr.field ph _ _ hP, (hset .name _).trans ht⟩
      | headerValue =>
          have hph : ph ≠ .fresh := by
            intro hc
            have hfresh : (x.progress ph).phase = .fresh := hc
            simp only [Progress.report, hm, hfresh, decide_true, Bool.and_self, if_true,
              reduceCtorEq] at ht
          rw [report_value _ hm hph, Option.some.injEq] at ht
          exact ⟨.value, hr.value ph _ _ hph hP, (hset .value _).trans ht⟩
      | body =>
          simp only [Progress.report, Option.some.injEq] at ht
          exact ⟨ph, hr.body ph _ _ hP, (hset ph _).trans ht⟩

/-- One operation of a byte follows the progress, or stops the call. -/
theorem perform_progress (s : Settings σ) (P : Phase → σ → Prop) (D : σ → Prop)
    (hr : Reports s P D) (ch : Byte) (x : Exec σ) (op : Op) (ph : Phase) (hP : P ph x.user)
    (hret : x.returned = none) (t : Progress) (ht : (x.progress ph).perform op = some t) :
    ∃ ph', P ph' (x.perform s ch op).user ∧
      (((x.perform s ch op).returned = none ∧ (x.perform s ch op).progress ph' = t ∧
          (x.perform s ch op).parser.state = x.parser.state) ∨
        ((x.perform s ch op).returned.isSome = true ∧
          (x.perform s ch op).parser.httpErrno ≠ .ok)) := by
  have hcallback : ∀ m more, (x.progress ph).report m = some t →
      ∃ ph', P ph' (x.callbackData s m more).user ∧
        (((x.callbackData s m more).returned = none ∧
            (x.callbackData s m more).progress ph' = t ∧
            (x.callbackData s m more).parser.state = x.parser.state) ∨
          ((x.callbackData s m more).returned.isSome = true ∧
            (x.callbackData s m more).parser.httpErrno ≠ .ok)) := by
    intro m more hm
    rcases callbackData_progress s P D hr x m more ph hP t hm with ⟨ph', hP', ht'⟩
    have hsame : (x.callbackData s m more).returned = x.returned ∧
        (x.callbackData s m more).parser = x.parser := by
      unfold Exec.callbackData
      cases x.locals.marks m with
      | none => exact ⟨rfl, rfl⟩
      | some d => exact ⟨rfl, rfl⟩
    exact ⟨ph', hP', Or.inl ⟨hsame.1.trans hret, ht', congrArg HttpParser.state hsame.2⟩⟩
  unfold Exec.perform
  rw [if_neg (by rw [hret]; exact Bool.false_ne_true)]
  cases op with
  | count =>
      simp only [Progress.perform, Option.some.injEq] at ht
      rcases count_cases x (x.locals.span.getD 0) with h | ⟨h1, h2, h3⟩
      · refine ⟨ph, ?_, Or.inl ?_⟩
        · rw [h]
          exact hP
        · rw [h]
          exact ⟨hret, ht, rfl⟩
      · refine ⟨ph, h2 ▸ hP, Or.inr ⟨h1, ?_⟩⟩
        rw [h3]
        exact fun h => HttpErrno.noConfusion h
  | resetNread =>
      simp only [Progress.perform, Option.some.injEq] at ht
      exact ⟨ph, hP, Or.inl ⟨hret, ht, rfl⟩⟩
  | mark m =>
      simp only [Progress.perform, Option.some.injEq] at ht
      refine ⟨ph, hP, Or.inl ⟨hret, ?_, rfl⟩⟩
      rw [← ht]
      unfold Exec.progress Progress.setMark Exec.setMark
      congr 1
      funext k
      by_cases hk : k = m
      · simp only [hk, if_true, Option.isSome_some]
      · simp only [hk, if_false]
  | emit m => exact hcallback m [] ht
  | emitThrough m => exact hcallback m [ch] ht

theorem foldl_perform_returned (s : Settings σ) (ch : Byte) (ops : List Op) (x : Exec σ)
    (h : x.returned.isSome = true) : ops.foldl (Exec.perform s ch) x = x := by
  induction ops with
  | nil => rfl
  | cons op ops ih =>
      rw [List.foldl_cons, show x.perform s ch op = x from if_pos h]
      exact ih

/-- The operations of a byte, in order. -/
theorem ops_progress (s : Settings σ) (P : Phase → σ → Prop) (D : σ → Prop)
    (hr : Reports s P D) (ch : Byte) (ops : List Op) (x : Exec σ) (ph : Phase)
    (hP : P ph x.user) (hret : x.returned = none) (t : Progress)
    (ht : ops.foldlM Progress.perform (x.progress ph) = some t) :
    ∃ ph', P ph' (ops.foldl (Exec.perform s ch) x).user ∧
      (((ops.foldl (Exec.perform s ch) x).returned = none ∧
          (ops.foldl (Exec.perform s ch) x).progress ph' = t ∧
          (ops.foldl (Exec.perform s ch) x).parser.state = x.parser.state) ∨
        ((ops.foldl (Exec.perform s ch) x).returned.isSome = true ∧
          (ops.foldl (Exec.perform s ch) x).parser.httpErrno ≠ .ok)) := by
  induction ops generalizing x ph with
  | nil =>
      simp only [List.foldlM_nil, Option.pure_def, Option.some.injEq] at ht
      exact ⟨ph, hP, Or.inl ⟨hret, ht, rfl⟩⟩
  | cons op ops ih =>
      simp only [List.foldlM_cons, Option.bind_eq_bind, Option.bind_eq_some_iff] at ht
      rcases ht with ⟨t1, h1, h2⟩
      rcases perform_progress s P D hr ch x op ph hP hret t1 h1 with
        ⟨ph1, hP1, ⟨hret1, ht1, hstate⟩ | ⟨hstop, herr⟩⟩
      · rw [← ht1] at h2
        rcases ih (x.perform s ch op) ph1 hP1 hret1 h2 with ⟨ph2, hP2, hcase⟩
        rw [hstate] at hcase
        exact ⟨ph2, hP2, hcase⟩
      · rw [List.foldl_cons, foldl_perform_returned s ch ops _ hstop]
        exact ⟨ph1, hP1, Or.inr ⟨hstop, herr⟩⟩

/-- A call in progress goes on, has stopped, or is closed. -/
def Invariant (P : Phase → σ → Prop) (D : σ → Prop) (x : Exec σ) : Prop :=
  Running P x ∨ Stopped P x ∨ Closed D x

/-- The end of a byte, after its operations. -/
theorem finish_invariant (s : Settings σ) (hl : s.Lawful) (P : Phase → σ → Prop) (D : σ → Prop)
    (hr : Reports s P D) (ch : Byte) (before : State) (o : Out) (x : Exec σ) (ph : Phase)
    (hP : P ph x.user) (hret : x.returned = none) (hstate : x.parser.state = o.parser.state)
    (hnext : o.verdict = .next → (x.progress ph).Fits o.parser.state)
    (hdone : ∀ exit, o.verdict = .complete exit →
      ph ≠ .name ∧ ∀ m, (x.progress ph).marked m = false) :
    Invariant P D (x.finish s ch before o) := by
  unfold Exec.finish
  cases hv : o.verdict with
  | fail e =>
      refine Or.inr (Or.inl ⟨rfl, ph, hP, fun herr => ?_⟩)
      by_cases he : e = .ok
      · simp only [he, if_true, reduceCtorEq] at herr
      · simp only [he, if_false] at herr
  | next =>
      refine Or.inl ⟨hret, ph, hP, ?_⟩
      have hfit := hnext hv
      rw [← hstate] at hfit
      -- Covering one more byte sets and clears no mark.
      have hmarks : ∀ m, ((x.coverByte ch).locals.marks m).isSome = (x.locals.marks m).isSome :=
        fun m => Option.isSome_map
      refine ⟨hfit.named, hfit.valued, fun m h => ?_, fun h => ?_, fun h => ?_⟩
      · exact hfit.marked m ((hmarks m).symm.trans h)
      · exact (hmarks .headerField).trans (hfit.field h)
      · exact (hmarks .headerValue).trans (hfit.value h)
  | complete exit =>
      dsimp only
      have hnone : ∀ m, x.locals.marks m = none := fun m =>
        Option.isSome_eq_false_iff.mp ((hdone exit hv).2 m) |> Option.isNone_iff_eq_none.mp
      have hvalued := (hdone exit hv).1
      cases hka : httpShouldKeepAlive { x.parser with state := newMessage x.parser } with
      | true =>
          -- Another message may follow: the parser starts afresh.
          have hP' := hr.keep ph _ _ hka hvalued hP
          have hq := hl.keep _ x.user hka
          split_ifs
          · refine Or.inr (Or.inl ⟨rfl, .fresh, hP', fun _ => ⟨fun h => ?_, fun h => ?_⟩⟩)
            · simp only [hq] at h
              exact absurd h Bool.false_ne_true
            · exact Phase.noConfusion h
          · refine Or.inl ⟨rfl, .fresh, hP', ?_⟩
            refine fits_of_unmarked _ _ (fun m => ?_) (fun h => ?_) (fun h => ?_) ?_ ?_
            · simp only [Exec.progress, hnone m, Option.isSome_none]
            · simp only [hq] at h
              exact absurd h Bool.false_ne_true
            · exact Phase.noConfusion h
            · simp only [hq]
              exact State.noConfusion
            · simp only [hq]
              exact State.noConfusion
      | false =>
          have hdead : newMessage x.parser = .dead := by
            have hka' : httpShouldKeepAlive x.parser = false := hka
            rw [newMessage, hka']
            rfl
          refine Or.inr (Or.inr ⟨hr.close ph _ _ hka hvalued hP, ?_, hnone⟩)
          simp only [hl.close _ x.user hka]
          exact hdead

theorem closed_count (D : σ → Prop) (x : Exec σ) (n : Nat) (h : Closed D x) :
    Closed D (x.count n) := by
  rcases count_state x n with ⟨hstate, huser, hlocals⟩
  exact ⟨huser ▸ h.1, hstate.trans h.2.1, fun m => hlocals ▸ h.2.2 m⟩

theorem byteStep_dead (q : HttpParser) (skip : Option Nat) (ch : Byte) (h : q.state = .dead) :
    byteStep q skip ch = advance q [] ∨ byteStep q skip ch = fail q .closedConnection := by
  unfold byteStep
  rw [h]
  dsimp only
  split_ifs
  · exact Or.inl rfl
  · exact Or.inr rfl

/-- A closed call reads a byte without calling anything back. -/
theorem closed_read (s : Settings σ) (D : σ → Prop) (x : Exec σ) (ch : Byte)
    (hret : x.returned = none) (h : Closed D x) :
    Closed D (x.read s ch) ∧ (x.read s ch).user = x.user := by
  rcases h with ⟨hD, hdead, hnone⟩
  unfold Exec.read
  rcases byteStep_dead x.parser x.locals.skip ch hdead with h | h
  · rw [h]
    simp only [advance, List.foldl_nil, hret, Option.isSome_none, Bool.false_eq_true, if_false,
      Exec.finish]
    refine ⟨⟨hD, hdead, fun m => ?_⟩, rfl⟩
    simp only [Exec.coverByte, hnone m, Option.map_none]
  · rw [h]
    simp only [fail, List.foldl_nil, hret, Option.isSome_none, Bool.false_eq_true, if_false,
      Exec.finish]
    exact ⟨⟨hD, hdead, hnone⟩, trivial⟩

theorem closed_byte (s : Settings σ) (D : σ → Prop) (x : Exec σ) (ch : Byte) (h : Closed D x) :
    Closed D (x.byte s ch) ∧ (x.byte s ch).user = x.user := by
  have hsecond : ∀ y : Exec σ, Closed D y → y.user = x.user →
      Closed D (if y.returned.isSome = true then y else y.read s ch) ∧
        (if y.returned.isSome = true then y else y.read s ch).user = x.user := by
    intro y hy huser
    by_cases hret : y.returned.isSome = true
    · rw [if_pos hret]
      exact ⟨hy, huser⟩
    · rw [if_neg hret]
      rcases closed_read s D y ch (by simpa using hret) hy with ⟨hc, hu⟩
      exact ⟨hc, hu.trans huser⟩
  unfold Exec.byte
  by_cases hret : x.returned.isSome = true
  · rw [if_pos hret]
    exact ⟨h, rfl⟩
  · rw [if_neg hret]
    by_cases hcount : (x.locals.span.isNone && x.parser.state.parsingHeader) = true
    · rw [if_pos hcount]
      exact hsecond _ (closed_count D x 1 h) (count_state x 1).2.1
    · rw [if_neg hcount]
      exact hsecond x h rfl

/-- One byte keeps the invariant of the call. -/
theorem byte_invariant (s : Settings σ) (hl : s.Lawful) (P : Phase → σ → Prop) (D : σ → Prop)
    (hr : Reports s P D) (x : Exec σ) (ch : Byte) (h : Invariant P D x) :
    Invariant P D (x.byte s ch) := by
  rcases h with ⟨hret, ph, hP, hfit⟩ | ⟨hstop, hrest⟩ | hclosed
  · -- Reading, from a call that goes on and counts the byte or not.
    have hread : ∀ y : Exec σ, y.returned = none → y.user = x.user →
        y.locals = x.locals → y.parser.state = x.parser.state →
          Invariant P D (y.read s ch) := by
      intro y hy huser hlocals hstate
      have hfit' : (y.progress ph).Fits y.parser.state := by
        unfold Exec.progress
        rw [hlocals, hstate]
        exact hfit
      rcases byteStep_orderly y.parser y.locals.skip ch _ hfit' with ⟨t, hrun, hnext, hdone⟩
      rcases ops_progress s P D hr ch (byteStep y.parser y.locals.skip ch).ops
        { y with parser := (byteStep y.parser y.locals.skip ch).parser } ph (huser ▸ hP) hy t
        hrun with ⟨ph', hP', ⟨hgo, ht, hst⟩ | ⟨hstop, herr⟩⟩
      · unfold Exec.read
        dsimp only
        rw [if_neg (by rw [hgo]; exact Bool.false_ne_true)]
        refine finish_invariant s hl P D hr ch _ _ _ ph' hP' hgo hst ?_ ?_
        · rw [ht]
          exact hnext
        · rw [← ht] at hdone
          exact hdone
      · unfold Exec.read
        dsimp only
        rw [if_pos hstop]
        exact Or.inr (Or.inl ⟨hstop, ph', hP', fun hok => absurd hok herr⟩)
    unfold Exec.byte
    rw [if_neg (by rw [hret]; exact Bool.false_ne_true)]
    dsimp only
    rcases count_state x 1 with ⟨hstate, huser, hlocals⟩
    by_cases hcount : (x.locals.span.isNone && x.parser.state.parsingHeader) = true
    · rw [if_pos hcount]
      rcases count_cases x 1 with heq | ⟨hstop, _, herr⟩
      · have hgo : (x.count 1).returned = none := by rw [heq, hret]
        rw [if_neg (by rw [hgo]; exact Bool.false_ne_true)]
        exact hread _ hgo huser hlocals hstate
      · -- The size limit is exceeded.
        rw [if_pos hstop]
        refine Or.inr (Or.inl ⟨hstop, ph, huser ▸ hP, fun hok => ?_⟩)
        rw [herr] at hok
        exact HttpErrno.noConfusion hok
    · rw [if_neg hcount, if_neg (by rw [hret]; exact Bool.false_ne_true)]
      exact hread x hret rfl rfl rfl
  · rw [show x.byte s ch = x from if_pos hstop]
    exact Or.inr (Or.inl ⟨hstop, hrest⟩)
  · exact Or.inr (Or.inr (closed_byte s D x ch hclosed).1)

theorem feed_invariant (s : Settings σ) (hl : s.Lawful) (P : Phase → σ → Prop) (D : σ → Prop)
    (hr : Reports s P D) (data : Bytes) (x : Exec σ) (h : Invariant P D x) :
    Invariant P D (x.feed s data) := by
  induction data generalizing x with
  | nil => exact h
  | cons ch data ih => exact ih (x.byte s ch) (byte_invariant s hl P D hr x ch h)

/-- A value that is marked only after a name can be reported. -/
theorem report_marked (t : Progress) (h : t.marked .headerValue = true → t.phase ≠ .fresh) :
    t.report .headerValue =
      some ({ t with phase := if t.marked .headerValue then .value else t.phase }.setMark
        .headerValue false) := by
  refine if_neg (fun hc => ?_)
  simp only [Bool.and_eq_true, decide_eq_true_eq] at hc
  exact h hc.1 hc.2

/-- Reporting whatever is still marked at the end of a chunk. -/
theorem flush_progress (t : Progress) (st : State) (ht : t.Fits st) :
    ∃ t1 t2 t3, t.report .headerField = some t1 ∧ t1.report .headerValue = some t2 ∧
      t2.report .body = some t3 ∧ (valueState st = true → t3.phase ≠ .fresh) ∧
        (t3.phase = .name → nameState st = true) := by
  have hfield : t.marked .headerField = true → nameState st = true := by
    intro hf
    have hmark := ht.marked .headerField hf
    revert hmark
    cases st <;> intro hmark <;> first | rfl | exact absurd hmark nofun
  have hvalue : t.marked .headerValue = true → valueState st = true := by
    intro hv
    have hmark := ht.marked .headerValue hv
    revert hmark
    cases st <;> intro hmark <;> first | rfl | exact absurd hmark nofun
  -- The field is told before the value, so that a value still has its name.
  refine ⟨_, _, _, rfl, report_marked _ (fun hv => ?_), rfl, fun hst => ?_, fun hph => ?_⟩
  · have hph := ht.named (hvalue hv)
    dsimp only [Progress.setMark]
    split_ifs
    · exact Phase.noConfusion
    · exact hph
  · have hph := ht.named hst
    simp only [Progress.setMark, reduceCtorEq, if_false]
    split_ifs
    · exact Phase.noConfusion
    · exact Phase.noConfusion
    · exact hph
  · simp only [Progress.setMark, reduceCtorEq, if_false] at hph
    split_ifs at hph with h1 h2
    · exact hfield h2
    · exact ht.valued hph

theorem callbackData_rest (s : Settings σ) (x : Exec σ) (m : Mark) (more : Bytes) :
    (x.callbackData s m more).parser = x.parser := by
  unfold Exec.callbackData
  cases x.locals.marks m with
  | none => rfl
  | some d => rfl

theorem callbackData_none (s : Settings σ) (x : Exec σ) (m : Mark) (more : Bytes)
    (h : x.locals.marks m = none) : x.callbackData s m more = x := by
  unfold Exec.callbackData
  rw [h]

theorem flush_running (s : Settings σ) (P : Phase → σ → Prop) (D : σ → Prop)
    (hr : Reports s P D) (x : Exec σ) (ph : Phase) (hP : P ph x.user)
    (hfit : (x.progress ph).Fits x.parser.state) : Stopped P (x.flush s) := by
  rcases flush_progress (x.progress ph) x.parser.state hfit with
    ⟨t1, t2, t3, h1, h2, h3, hnamed, hvalued⟩
  rcases callbackData_progress s P D hr x .headerField [] ph hP t1 h1 with ⟨ph1, hP1, ht1⟩
  rw [← ht1] at h2
  rcases callbackData_progress s P D hr _ .headerValue [] ph1 hP1 t2 h2 with ⟨ph2, hP2, ht2⟩
  rw [← ht2] at h3
  rcases callbackData_progress s P D hr _ .body [] ph2 hP2 t3 h3 with ⟨ph3, hP3, ht3⟩
  rw [← ht3] at hnamed hvalued
  refine ⟨rfl, ph3, hP3, fun _ => ?_⟩
  have hstate : (x.flush s).parser.state = x.parser.state := by
    simp only [Exec.flush, callbackData_rest]
  rw [hstate]
  exact ⟨hnamed, hvalued⟩

theorem flush_closed (s : Settings σ) (D : σ → Prop) (x : Exec σ) (h : Closed D x) :
    Closed D (x.flush s) ∧ (x.flush s).user = x.user := by
  unfold Exec.flush
  rw [callbackData_none s x _ _ (h.2.2 _), callbackData_none s x _ _ (h.2.2 _),
    callbackData_none s x _ _ (h.2.2 _)]
  exact ⟨h, rfl⟩

/-- The end of a chunk, after its last span has been counted. -/
theorem endChunk_cases (s : Settings σ) (x : Exec σ) :
    x.endChunk s = x ∧ x.returned.isSome = true ∨
      ∃ y : Exec σ, (y = x ∨ ∃ k, y = x.count k) ∧ x.returned = none ∧
        ((y.returned.isSome = true ∧ x.endChunk s = y) ∨
          (y.returned = none ∧ x.endChunk s = y.flush s)) := by
  unfold Exec.endChunk
  by_cases hret : x.returned.isSome = true
  · exact Or.inl ⟨if_pos hret, hret⟩
  · rw [if_neg hret]
    have hnone : x.returned = none := by simpa using hret
    have hsecond : ∀ y : Exec σ, (y.returned.isSome = true ∧
        (if y.returned.isSome = true then y else y.flush s) = y) ∨
        (y.returned = none ∧
          (if y.returned.isSome = true then y else y.flush s) = y.flush s) := by
      intro y
      by_cases hy : y.returned.isSome = true
      · exact Or.inl ⟨hy, if_pos hy⟩
      · exact Or.inr ⟨by simpa using hy, if_neg hy⟩
    cases x.locals.span with
    | none => exact Or.inr ⟨x, Or.inl rfl, hnone, hsecond x⟩
    | some k => exact Or.inr ⟨x.count k, Or.inr ⟨k, rfl⟩, hnone, hsecond _⟩

/-- The end of a chunk stops the call. -/
theorem endChunk_invariant (s : Settings σ) (P : Phase → σ → Prop) (D : σ → Prop)
    (hr : Reports s P D) (x : Exec σ) (h : Invariant P D x) :
    Stopped P (x.endChunk s) ∨ Closed D (x.endChunk s) := by
  rcases endChunk_cases s x with ⟨heq, hret⟩ | ⟨y, hy, hret, hcase⟩
  · rw [heq]
    rcases h with ⟨hgo, _⟩ | hstop | hclosed
    · rw [hgo] at hret
      exact absurd hret Bool.false_ne_true
    · exact Or.inl hstop
    · exact Or.inr hclosed
  · rcases h with ⟨_, ph, hP, hfit⟩ | ⟨hstop, _⟩ | hclosed
    · -- Counting keeps everything the flush looks at.
      have hkeep : P ph y.user ∧ (y.progress ph).Fits y.parser.state ∧
          (y.returned.isSome = true → y.parser.httpErrno ≠ .ok) := by
        rcases hy with rfl | ⟨k, rfl⟩
        · refine ⟨hP, hfit, fun h => ?_⟩
          rw [hret] at h
          exact absurd h Bool.false_ne_true
        · rcases count_state x k with ⟨hstate, huser, hlocals⟩
          refine ⟨huser ▸ hP, ?_, fun h => ?_⟩
          · unfold Exec.progress
            rw [hlocals, hstate]
            exact hfit
          · rcases count_cases x k with heq | ⟨_, _, herr⟩
            · rw [heq, hret] at h
              exact absurd h Bool.false_ne_true
            · rw [herr]
              exact fun h => HttpErrno.noConfusion h
      rcases hcase with ⟨hstop, heq⟩ | ⟨_, heq⟩
      · rw [heq]
        exact Or.inl ⟨hstop, ph, hkeep.1, fun hok => absurd hok (hkeep.2.2 hstop)⟩
      · rw [heq]
        exact Or.inl (flush_running s P D hr y ph hkeep.1 hkeep.2.1)
    · rw [hret] at hstop
      exact absurd hstop Bool.false_ne_true
    · have hy' : Closed D y := by
        rcases hy with rfl | ⟨k, rfl⟩
        · exact hclosed
        · exact closed_count D x k hclosed
      rcases hcase with ⟨_, heq⟩ | ⟨_, heq⟩
      · rw [heq]
        exact Or.inr hy'
      · rw [heq]
        exact Or.inr (flush_closed s D y hy').1

/-- The marks a call starts with fit the state it resumes in. -/
theorem start_fits (q : HttpParser) (u : σ) (ph : Phase) (hok : q.httpErrno = .ok)
    (h : Agrees q ph) : ((Exec.start q u).progress ph).Fits q.state := by
  refine ⟨(h hok).1, (h hok).2, fun m hm => ?_, fun hs => ?_, fun hs => ?_⟩
  · simp only [Exec.progress, Exec.start] at hm
    by_cases hc : (m = .headerField ∧ q.state = .headerField) ∨
        (m = .headerValue ∧ q.state = .headerValue)
    · rcases hc with ⟨rfl, hs⟩ | ⟨rfl, hs⟩
      · rw [hs]
        rfl
      · rw [hs]
        rfl
    · rw [if_neg hc] at hm
      exact absurd hm Bool.false_ne_true
  · simp only [Exec.progress, Exec.start, hs, and_true, true_or, if_true, Option.isSome_some]
  · simp only [Exec.progress, Exec.start, hs, and_true, or_true, if_true, Option.isSome_some]

/-- The rule for callbacks: whatever the input, either messages may still
    arrive, or one has ended that allows no other, and then the parser is dead
    or that was the end of the stream. -/
theorem execute_rule (s : Settings σ) (hl : s.Lawful) (P : Phase → σ → Prop) (D : σ → Prop)
    (hr : Reports s P D) (q : HttpParser) (u : σ) (ph : Phase) (hP : P ph u)
    (hq : Agrees q ph) (data : Bytes) :
    (∃ ph', P ph' (execute s q u data).2.1 ∧ Agrees (execute s q u data).1 ph') ∨
      (D (execute s q u data).2.1 ∧
        ((execute s q u data).1.state = .dead ∨
          (data = [] ∧ (execute s q u data).1.state = .bodyIdentityEof))) := by
  unfold execute
  by_cases hok : q.httpErrno = .ok
  · rw [if_neg (not_not.mpr hok)]
    by_cases hdata : data = []
    · rw [if_pos hdata]
      cases hs : q.state with
      | bodyIdentityEof =>
          dsimp only
          have hvalued : ph ≠ .name := by
            intro hname
            have h := (hq hok).2 hname
            rw [hs] at h
            exact Bool.false_ne_true h
          -- An end that completes a message either keeps the parser or closes it.
          cases hka : httpShouldKeepAlive q with
          | true =>
              refine Or.inl ⟨.fresh, hr.keep ph q u hka hvalued hP, fun _ => ?_⟩
              rw [hl.keep q u hka]
              exact ⟨fun h => absurd h Bool.false_ne_true, fun h => Phase.noConfusion h⟩
          | false =>
              refine Or.inr ⟨hr.close ph q u hka hvalued hP, Or.inr ⟨hdata, ?_⟩⟩
              rw [hl.close q u hka, hs]
      | dead => exact Or.inl ⟨ph, hP, hq⟩
      | startRes => exact Or.inl ⟨ph, hP, hq⟩
      | _ => exact Or.inl ⟨ph, hP, fun h => HttpErrno.noConfusion h⟩
    · rw [if_neg hdata]
      have hstart : Invariant P D (Exec.start q u) :=
        Or.inl ⟨rfl, ph, hP, start_fits q u ph hok hq⟩
      rcases endChunk_invariant s P D hr _ (feed_invariant s hl P D hr data _ hstart) with
        ⟨_, ph', hP', hagrees⟩ | hclosed
      · exact Or.inl ⟨ph', hP', hagrees⟩
      · exact Or.inr ⟨hclosed.1, Or.inl hclosed.2.1⟩
  · rw [if_pos hok]
    exact Or.inl ⟨ph, hP, hq⟩

theorem feed_closed (s : Settings σ) (D : σ → Prop) (data : Bytes) (x : Exec σ)
    (h : Closed D x) : Closed D (x.feed s data) ∧ (x.feed s data).user = x.user := by
  induction data generalizing x with
  | nil => exact ⟨h, rfl⟩
  | cons ch data ih =>
      rcases closed_byte s D x ch h with ⟨hc, hu⟩
      rcases ih (x.byte s ch) hc with ⟨hc', hu'⟩
      exact ⟨hc', hu'.trans hu⟩

/-- A dead parser calls nothing back, and stays dead. -/
theorem execute_dead (s : Settings σ) (q : HttpParser) (u : σ) (data : Bytes)
    (hdead : q.state = .dead) :
    (execute s q u data).2.1 = u ∧ (execute s q u data).1.state = .dead := by
  unfold execute
  by_cases hok : q.httpErrno = .ok
  · rw [if_neg (not_not.mpr hok)]
    by_cases hdata : data = []
    · rw [if_pos hdata, hdead]
      exact ⟨rfl, hdead⟩
    · rw [if_neg hdata]
      -- A dead parser sets no mark and calls nothing back.
      have hstart : Closed (fun _ : σ => True) (Exec.start q u) := by
        refine ⟨trivial, hdead, fun m => ?_⟩
        simp only [Exec.start, hdead, reduceCtorEq, and_false, or_self, if_false]
      rcases feed_closed s _ data _ hstart with ⟨hc, hu⟩
      rcases endChunk_cases s ((Exec.start q u).feed s data) with
        ⟨heq, _⟩ | ⟨y, hy, _, hcase⟩
      · dsimp only
        rw [heq]
        exact ⟨hu, hc.2.1⟩
      · have hy' : Closed (fun _ : σ => True) y ∧ y.user = u := by
          rcases hy with rfl | ⟨k, rfl⟩
          · exact ⟨hc, hu⟩
          · exact ⟨closed_count _ _ k hc, (count_state _ k).2.1.trans hu⟩
        rcases hcase with ⟨_, heq⟩ | ⟨_, heq⟩
        · dsimp only
          rw [heq]
          exact ⟨hy'.2, hy'.1.2.1⟩
        · dsimp only
          rw [heq]
          rcases flush_closed s _ y hy'.1 with ⟨hf, hfu⟩
          exact ⟨hfu.trans hy'.2, hf.2.1⟩
  · rw [if_pos hok]
    exact ⟨rfl, hdead⟩

end HttpParser

end Wrk
