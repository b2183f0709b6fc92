import Wrk.HttpParser.Step

/-!
# The Order of the Callbacks

What the operations of a byte can be, state by state. At most one mark is set
between two bytes, and the state says which; inside a name or a value its
mark is set. A value is reported only after a name of the same message: the
states from a header's colon to the end of its line are entered only by
reporting the name. In turn every name is followed by its value, since the
states that come between are left only by reporting one. When a message
completes, nothing is marked and no name is without its value.

## Main definitions

* `Phase`: The last header callback of a message.
* `valueState`: The states that come after a name.
* `nameState`: The states in which a name may be without its value.
* `markOf`: The mark a state may have set.
* `leads`: The steps between states that report nothing.
* `Progress`: What has been reported and marked.
* `Progress.Fits`: The progress a state allows.
* `Orderly`: An outcome that keeps to it.

## Theorems

* `orderly_headerFieldStart`, `orderly_headerValue`: The states around a
  header.
* `byteStep_orderly`: Every state handles a byte in an orderly way.
-/

namespace Wrk

namespace HttpParser

/-- The states between a header's colon and the end of its line. -/
def valueState : State → Bool
  | .headerValueDiscardWs | .headerValueDiscardWsAlmostDone | .headerValueDiscardLws
  | .headerValueStart | .headerValue | .headerValueLws | .headerAlmostDone => true
  | _ => false

/-- The states in which a name may have been reported and its value not. -/
def nameState : State → Bool
  | .headerField | .headerValueDiscardWs | .headerValueDiscardWsAlmostDone
  | .headerValueDiscardLws | .headerValueStart | .headerValue => true
  | _ => false

/-- The mark that may be set in a state. -/
def markOf : State → Option Mark
  | .headerField => some .headerField
  | .headerValue => some .headerValue
  | .bodyIdentity | .bodyIdentityEof | .chunkData | .chunkDataAlmostDone => some .body
  | _ => none

/-- A state that another may lead to without a report or a mark. -/
def leads (before s : State) : Bool :=
  s ≠ .headerField && s ≠ .headerValue && (!valueState s || valueState before) &&
    (!nameState before || nameState s)

/-- The last header callback of a message: none, a name, or a value. -/
inductive Phase where
  | fresh
  | name
  | value
  deriving DecidableEq, Repr

/-- What is known of the callbacks of a message: the last of its headers, and
    which marks are set. -/
structure Progress where
  phase : Phase
  marked : Mark → Bool

/-- Set or clear one mark. -/
def Progress.setMark (t : Progress) (m : Mark) (b : Bool) : Progress :=
  { t with marked := fun k => if k = m then b else t.marked k }

/-- Report what a mark covers. -/
def Progress.report (t : Progress) (m : Mark) : Option Progress :=
  match m with
  | .headerField =>
      some
        ({ t with phase := if t.marked .headerField then .name else t.phase }.setMark
          .headerField false)
  | .headerValue =>
      if t.marked .headerValue && t.phase = .fresh then none
      else
        some
          ({ t with phase := if t.marked .headerValue then .value else t.phase }.setMark
            .headerValue false)
  | .body => some (t.setMark .body false)

/-- One operation. There is no progress when a value would come first. -/
def Progress.perform (t : Progress) : Op → Option Progress
  | .mark m => some (t.setMark m true)
  | .emit m | .emitThrough m => t.report m
  | .count | .resetNread => some t

/-- The progress that fits a state. -/
structure Progress.Fits (t : Progress) (s : State) : Prop where
  named : valueState s = true → t.phase ≠ .fresh
  valued : t.phase = .name → nameState s = true
  marked : ∀ m, t.marked m = true → markOf s = some m
  field : s = .headerField → t.marked .headerField = true
  value : s = .headerValue → t.marked .headerValue = true

/-- An outcome keeps the progress fitting, and never reports a value first. -/
def Orderly (before : State) (o : Out) : Prop :=
  ∀ t : Progress, t.Fits before →
    ∃ t', o.ops.foldlM Progress.perform t = some t' ∧
      (o.verdict = .next → t'.Fits o.parser.state) ∧
        (∀ exit, o.verdict = .complete exit →
          t'.phase ≠ .name ∧ ∀ m, t'.marked m = false)

theorem not_marked (t : Progress) (s : State) (ht : t.Fits s) (hs : markOf s = none) (m : Mark) :
    t.marked m = false := by
  by_contra h
  have := ht.marked m (by simpa using h)
  rw [hs] at this
  exact absurd this (by simp only [reduceCtorEq, not_false_eq_true])

theorem orderly_fail (before : State) (q : HttpParser) (e : HttpErrno) :
    Orderly before (fail q e) := by
  intro t _
  refine ⟨t, rfl, fun h => ?_, fun exit h => ?_⟩
  · simp only [fail, reduceCtorEq] at h
  · simp only [fail, reduceCtorEq] at h

theorem leads_iff (before s : State) : leads before s = true ↔
    s ≠ .headerField ∧ s ≠ .headerValue ∧ (valueState s = true → valueState before = true) ∧
      (nameState before = true → nameState s = true) := by
  simp only [leads, ne_eq, decide_not, Bool.and_eq_true, Bool.or_eq_true, and_assoc,
    Bool.not_eq_true', ← Bool.not_eq_true, ← imp_iff_not_or, decide_eq_true_eq]

/-- Where no name is without its value, any state outside a header may come
    next. -/
theorem leads_of_valued (before s : State) (hname : nameState before = false)
    (hs : (s ≠ .headerField && s ≠ .headerValue && !valueState s) = true) :
    leads before s = true := by
  rw [leads, hname, Bool.not_false, Bool.true_or, Bool.and_true]
  simp only [Bool.and_eq_true] at hs ⊢
  exact ⟨hs.1, by rw [hs.2, Bool.true_or]⟩

/-- Operations that change no progress, from a state with no mark. -/
theorem orderly_plain (before : State) (q : HttpParser) (ops : List Op) (skip : Option Nat)
    (hops : ops = [] ∨ ops = [.resetNread])
    (hstate : q.state = before ∨ (markOf before = none ∧ leads before q.state = true)) :
    Orderly before ⟨q, ops, .next, skip⟩ := by
  intro t ht
  have hrun : ops.foldlM Progress.perform t = some t := by
    rcases hops with rfl | rfl <;> rfl
  refine ⟨t, hrun, fun _ => ?_, fun exit h => by simp only [reduceCtorEq] at h⟩
  -- Either the state is the same, or neither it nor the last has a mark.
  rcases hstate with h | ⟨hmark, hleads⟩
  · rw [h]
    exact ht
  · rcases (leads_iff before q.state).mp hleads with ⟨hfield, hvalue, hvs, hns⟩
    refine ⟨fun h => ht.named (hvs h), fun h => hns (ht.valued h), fun m h => ?_,
      fun h => absurd h hfield, fun h => absurd h hvalue⟩
    rw [not_marked t before ht hmark m] at h
    exact absurd h Bool.false_ne_true

/-- A message completes from a state with no mark, and after a value. -/
theorem orderly_complete (before : State) (q : HttpParser) (ops : List Op) (exit : Exit)
    (hops : ops = [] ∨ ops = [.resetNread]) (hmark : markOf before = none)
    (hname : nameState before = false) : Orderly before (complete q ops exit) := by
  intro t ht
  have hrun : ops.foldlM Progress.perform t = some t := by
    rcases hops with rfl | rfl <;> rfl
  refine ⟨t, hrun, fun h => by simp only [complete, reduceCtorEq] at h, fun _ _ => ⟨?_, ?_⟩⟩
  · intro h
    exact Bool.false_ne_true (hname.symm.trans (ht.valued h))
  · exact not_marked t before ht hmark

/-- A byte of a body, in a state where only the body is marked. -/
theorem orderly_markBody (before : State) (q : HttpParser) (hbefore : markOf before = some .body)
    (hq : markOf q.state = some .body) (hvs : valueState q.state = false)
    (hns : nameState before = false) : Orderly before (advance q [.mark .body]) := by
  intro t ht
  refine ⟨t.setMark .body true, rfl, fun _ => ?_, fun exit h => by
    simp only [advance, reduceCtorEq] at h⟩
  refine ⟨fun h => ?_, fun h => ?_, fun m h => ?_, fun h => ?_, fun h => ?_⟩
  · rw [show (advance q [.mark .body]).parser.state = q.state from rfl, hvs] at h
    exact absurd h Bool.false_ne_true
  · exact absurd (hns.symm.trans (ht.valued h)) Bool.false_ne_true
  · rw [show (advance q [.mark .body]).parser.state = q.state from rfl, hq]
    -- The only mark is the one that has just been set.
    by_cases hm : m = .body
    · rw [hm]
    · have := ht.marked m (by simpa only [Progress.setMark, hm, if_false] using h)
      rw [hbefore, Option.some.injEq] at this
      exact absurd this.symm hm
  · rw [show q.state = .headerField from h] at hq
    exact Mark.noConfusion (Option.some.inj hq)
  · rw [show q.state = .headerValue from h] at hq
    exact Mark.noConfusion (Option.some.inj hq)

/-- Clearing the mark of a state leaves none. -/
theorem unmarked (t : Progress) (s : State) (m : Mark)
    (ht : ∀ k, t.marked k = true → markOf s = some k) (hs : markOf s = some m) (k : Mark) :
    (t.setMark m false).marked k = false := by
  by_cases hk : k = m
  · simp only [Progress.setMark, hk, if_true]
  · simp only [Progress.setMark, hk, if_false]
    by_contra h
    have := ht k (by simpa using h)
    rw [hs, Option.some.injEq] at this
    exact hk this.symm

theorem fits_of_unmarked (t : Progress) (s : State) (hnone : ∀ k, t.marked k = false)
    (hnamed : valueState s = true → t.phase ≠ .fresh)
    (hvalued : t.phase = .name → nameState s = true) (hf : s ≠ .headerField)
    (hv : s ≠ .headerValue) : t.Fits s := by
  refine ⟨hnamed, hvalued, fun m h => ?_, fun h => absurd h hf, fun h => absurd h hv⟩
  rw [hnone m] at h
  exact absurd h Bool.false_ne_true

/-- Setting the mark of a state, where there was none. -/
theorem fits_setMark (t : Progress) (before s : State) (m : Mark) (ht : t.Fits before)
    (hbefore : markOf before = none) (hs : markOf s = some m)
    (hnamed : valueState s = true → t.phase ≠ .fresh)
    (hvalued : t.phase = .name → nameState s = true) : (t.setMark m true).Fits s := by
  refine ⟨hnamed, hvalued, fun k h => ?_, fun h => ?_, fun h => ?_⟩
  · by_cases hk : k = m
    · rw [hk, hs]
    · simp only [Progress.setMark, hk, if_false, not_marked t before ht hbefore k] at h
      exact absurd h Bool.false_ne_true
  · rw [h, show markOf .headerField = some .headerField from rfl, Option.some.injEq] at hs
    simp only [Progress.setMark, hs, if_true]
  · rw [h, show markOf .headerValue = some .headerValue from rfl, Option.some.injEq] at hs
    simp only [Progress.setMark, hs, if_true]

/-- Operations before an outcome lead from one state's progress to
    another's. -/
theorem orderly_after (before mid : State) (pre : List Op) (o : Out)
    (hpre : ∀ t : Progress, t.Fits before →
      ∃ t', pre.foldlM Progress.perform t = some t' ∧ t'.Fits mid)
    (ho : Orderly mid o) : Orderly before (o.after pre) := by
  intro t ht
  rcases hpre t ht with ⟨t1, hrun, hfit⟩
  rcases ho t1 hfit with ⟨t2, hrun', hnext, hdone⟩
  refine ⟨t2, ?_, hnext, hdone⟩
  simp only [Out.after, List.foldlM_append, hrun, Option.bind_eq_bind, Option.bind_some]
  exact hrun'

theorem orderly_goto (before s : State) (q : HttpParser) (ops : List Op)
    (hops : ops = [] ∨ ops = [.resetNread]) (hmark : markOf before = none)
    (hleads : leads before s = true) : Orderly before (goto q s ops) :=
  orderly_plain before { q with state := s } ops none hops (Or.inr ⟨hmark, hleads⟩)

theorem orderly_stay (before : State) (q : HttpParser) (hq : q.state = before) :
    Orderly before (advance q []) :=
  orderly_plain before q [] none (Or.inl rfl) (Or.inl hq)

theorem orderly_expect (before s : State) (q : HttpParser) (ch wanted : Byte) (e : HttpErrno)
    (hmark : markOf before = none) (hleads : leads before s = true) :
    Orderly before (expect q ch wanted e s) := by
  unfold expect
  by_cases h : ch ≠ wanted
  · rw [if_pos h]
    exact orderly_fail before q e
  · rw [if_neg h]
    exact orderly_goto before s q [] (Or.inl rfl) hmark hleads

theorem orderly_headersDone (before : State) (q : HttpParser) (ch : Byte)
    (hmark : markOf before = none) (hname : nameState before = false) :
    Orderly before (headersDone q ch) := by
  unfold headersDone
  dsimp only
  -- Upgrade, no body, chunks, no length, a length, and to the end.
  split_ifs
  · exact orderly_fail before q .strict
  · exact orderly_complete before q _ .always (Or.inr rfl) hmark hname
  · exact orderly_goto before .chunkSizeStart q _ (Or.inr rfl) hmark
      (leads_of_valued before _ hname rfl)
  · exact orderly_complete before q _ .never (Or.inr rfl) hmark hname
  · exact orderly_goto before .bodyIdentity q _ (Or.inr rfl) hmark
      (leads_of_valued before _ hname rfl)
  · exact orderly_complete before q _ .never (Or.inr rfl) hmark hname
  · exact orderly_goto before .bodyIdentityEof q _ (Or.inr rfl) hmark
      (leads_of_valued before _ hname rfl)

theorem orderly_headersAlmostDone (before : State) (q : HttpParser) (ch : Byte)
    (hmark : markOf before = none) (hname : nameState before = false) :
    Orderly before (headersAlmostDone q ch) := by
  unfold headersAlmostDone
  split_ifs
  · exact orderly_fail before q .strict
  · exact orderly_complete before _ [] .ifUpgrade (Or.inl rfl) hmark hname
  · exact orderly_fail before q .unexpectedContentLength
  · exact orderly_headersDone before _ ch hmark hname

theorem orderly_headerFieldStart (before : State) (q : HttpParser) (ch : Byte)
    (hmark : markOf before = none) (hname : nameState before = false) :
    Orderly before (headerFieldStart q ch) := by
  unfold headerFieldStart
  split_ifs
  · exact orderly_goto before .headersAlmostDone q [] (Or.inl rfl) hmark
      (leads_of_valued before _ hname rfl)
  · exact orderly_headersAlmostDone before _ ch hmark hname
  · exact orderly_fail before q .invalidHeaderToken
  · -- A name begins here, so its mark is set.
    intro t ht
    refine ⟨t.setMark .headerField true, rfl, fun _ => ?_, fun _ h => ?_⟩
    · exact fits_setMark t before .headerField .headerField ht hmark rfl
        (fun h => (Bool.false_ne_true h).elim) (fun _ => rfl)
    · simp only [goto, advance, reduceCtorEq] at h

theorem matching_state (q : HttpParser) (word : Bytes) (c : Byte) (found mismatch : HeaderState) :
    (matching q word c found mismatch).state = q.state := by
  unfold matching
  dsimp only
  split_ifs <;> rfl

theorem headerFieldChar_state (q : HttpParser) (ch c : Byte) :
    (headerFieldChar q ch c).state = q.state := by
  unfold headerFieldChar
  split <;> first | rfl | exact matching_state _ _ _ _ _ | (split_ifs <;> rfl)

theorem orderly_headerField (q : HttpParser) (ch : Byte) (hq : q.state = .headerField) :
    Orderly .headerField (headerField q ch) := by
  unfold headerField
  split_ifs
  · exact orderly_stay _ _ ((headerFieldChar_state q ch _).trans hq)
  · -- The colon reports the name, whose mark the state guarantees.
    intro t ht
    have hmark : t.marked .headerField = true := ht.field rfl
    refine ⟨{ t with phase := .name }.setMark .headerField false, ?_, fun _ => ?_, fun _ h => ?_⟩
    · simp only [goto, advance, List.foldlM_cons, List.foldlM_nil, Progress.perform,
        Progress.report, hmark, if_true, Option.pure_def, Option.bind_eq_bind, Option.bind_some]
    · refine fits_of_unmarked _ .headerValueDiscardWs
        (unmarked { t with phase := .name } .headerField .headerField ht.marked rfl)
        (fun _ => Phase.noConfusion) (fun _ => rfl) State.noConfusion State.noConfusion
    · simp only [goto, advance, reduceCtorEq] at h
  · exact orderly_after _ .headerField [.count] _ (fun t ht => ⟨t, rfl, ht⟩)
      (orderly_fail _ q .invalidHeaderToken)

/-- A value begins: its mark is set, in a state that has a name. -/
theorem orderly_markValue (before : State) (q : HttpParser) (hbefore : valueState before = true)
    (hmark : markOf before = none) (hq : q.state = .headerValue) :
    Orderly before (advance q [.mark .headerValue]) := by
  intro t ht
  refine ⟨t.setMark .headerValue true, rfl, fun _ => ?_, fun _ h => ?_⟩
  · rw [show (advance q [.mark .headerValue]).parser.state = .headerValue from hq]
    exact fits_setMark t before .headerValue .headerValue ht hmark rfl
      (fun _ => ht.named hbefore) (fun _ => rfl)
  · simp only [advance, reduceCtorEq] at h

theorem orderly_headerValueStart (before : State) (q : HttpParser) (ch : Byte)
    (hbefore : valueState before = true) (hmark : markOf before = none) :
    Orderly before (headerValueStart q ch) := by
  unfold headerValueStart
  dsimp only
  split
  · exact orderly_markValue before _ hbefore hmark rfl
  · exact orderly_markValue before _ hbefore hmark rfl
  · split_ifs
    · exact orderly_fail before _ _
    · exact orderly_fail before _ _
    · exact orderly_markValue before _ hbefore hmark rfl
  · exact orderly_markValue before _ hbefore hmark rfl
  · exact orderly_markValue before _ hbefore hmark rfl
  · exact orderly_markValue before _ hbefore hmark rfl

theorem connectionKeyword_state (q : HttpParser) (flags : Flags) (ch : Byte) :
    (connectionKeyword q flags ch).state = q.state := by
  unfold connectionKeyword
  split_ifs <;> rfl

theorem orderly_headerValueChar (q : HttpParser) (ch : Byte) (hq : q.state = .headerValue) :
    Orderly .headerValue (headerValueChar q ch) := by
  unfold headerValueChar
  dsimp only
  split
  · exact orderly_plain _ q [] _ (Or.inl rfl) (Or.inl hq)
  · split_ifs
    · exact orderly_stay _ _ hq
    · exact orderly_fail _ _ _
    · exact orderly_fail _ _ _
    · exact orderly_stay _ _ hq
  · exact orderly_stay _ _ ((matching_state q _ _ _ _).trans hq)
  · exact orderly_stay _ _ hq
  · exact orderly_stay _ _ ((matching_state q _ _ _ _).trans hq)
  · exact orderly_stay _ _ ((matching_state q _ _ _ _).trans hq)
  · exact orderly_stay _ _ ((matching_state q _ _ _ _).trans hq)
  · split_ifs
    · exact orderly_stay _ _ hq
    · exact orderly_stay _ _ hq
  · split_ifs
    · exact orderly_stay _ _ hq
    · exact orderly_stay _ _ hq
  · exact orderly_stay _ _ ((connectionKeyword_state q _ ch).trans hq)
  · exact orderly_stay _ _ ((connectionKeyword_state q _ ch).trans hq)
  · exact orderly_stay _ _ ((connectionKeyword_state q _ ch).trans hq)
  · exact orderly_stay _ _ hq
  · exact orderly_stay _ _ hq
  · exact orderly_stay _ _ hq

/-- Reporting a value that is marked; the state guarantees a name. -/
theorem report_value (t : Progress) (hm : t.marked .headerValue = true) (ht : t.phase ≠ .fresh) :
    t.report .headerValue = some ({ t with phase := .value }.setMark .headerValue false) := by
  simp only [Progress.report, hm, ht, decide_false, Bool.and_false, Bool.false_eq_true, if_false,
    if_true]

/-- The progress after a value has been reported. -/
theorem fits_report_value (t : Progress) (s : State) (ht : t.Fits .headerValue)
    (hf : s ≠ .headerField) (hv : s ≠ .headerValue) :
    ({ t with phase := .value }.setMark .headerValue false).Fits s :=
  fits_of_unmarked _ s
    (unmarked { t with phase := .value } .headerValue .headerValue ht.marked rfl)
    (fun _ => Phase.noConfusion) (fun h => Phase.noConfusion h) hf hv

theorem orderly_headerValue (q : HttpParser) (skip : Option Nat) (ch : Byte)
    (hq : q.state = .headerValue) : Orderly .headerValue (headerValue q skip ch) := by
  unfold headerValue
  by_cases hskip : skip = some 0
  · rw [if_pos hskip]
    exact orderly_plain _ q [] _ (Or.inl rfl) (Or.inl hq)
  rw [if_neg hskip]
  -- A line ends here with a report, so there has to be a name.
  by_cases hcr : ch = CR
  · rw [if_pos hcr]
    intro t ht
    refine ⟨{ t with phase := .value }.setMark .headerValue false, ?_, fun _ => ?_, fun _ h => ?_⟩
    · simp only [goto, advance, List.foldlM_cons, List.foldlM_nil, Progress.perform,
        report_value t (ht.value rfl) (ht.named rfl), Option.pure_def, Option.bind_eq_bind,
        Option.bind_some]
    · exact fits_report_value t .headerAlmostDone ht State.noConfusion State.noConfusion
    · simp only [goto, advance, reduceCtorEq] at h
  rw [if_neg hcr]
  by_cases hlf : ch = LF
  · rw [if_pos hlf]
    refine orderly_after _ .headerAlmostDone _ _ (fun t ht => ?_)
      (orderly_expect _ _ _ _ _ _ rfl rfl)
    refine ⟨{ t with phase := .value }.setMark .headerValue false, ?_,
      fits_report_value t _ ht State.noConfusion State.noConfusion⟩
    simp only [List.foldlM_cons, List.foldlM_nil, Progress.perform,
      report_value t (ht.value rfl) (ht.named rfl), Option.pure_def, Option.bind_eq_bind,
      Option.bind_some]
  rw [if_neg hlf]
  -- Anything else belongs to the value, whether it is looked at or not.
  cases skip with
  | some k => exact orderly_plain _ q [] _ (Or.inl rfl) (Or.inl hq)
  | none =>
      dsimp only
      by_cases hch : (!isHeaderChar ch) = true
      · rw [if_pos hch]
        exact orderly_fail _ _ _
      · rw [if_neg hch]
        exact orderly_headerValueChar q ch hq

theorem orderly_headerValueDiscardLws (q : HttpParser) (ch : Byte) :
    Orderly .headerValueDiscardLws (headerValueDiscardLws q ch) := by
  unfold headerValueDiscardLws
  split_ifs
  · exact orderly_goto _ _ q [] (Or.inl rfl) rfl rfl
  · -- The empty value is marked and reported before the next line is read.
    refine orderly_after _ .headerFieldStart _ _ (fun t ht => ?_)
      (orderly_headerFieldStart _ _ _ rfl rfl)
    have hfit : (t.setMark .headerValue true).Fits .headerValue :=
      fits_setMark t _ .headerValue .headerValue ht rfl rfl (fun _ => ht.named rfl)
        (fun _ => rfl)
    refine ⟨_, ?_, fits_report_value _ .headerFieldStart hfit State.noConfusion
      State.noConfusion⟩
    simp only [List.foldlM_cons, List.foldlM_nil, Progress.perform,
      report_value _ (hfit.value rfl) (hfit.named rfl), Option.pure_def, Option.bind_eq_bind,
      Option.bind_some]

theorem orderly_startRes (q : HttpParser) (ch : Byte) (hq : q.state = .startRes) :
    Orderly .startRes (startRes q ch) := by
  unfold startRes
  dsimp only
  split_ifs
  · exact orderly_goto _ _ _ [] (Or.inl rfl) rfl rfl
  · exact orderly_stay _ _ hq
  · exact orderly_fail _ _ _

theorem orderly_resStatus (before : State) (q : HttpParser) (ch : Byte)
    (hmark : markOf before = none) (hname : nameState before = false)
    (hq : q.state = before ∨ q.state = .resStatus) : Orderly before (resStatus q ch) := by
  unfold resStatus
  split_ifs
  · exact orderly_goto _ .resLineAlmostDone q [] (Or.inl rfl) hmark
      (leads_of_valued before _ hname rfl)
  · exact orderly_goto _ .headerFieldStart q [] (Or.inl rfl) hmark
      (leads_of_valued before _ hname rfl)
  · refine orderly_plain before q [] none (Or.inl rfl) (hq.imp_right (fun h => ?_))
    rw [h]
    exact ⟨hmark, leads_of_valued before .resStatus hname rfl⟩

theorem orderly_resStatusStart (before : State) (q : HttpParser) (ch : Byte)
    (hmark : markOf before = none) (hname : nameState before = false) :
    Orderly before (resStatusStart q ch) := by
  unfold resStatusStart
  dsimp only
  split_ifs
  · exact orderly_resStatus before _ ch hmark hname (Or.inr rfl)
  · exact orderly_plain before _ [] none (Or.inl rfl)
      (Or.inr ⟨hmark, leads_of_valued before .resStatus hname rfl⟩)

theorem orderly_resStatusCode (q : HttpParser) (ch : Byte) (hq : q.state = .resStatusCode) :
    Orderly .resStatusCode (resStatusCode q ch) := by
  exact resStatusCode_rule (Orderly _) q ch (orderly_goto _ _ _ [] (Or.inl rfl) rfl rfl)
    (orderly_resStatusStart _ _ ch rfl rfl) (fun p _ => orderly_fail _ p _) (orderly_stay _ _ hq)

theorem orderly_chunkSize (q : HttpParser) (ch : Byte) (hq : q.state = .chunkSize) :
    Orderly .chunkSize (chunkSize q ch) :=
  chunkSize_rule (Orderly _) q ch (orderly_goto _ _ _ [] (Or.inl rfl) rfl rfl)
    (orderly_goto _ _ _ [] (Or.inl rfl) rfl rfl) (fun e => orderly_fail _ q e)
    (fun _ => orderly_stay _ _ hq)

/-- Every state handles a byte in an orderly way. -/
theorem byteStep_orderly (q : HttpParser) (skip : Option Nat) (ch : Byte) :
    Orderly q.state (byteStep q skip ch) := by
  unfold byteStep
  cases hq : q.state with
  | dead =>
      dsimp only
      split_ifs
      · exact orderly_stay _ q hq
      · exact orderly_fail _ q _
  | startRes => exact orderly_startRes q ch hq
  | resH => exact orderly_expect _ _ q ch _ _ rfl rfl
  | resHT => exact orderly_expect _ _ q ch _ _ rfl rfl
  | resHTT => exact orderly_expect _ _ q ch _ _ rfl rfl
  | resHTTP => exact orderly_expect _ _ q ch _ _ rfl rfl
  | resHttpMajor =>
      dsimp only [resHttpMajor]
      split_ifs
      · exact orderly_fail _ q _
      · exact orderly_goto _ _ _ [] (Or.inl rfl) rfl rfl
  | resHttpDot => exact orderly_expect _ _ q ch _ _ rfl rfl
  | resHttpMinor =>
      dsimp only [resHttpMinor]
      split_ifs
      · exact orderly_fail _ q _
      · exact orderly_goto _ _ _ [] (Or.inl rfl) rfl rfl
  | resHttpEnd => exact orderly_expect _ _ q ch _ _ rfl rfl
  | resFirstStatusCode =>
      dsimp only [resFirstStatusCode]
      split_ifs
      · exact orderly_stay _ q hq
      · exact orderly_fail _ q _
      · exact orderly_goto _ _ _ [] (Or.inl rfl) rfl rfl
  | resStatusCode => exact orderly_resStatusCode q ch hq
  | resStatusStart => exact orderly_resStatusStart _ q ch rfl rfl
  | resStatus => exact orderly_resStatus _ q ch rfl rfl (Or.inl hq)
  | resLineAlmostDone => exact orderly_expect _ _ q ch _ _ rfl rfl
  | headerFieldStart => exact orderly_headerFieldStart _ q ch rfl rfl
  | headerField => exact orderly_headerField q ch hq
  | headerValueDiscardWs =>
      exact headerValueDiscardWs_rule (Orderly _) q ch (orderly_stay _ q hq)
        (orderly_goto _ _ _ [] (Or.inl rfl) rfl rfl) (orderly_goto _ _ _ [] (Or.inl rfl) rfl rfl)
        (orderly_headerValueStart _ q ch rfl rfl)
  | headerValueDiscardWsAlmostDone =>
      exact orderly_expect _ _ q ch _ _ rfl rfl
  | headerValueDiscardLws => exact orderly_headerValueDiscardLws q ch
  | headerValueStart => exact orderly_headerValueStart _ q ch rfl rfl
  | headerValue => exact orderly_headerValue q skip ch hq
  | headerValueLws =>
      exact headerValueLws_rule (Orderly _) q ch (orderly_headerValueStart _ _ ch rfl rfl)
        (orderly_headerFieldStart _ _ ch rfl rfl)
  | headerAlmostDone => exact orderly_expect _ _ q ch _ _ rfl rfl
  | chunkSizeStart =>
      exact chunkSizeStart_rule (Orderly _) q ch (orderly_fail _ q _)
        (fun _ => orderly_goto _ _ _ [] (Or.inl rfl) rfl rfl)
  | chunkSize => exact orderly_chunkSize q ch hq
  | chunkParameters =>
      dsimp only
      split_ifs
      · exact orderly_goto _ _ _ [] (Or.inl rfl) rfl rfl
      · exact orderly_stay _ q hq
  | chunkSizeAlmostDone =>
      dsimp only [chunkSizeAlmostDone]
      split_ifs
      · exact orderly_fail _ q _
      · exact orderly_goto _ _ _ _ (Or.inr rfl) rfl rfl
      · exact orderly_goto _ _ _ _ (Or.inr rfl) rfl rfl
  | headersAlmostDone => exact orderly_headersAlmostDone _ q ch rfl rfl
  | headersDone => exact orderly_headersDone _ q ch rfl rfl
  | chunkData =>
      dsimp only [chunkData]
      split_ifs
      · exact orderly_markBody _ _ rfl rfl rfl rfl
      · refine orderly_markBody _ _ rfl ?_ ?_ rfl
        · rw [show markOf _ = markOf q.state from rfl, hq]
          rfl
        · rw [show valueState _ = valueState q.state from rfl, hq]
          rfl
  | chunkDataAlmostDone =>
      dsimp only [chunkDataAlmostDone]
      split_ifs
      · exact orderly_fail _ q _
      · -- The data of the chunk is reported.
        intro t ht
        refine ⟨t.setMark .body false, rfl, fun _ => ?_, fun _ h => ?_⟩
        · exact fits_of_unmarked _ .chunkDataDone (unmarked t _ .body ht.marked rfl)
            (fun h => (Bool.false_ne_true h).elim)
            (fun h => absurd (ht.valued h) Bool.false_ne_true) State.noConfusion
            State.noConfusion
        · simp only [goto, advance, reduceCtorEq] at h
  | chunkDataDone =>
      dsimp only [chunkDataDone]
      split_ifs
      · exact orderly_fail _ q _
      · exact orderly_goto _ _ _ _ (Or.inr rfl) rfl rfl
  | bodyIdentity =>
      dsimp only [bodyIdentity]
      split_ifs
      · -- The last byte: the body is reported, and then the message is done.
        intro t ht
        have hmarked : ∀ m, (t.setMark .body true).marked m = true →
            markOf .bodyIdentity = some m := by
          intro m h
          by_cases hm : m = .body
          · rw [hm]
            rfl
          · exact ht.marked m (by simpa only [Progress.setMark, hm, if_false] using h)
        refine ⟨_, rfl, fun h => ?_, fun _ _ => ⟨fun h => ?_,
          unmarked _ .bodyIdentity .body hmarked rfl⟩⟩
        · simp only [messageDone, complete, reduceCtorEq] at h
        · exact absurd (ht.valued h) Bool.false_ne_true
      · refine orderly_markBody _ _ rfl ?_ ?_ rfl
        · rw [show markOf _ = markOf q.state from rfl, hq]
          rfl
        · rw [show valueState _ = valueState q.state from rfl, hq]
          rfl
  | bodyIdentityEof =>
      exact orderly_markBody _ q rfl (by rw [hq]; rfl) (by rw [hq]; rfl) rfl
  | messageDone => exact orderly_complete _ _ [] .ifUpgrade (Or.inl rfl) rfl rfl

end HttpParser

end Wrk
