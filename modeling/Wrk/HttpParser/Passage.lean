import Wrk.HttpParser.RequestRun

/-!
# Texts a Parser of Requests Passes

The states of the parser and its count of header bytes are looked at apart. A
text is passed from one parser to another if every byte of it leads on to the
next, whatever was counted. Within a call, where a whole string comes at once,
the count after some bytes of a head is no more than their number: a byte of a
name or a value is counted when its loop ends, and not before. So a call reads
a text that is passed, as long as it stays within the limit on a head.

## Main definitions

* `Modest`: How an outcome counts and skips.
* `pass`, `Passes`: A text is passed.
* `Reading`: A call that has come to a parser.

## Theorems

* `coreStep_modest`: Every handler is modest.
* `reading_byte`, `reading_passes`: A call within a head.
* `reading_reset`: The end of a head.
* `reading_outside`: A call within a body.
-/

namespace Wrk

namespace HttpParser

namespace Request

open Exec (spanState)

/-! ### What an outcome counts -/

/-- An outcome that counts at most once, and not inside a span that goes on,
    and lets a jump begin only inside a value of no interest. -/
structure Modest (before : State) (o : Out) : Prop where
  once : CountsOnce o.ops
  inside : o.verdict = .next → o.parser.state = before → spanState before = true →
    ∀ span n, countOps span o.ops n = some n
  skip : ∀ k, o.skip = some k →
    o.parser.state = .headerValue ∧ o.parser.headerState = .general ∧ k + 1 = httpMaxHeaderSize

section Modesty

variable (before : State) (m : HttpMethod) (q : HttpParser) (ch : Byte)

theorem modest_of_frugal (o : Out) (h : Frugal before o) : Modest before o :=
  ⟨h.once, h.inside, fun k hk => ⟨(h.skip k hk).2.1, (h.skip k hk).2.2.1, (h.skip k hk).2.2.2.2⟩⟩

/-- An outcome of a state outside the loops. -/
theorem modest_outside (o : Out) (hspan : spanState before = false) (honce : CountsOnce o.ops)
    (hskip : o.skip = none) : Modest before o :=
  ⟨honce, fun _ _ h => absurd (hspan.symm.trans h) Bool.false_ne_true,
    fun k hk => absurd (hskip.symm.trans hk) (Option.some_ne_none k).symm⟩

theorem modest_headersDone (hspan : spanState before = false) :
    Modest before (headersDone m q ch) := by
  unfold headersDone
  dsimp only
  split_ifs
  · exact modest_outside _ _ hspan (.idle fun _ _ => rfl) rfl
  all_goals exact modest_outside _ _ hspan countsOnce_reset rfl

theorem modest_headersAlmostDone (hspan : spanState before = false) :
    Modest before (headersAlmostDone m q ch) := by
  unfold headersAlmostDone
  split_ifs
  · exact modest_outside _ _ hspan (.idle fun _ _ => rfl) rfl
  · exact modest_outside _ _ hspan (.idle fun _ _ => rfl) rfl
  · exact modest_outside _ _ hspan (.idle fun _ _ => rfl) rfl
  all_goals exact modest_headersDone before m _ ch hspan

theorem modest_headerFieldStart (hspan : spanState before = false) :
    Modest before (headerFieldStart m q ch) := by
  unfold headerFieldStart
  split_ifs
  · exact modest_headersAlmostDone before m _ ch hspan
  · exact modest_of_frugal before _ (frugal_headerFieldStart before q ch hspan)

/-- Every handler is modest when no jump is under way. -/
theorem coreStep_modest : Modest q.state (coreStep m q none ch) := by
  have hbyte := modest_of_frugal _ _ (byteStep_frugal q ch)
  have hfail : Modest q.state (fail q .unknown) :=
    modest_of_frugal _ _ (frugal_fail q.state q .unknown)
  unfold coreStep
  cases hq : q.state with
  | headerFieldStart => exact modest_headerFieldStart _ m q ch rfl
  | headersAlmostDone => exact modest_headersAlmostDone _ m q ch rfl
  | headersDone => exact modest_headersDone _ m q ch rfl
  | headerValueLws =>
      exact headerValueLws_rule (Modest _) m q ch
        (modest_of_frugal _ _ (frugal_headerValueStart _ _ ch))
        (modest_headerFieldStart _ m _ ch rfl)
  | headerValueDiscardLws =>
      refine headerValueDiscardLws_rule (Modest _) m q ch
        (modest_outside _ _ rfl (.idle fun _ _ => rfl) rfl) ?_
      -- Reporting an empty value counts nothing.
      have h := modest_headerFieldStart .headerValueDiscardLws m
        { finishHeader q with state := .headerFieldStart } ch rfl
      refine ⟨?_, fun _ _ hspan => absurd hspan Bool.false_ne_true, h.skip⟩
      cases h.once with
      | idle h => exact .idle h
      | count h => exact .count h
      | reset h => exact .reset h
  | startRes | resH | resHT | resHTT | resHTTP | resHttpMajor | resHttpDot | resHttpMinor
  | resHttpEnd | resFirstStatusCode | resStatusCode | resStatusStart | resStatus
  | resLineAlmostDone | bodyIdentityEof =>
      rw [hq] at hfail
      exact hfail
  | _ =>
      rw [hq] at hbyte
      exact hbyte

end Modesty

/-- A byte of the request line only leads on. -/
theorem lineStep_mute (l : LineState) (q : RequestParser) (ch : Byte) :
    (lineStep l q ch).ops = [] ∧ (lineStep l q ch).skip = none := by
  have hurl : ∀ l', (urlChar q l' ch).ops = [] ∧ (urlChar q l' ch).skip = none := by
    intro l'
    unfold urlChar
    cases parseUrlChar l' ch <;> exact ⟨rfl, rfl⟩
  have hexpect : ∀ wanted e l', (expectLine q ch wanted e l').ops = [] ∧
      (expectLine q ch wanted e l').skip = none := by
    intro wanted e l'
    unfold expectLine
    split_ifs <;> exact ⟨rfl, rfl⟩
  have hreq : ∀ l', (reqUrl q l' ch).ops = [] ∧ (reqUrl q l' ch).skip = none := fun l' =>
    reqUrl_rule (fun o => o.ops = [] ∧ o.skip = none) q ch l' ⟨rfl, rfl⟩ ⟨rfl, rfl⟩ ⟨rfl, rfl⟩
      (hurl l')
  cases l with
  | startReq =>
      simp only [lineStep, startReq]
      split_ifs
      · exact ⟨rfl, rfl⟩
      · exact ⟨rfl, rfl⟩
      · cases firstMethod ch <;> exact ⟨rfl, rfl⟩
  | reqMethod =>
      simp only [lineStep, reqMethod]
      split_ifs
      · exact ⟨rfl, rfl⟩
      · exact ⟨rfl, rfl⟩
      · exact ⟨rfl, rfl⟩
      · cases otherMethod q.method q.core.index ch <;> exact ⟨rfl, rfl⟩
      · exact ⟨rfl, rfl⟩
  | reqSpacesBeforeUrl =>
      exact reqSpacesBeforeUrl_rule (fun o => o.ops = [] ∧ o.skip = none) q ch ⟨rfl, rfl⟩ hurl
  | reqSchema | reqSchemaSlash | reqSchemaSlashSlash | reqServerStart => exact hurl _
  | reqServer | reqServerWithAt | reqPath | reqQueryStringStart | reqQueryString
  | reqFragmentStart | reqFragment => exact hreq _
  | reqHttpH | reqHttpHT | reqHttpHTT | reqHttpHTTP | reqHttpDot => exact hexpect _ _ _
  | reqHttpStart | reqHttpMajor | reqHttpMinor | reqHttpEnd | reqLineAlmostDone =>
      simp only [lineStep, reqHttpStart, reqHttpMajor, reqHttpMinor, reqHttpEnd, reqLineAlmostDone]
      split_ifs <;> exact ⟨rfl, rfl⟩

theorem step_modest (q : RequestParser) (ch : Byte) (hline : q.line = none) :
    Modest q.core.state (coreStep q.method q.core none ch) ∧
      step q none ch = ⟨{ q with core := (coreStep q.method q.core none ch).parser },
        (coreStep q.method q.core none ch).ops, (coreStep q.method q.core none ch).verdict,
        (coreStep q.method q.core none ch).skip⟩ := by
  refine ⟨coreStep_modest q.method q.core ch, ?_⟩
  unfold step
  rw [hline]

theorem step_once (q : RequestParser) (ch : Byte) : CountsOnce (step q none ch).ops := by
  cases hline : q.line with
  | none =>
      rcases step_modest q ch hline with ⟨hmodest, hstep⟩
      rw [hstep]
      exact hmodest.once
  | some l =>
      unfold step
      rw [hline]
      dsimp only
      rw [(lineStep_mute l q ch).1]
      exact .idle fun _ _ => rfl

/-! ### Passing a text -/

/-- The parser after a text of which every byte leads on. -/
def pass (q : RequestParser) : Bytes → Option RequestParser
  | [] => some q
  | ch :: data =>
      if (step q none ch).verdict = .next then pass (step q none ch).parser data else none

/-- A text is passed, whatever has been counted. -/
def Passes (q : RequestParser) (data : Bytes) (q' : RequestParser) : Prop :=
  pass (counted 0 q) data = some (counted 0 q')

theorem pass_counted (n : Nat) (q : RequestParser) (data : Bytes) :
    pass (counted n q) data = (pass q data).map (counted n) := by
  induction data generalizing q with
  | nil => rfl
  | cons ch data ih =>
      have hverdict : ((step q none ch).counted n).verdict = (step q none ch).verdict := rfl
      have hparser : ((step q none ch).counted n).parser = counted n (step q none ch).parser := rfl
      simp only [pass]
      rw [step_counted, hverdict, hparser]
      by_cases hv : (step q none ch).verdict = .next
      · rw [if_pos hv, if_pos hv]
        exact ih (step q none ch).parser
      · rw [if_neg hv, if_neg hv]
        rfl

theorem pass_append (q q' : RequestParser) (a b : Bytes) (h : pass q a = some q') :
    pass q (a ++ b) = pass q' b := by
  induction a generalizing q with
  | nil => rw [Option.some.inj h, List.nil_append]
  | cons ch a ih =>
      simp only [pass, List.cons_append] at h ⊢
      by_cases hv : (step q none ch).verdict = .next
      · rw [if_pos hv] at h ⊢
        exact ih _ h
      · rw [if_neg hv] at h
        exact absurd h.symm (Option.some_ne_none q')

theorem passes_nil (q : RequestParser) : Passes q [] q := rfl

theorem passes_append (q q1 q2 : RequestParser) (a b : Bytes) (ha : Passes q a q1)
    (hb : Passes q1 b q2) : Passes q (a ++ b) q2 :=
  (pass_append (counted 0 q) (counted 0 q1) a b ha).trans hb

/-- One byte. -/
theorem passes_byte (q : RequestParser) (ch : Byte) (hv : (step q none ch).verdict = .next) :
    Passes q [ch] (step q none ch).parser := by
  unfold Passes
  rw [pass_counted]
  simp only [pass]
  rw [if_pos hv]
  rfl

theorem passes_cons (q q' : RequestParser) (ch : Byte) (data : Bytes)
    (h : Passes q (ch :: data) q') :
    (step q none ch).verdict = .next ∧ Passes (step q none ch).parser data q' := by
  unfold Passes at h ⊢
  rw [pass_counted] at h ⊢
  simp only [pass] at h
  by_cases hv : (step q none ch).verdict = .next
  · rw [if_pos hv] at h
    exact ⟨hv, h⟩
  · rw [if_neg hv] at h
    exact absurd h.symm (Option.some_ne_none _)

/-- A loop of the source: what holds depends on the bytes passed so far. Only
    part of the parser may be of interest. -/
theorem passes_loop {σ : Type} (view : σ → RequestParser) (J : Bytes → σ → Prop)
    (ok : Byte → Bool)
    (hbyte : ∀ part s ch, J part s → ok ch = true →
      ∃ s', Passes (view s) [ch] (view s') ∧ J (part ++ [ch]) s')
    (data part : Bytes) (s : σ) (hs : J part s) (hdata : data.all ok = true) :
    ∃ s', Passes (view s) data (view s') ∧ J (part ++ data) s' := by
  induction data generalizing part s with
  | nil =>
      rw [List.append_nil]
      exact ⟨s, passes_nil (view s), hs⟩
  | cons ch data ih =>
      rw [List.all_cons, Bool.and_eq_true] at hdata
      rcases hbyte part s ch hs hdata.1 with ⟨s1, hpass, hJ⟩
      rcases ih (part ++ [ch]) s1 hJ hdata.2 with ⟨s2, hrest, hlast⟩
      rw [List.append_cons]
      exact ⟨s2, passes_append _ _ _ [ch] data hpass hrest, hlast⟩

/-! ### A call -/

/-- A call that has come to a parser, and has counted no more than a number
    of bytes. -/
structure Reading (x : Call) (q : RequestParser) (i : Nat) : Prop where
  parser : counted 0 x.parser = counted 0 q
  returned : x.returned = none
  few : x.parser.core.nread + (x.span.getD 1 - 1) ≤ i
  span : x.span.isSome = true → q.line = none ∧ spanState q.core.state = true
  skip : ∀ k, x.skip = some k → httpMaxHeaderSize ≤ k + i ∧ q.line = none ∧
    q.core.state = .headerValue ∧ q.core.headerState = .general

/-- Parsers that differ in the count are the same to a call. -/
theorem reading_same (x : Call) (q q' : RequestParser) (i : Nat) (h : Reading x q i)
    (hsame : counted 0 q = counted 0 q') : Reading x q' i := by
  have hn := congrArg (counted q'.core.nread) hsame
  have hq : counted q'.core.nread q = q' := hn
  refine ⟨h.parser.trans hsame, h.returned, h.few, ?_, ?_⟩
  · rw [← hq]
    exact h.span
  · rw [← hq]
    exact h.skip

/-- What a byte adds to the count. -/
def headCost (q : RequestParser) : Nat := if Call.parsingHeader q then 1 else 0

section Reading

variable (x : Call) (q : RequestParser) (i : Nat) (ch : Byte)

theorem reading_counted (h : Reading x q i) : x.parser = counted x.parser.core.nread q := by
  have hparser := congrArg (counted x.parser.core.nread) h.parser
  exact hparser

/-- What the call does with a byte, as the parser does it. -/
structure Follows (o o' : RequestOut) : Prop where
  parser : counted 0 o.parser = counted 0 o'.parser
  ops : o.ops = o'.ops
  verdict : o.verdict = o'.verdict

/-- A jump that is under way changes nothing but how far it may still go. -/
theorem step_follows (h : Reading x q i) (hi : i < httpMaxHeaderSize)
    (hok : ∀ e, (step q none ch).verdict ≠ .fail e) :
    Follows (step x.parser x.skip ch) (step q none ch) ∧
      ∀ k, (step x.parser x.skip ch).skip = some k →
        httpMaxHeaderSize ≤ k + (i + 1) ∧ (step q none ch).parser.line = none ∧
          (step q none ch).parser.core.state = .headerValue ∧
          (step q none ch).parser.core.headerState = .general := by
  -- A jump that begins may go on to the limit.
  have hbegin : ∀ k, (step q none ch).skip = some k → httpMaxHeaderSize ≤ k + (i + 1) ∧
      (step q none ch).parser.line = none ∧ (step q none ch).parser.core.state = .headerValue ∧
      (step q none ch).parser.core.headerState = .general := by
    intro k hk
    cases hline : q.line with
    | some l =>
        unfold step at hk
        rw [hline] at hk
        exact absurd ((lineStep_mute l q ch).2.symm.trans hk) (Option.some_ne_none k).symm
    | none =>
        rcases step_modest q ch hline with ⟨hmodest, hstep⟩
        rw [hstep] at hk ⊢
        rcases hmodest.skip k hk with ⟨hs, hg, hmax⟩
        exact ⟨by omega, hline, hs, hg⟩
  rw [reading_counted x q i h, step_counted]
  cases hskip : x.skip with
  | none => exact ⟨⟨rfl, rfl, rfl⟩, hbegin⟩
  | some k =>
      rcases h.skip k hskip with ⟨hle, hline, hs, hg⟩
      have hcore : ∀ skip, step q skip ch =
          ⟨{ q with core := (byteStep q.core skip ch).parser }, (byteStep q.core skip ch).ops,
            (byteStep q.core skip ch).verdict, (byteStep q.core skip ch).skip⟩ := by
        intro skip
        unfold step coreStep
        rw [hline]
        dsimp only
        rw [hs]
      rw [hcore none] at hok hbegin ⊢
      rw [hcore (some k)]
      rcases byteStep_skip q.core ch k hs hg (by omega) hok with heq | ⟨hnone, hsome⟩
      · rw [heq]
        exact ⟨⟨rfl, rfl, rfl⟩, hbegin⟩
      · rw [hnone, hsome]
        refine ⟨⟨rfl, rfl, rfl⟩, fun k' hk' => ?_⟩
        rw [← Option.some.inj hk']
        exact ⟨by omega, hline, hs, hg⟩

/-- The count when a byte is about to be handled, with what its span adds. -/
theorem reading_counts (h : Reading x q i) (hi : i + headCost q ≤ httpMaxHeaderSize) :
    ∃ c, x.counts = some c ∧ c + x.span.getD 0 ≤ i + headCost q := by
  have hfew := h.few
  have hheader : Call.parsingHeader x.parser = Call.parsingHeader q := by
    rw [reading_counted x q i h]
    rfl
  unfold Call.counts
  rw [hheader]
  unfold headCost at hi ⊢
  cases hspan : x.span with
  | none =>
      rw [hspan] at hfew
      simp only [Option.getD_none, Nat.sub_self, Nat.add_zero, Option.isNone_none,
        Bool.true_and] at hfew ⊢
      by_cases hq : Call.parsingHeader q = true
      · rw [if_pos hq] at hi
        rw [if_pos hq, if_pos hq, if_neg (by omega)]
        exact ⟨_, rfl, by omega⟩
      · rw [if_neg hq, if_neg hq]
        exact ⟨_, rfl, hfew⟩
  | some k =>
      -- Inside a loop nothing is counted until it ends.
      rcases h.span (by rw [hspan]; rfl) with ⟨hline, hstate⟩
      have hq : Call.parsingHeader q = true := by
        unfold Call.parsingHeader
        rw [hline]
        unfold spanState at hstate
        rw [Bool.or_eq_true, decide_eq_true_eq, decide_eq_true_eq] at hstate
        rcases hstate with hs | hs <;> rw [hs] <;> rfl
      rw [hspan] at hfew
      simp only [Option.getD_some] at hfew ⊢
      rw [if_pos hq, if_neg (by exact Bool.false_ne_true)]
      exact ⟨_, rfl, by omega⟩

/-- The count after a byte. It is cleared, or grows by no more than the byte
    costs; and if the byte stays in a loop nothing is counted. -/
theorem reading_tally (h : Reading x q i) (hi : i + headCost q ≤ httpMaxHeaderSize)
    (hops : (step x.parser x.skip ch).ops = (step q none ch).ops) :
    ∃ n, x.tally ch = some n ∧ n ≤ i + headCost q ∧
      ((∀ span m, countOps span (step q none ch).ops m = some m) →
        n + x.span.getD 0 ≤ i + headCost q) ∧
      ((∀ span m, countOps span (step q none ch).ops m = some 0) → n = 0) := by
  rcases reading_counts x q i h hi with ⟨c, hc, hle⟩
  unfold Call.tally
  rw [hc, Option.bind_some, hops]
  cases step_once q ch with
  | idle hidle =>
      rw [hidle]
      refine ⟨c, rfl, by omega, fun _ => hle, fun hreset => ?_⟩
      exact Option.some.inj ((hidle 0 c).symm.trans (hreset 0 c))
  | count hcount =>
      rw [hcount]
      have hfits : countOps (x.span.getD 0) [.count] c = some (c + x.span.getD 0) :=
        if_neg (by omega)
      rw [hfits]
      refine ⟨_, rfl, hle, fun hidle => ?_, fun hreset => ?_⟩
      · -- What counts nothing has nothing to count.
        have hsame := (hcount (x.span.getD 0) c).symm.trans (hidle (x.span.getD 0) c)
        rw [hfits, Option.some.injEq] at hsame
        omega
      · have hzero := (hcount (x.span.getD 0) c).symm.trans (hreset (x.span.getD 0) c)
        rw [hfits, Option.some.injEq] at hzero
        exact hzero
  | reset hreset =>
      rw [hreset]
      refine ⟨0, rfl, Nat.zero_le _, fun hidle => ?_, fun _ => rfl⟩
      have hspan := (hreset (x.span.getD 0) 1).symm.trans (hidle (x.span.getD 0) 1)
      exact absurd (Option.some.inj hspan) (by decide)

/-- A parser that stays in a loop, as a call sees it. -/
theorem reading_inside (h : Reading x q i) (o : RequestOut)
    (ho : counted 0 o.parser = counted 0 (step q none ch).parser) (n : Nat)
    (hinside : Call.inside x.parser (counted n o.parser) = true) :
    q.line = none ∧ (step q none ch).parser.line = none ∧
      (step q none ch).parser.core.state = q.core.state ∧ spanState q.core.state = true := by
  have ho' : counted n o.parser = counted n (step q none ch).parser := by
    have hn := congrArg (counted n) ho
    exact hn
  rw [reading_counted x q i h, ho'] at hinside
  unfold Call.inside at hinside
  simp only [Bool.and_eq_true, decide_eq_true_eq] at hinside
  rcases hinside with ⟨⟨⟨hq, hstep⟩, hsame⟩, hspan⟩
  exact ⟨Option.isNone_iff_eq_none.mp hq, Option.isNone_iff_eq_none.mp hstep, hsame.symm, hspan⟩

/-- The call after a byte that leads on, by what is counted then. -/
theorem reading_after (j n : Nat) (h : Reading x q i)
    (hf : Follows (step x.parser x.skip ch) (step q none ch)) (hn : n ≤ j)
    (hspan : Call.inside x.parser (counted n (step x.parser x.skip ch).parser) = true →
      n + x.span.getD 0 ≤ j)
    (hskip : ∀ k, (step x.parser x.skip ch).skip = some k → httpMaxHeaderSize ≤ k + j ∧
      (step q none ch).parser.line = none ∧ (step q none ch).parser.core.state = .headerValue ∧
      (step q none ch).parser.core.headerState = .general) :
    Reading (x.afterNext ch n) (step q none ch).parser j := by
  refine ⟨hf.parser, h.returned, ?_, ?_, hskip⟩
  · change n + ((if Call.inside x.parser (counted n (step x.parser x.skip ch).parser) then
      some (x.span.getD 0 + 1) else none).getD 1 - 1) ≤ j
    split_ifs with hinside
    · exact hspan hinside
    · exact hn
  · change (if Call.inside x.parser (counted n (step x.parser x.skip ch).parser) then
      some (x.span.getD 0 + 1) else none).isSome = true → _
    split_ifs with hinside
    · intro _
      rcases reading_inside x q i ch h _ hf.parser n hinside with ⟨_, hline, hsame, hloop⟩
      rw [hsame]
      exact ⟨hline, hloop⟩
    · exact fun hnone => absurd hnone Bool.false_ne_true

theorem headCost_le : headCost q ≤ 1 := by
  unfold headCost
  split_ifs
  · exact Nat.le_refl 1
  · exact Nat.zero_le 1

/-- A byte that stays in a loop counts nothing. -/
theorem step_stays (hv : (step q none ch).verdict = .next) (hline : q.line = none)
    (hsame : (step q none ch).parser.core.state = q.core.state)
    (hloop : spanState q.core.state = true) (span m : Nat) :
    countOps span (step q none ch).ops m = some m := by
  rcases step_modest q ch hline with ⟨hmodest, hstep⟩
  rw [hstep] at hv hsame ⊢
  exact hmodest.inside hv hsame hloop span m

/-- A byte that leads on within a head. -/
theorem reading_next (h : Reading x q i) (hi : i < httpMaxHeaderSize)
    (hv : (step q none ch).verdict = .next) :
    Reading (x.byte ch) (step q none ch).parser (i + 1) ∧ (x.byte ch).pos = x.pos + 1 ∧
      (x.byte ch).count = x.count := by
  have hcost := headCost_le q
  rcases step_follows x q i ch h hi (fun e he => nomatch hv.symm.trans he) with ⟨hf, hskip⟩
  rcases reading_tally x q i ch h (by omega) hf.ops with ⟨n, htally, hn, hidle, _⟩
  rw [byte_next x ch n h.returned htally (hf.verdict.trans hv)]
  refine ⟨reading_after x q i ch (i + 1) n h hf (by omega) (fun hinside => ?_) hskip, rfl, rfl⟩
  rcases reading_inside x q i ch h _ hf.parser n hinside with ⟨hline, _, hsame, hloop⟩
  have hle := hidle (step_stays q ch hv hline hsame hloop)
  omega

/-- The byte that ends a head, after which the count starts again. -/
theorem reading_reset (h : Reading x q i) (hi : i < httpMaxHeaderSize)
    (hv : (step q none ch).verdict = .next)
    (hops : ∀ span m, countOps span (step q none ch).ops m = some 0)
    (hout : q.line = none → spanState q.core.state = false)
    (hsame : (step q none ch).parser.core.state ≠ .headerValue) :
    Reading (x.byte ch) (step q none ch).parser 0 ∧ (x.byte ch).pos = x.pos + 1 ∧
      (x.byte ch).count = x.count := by
  have hcost := headCost_le q
  rcases step_follows x q i ch h hi (fun e he => nomatch hv.symm.trans he) with ⟨hf, hskip⟩
  rcases reading_tally x q i ch h (by omega) hf.ops with ⟨n, htally, _, _, hreset⟩
  rw [byte_next x ch n h.returned htally (hf.verdict.trans hv), hreset hops]
  refine ⟨reading_after x q i ch 0 0 h hf (Nat.le_refl 0) (fun hinside => ?_)
    (fun k hk => absurd (hskip k hk).2.2.1 hsame), rfl, rfl⟩
  rcases reading_inside x q i ch h _ hf.parser 0 hinside with ⟨hline, _, _, hloop⟩
  exact absurd ((hout hline).symm.trans hloop) Bool.false_ne_true

/-- A byte that leads on outside a head. -/
theorem reading_outside (h : Reading x q i) (hi : i < httpMaxHeaderSize)
    (hv : (step q none ch).verdict = .next) (hheader : Call.parsingHeader q = false)
    (hsame : (step q none ch).parser.core.state ≠ .headerValue) :
    Reading (x.byte ch) (step q none ch).parser i ∧ (x.byte ch).pos = x.pos + 1 ∧
      (x.byte ch).count = x.count := by
  have hcost : headCost q = 0 := if_neg (by rw [hheader]; exact Bool.false_ne_true)
  rcases step_follows x q i ch h hi (fun e he => nomatch hv.symm.trans he) with ⟨hf, hskip⟩
  rcases reading_tally x q i ch h (by omega) hf.ops with ⟨n, htally, hn, hidle, _⟩
  rw [byte_next x ch n h.returned htally (hf.verdict.trans hv)]
  refine ⟨reading_after x q i ch i n h hf (by omega) (fun hinside => ?_)
    (fun k hk => absurd (hskip k hk).2.2.1 hsame), rfl, rfl⟩
  rcases reading_inside x q i ch h _ hf.parser n hinside with ⟨hline, _, hstay, hloop⟩
  have hle := hidle (step_stays q ch hv hline hstay hloop)
  omega

theorem newMessage_counted (n : Nat) :
    newMessage (counted n q) = counted n (newMessage q) := by
  have hkeep : httpShouldKeepAlive (counted n q).core = httpShouldKeepAlive q.core := rfl
  unfold newMessage
  rw [hkeep]
  split_ifs <;> rfl

/-- The byte that completes a message. -/
theorem reading_complete (h : Reading x q i) (hi : i < httpMaxHeaderSize) (exit : Exit)
    (hv : (step q none ch).verdict = .complete exit)
    (hops : (∀ span m, countOps span (step q none ch).ops m = some 0) ∨ i + headCost q = 0) :
    (x.byte ch).pos = x.pos + 1 ∧ (x.byte ch).count = x.count + 1 ∧
      ReturnsPos (x.byte ch) ∧
      (stops exit (newMessage (step q none ch).parser) = false →
        Reading (x.byte ch) (newMessage (step q none ch).parser) 0) := by
  have hcost := headCost_le q
  rcases step_follows x q i ch h hi (fun e he => nomatch hv.symm.trans he) with ⟨hf, _⟩
  rcases reading_tally x q i ch h (by omega) hf.ops with ⟨n, htally, hn, _, hreset⟩
  have hzero : n = 0 := hops.elim hreset (fun hz => Nat.le_zero.mp (hz ▸ hn))
  have hparser : newMessage (x.handled ch n).parser =
      counted 0 (newMessage (step q none ch).parser) := by
    rw [← newMessage_counted, hzero]
    exact congrArg newMessage hf.parser
  rw [byte_complete x ch n exit h.returned htally (hf.verdict.trans hv)]
  unfold Call.afterComplete ReturnsPos
  rw [hparser]
  have hstops : stops exit (counted 0 (newMessage (step q none ch).parser)) =
      stops exit (newMessage (step q none ch).parser) := rfl
  refine ⟨rfl, rfl, ?_, fun hgo => ⟨rfl, ?_, Nat.le_refl 0, nofun, nofun⟩⟩
  · dsimp only
    split_ifs
    · exact Or.inr rfl
    · exact Or.inl rfl
  · dsimp only
    rw [hstops, hgo]
    rfl

end Reading

/-- A text that is passed within a head. -/
theorem reading_passes (x : Call) (q q' : RequestParser) (i : Nat) (data : Bytes)
    (h : Reading x q i) (hdata : Passes q data q')
    (hi : i + data.length ≤ httpMaxHeaderSize) :
    Reading (x.feed data) q' (i + data.length) ∧ (x.feed data).pos = x.pos + data.length ∧
      (x.feed data).count = x.count := by
  induction data generalizing x q i with
  | nil =>
      exact ⟨reading_same x q q' i h (Option.some.inj hdata), rfl, rfl⟩
  | cons ch data ih =>
      rw [List.length_cons] at hi ⊢
      rcases passes_cons q q' ch data hdata with ⟨hv, hrest⟩
      rcases reading_next x q i ch h (by omega) hv with ⟨hread, hpos, hcount⟩
      rcases ih (x.byte ch) _ (i + 1) hread hrest (by omega) with ⟨hread', hpos', hcount'⟩
      rw [show i + (data.length + 1) = i + 1 + data.length by omega]
      refine ⟨hread', ?_, hcount'.trans hcount⟩
      have hfeed : x.feed (ch :: data) = (x.byte ch).feed data := rfl
      rw [hfeed]
      omega

end Request

end HttpParser

end Wrk
