import Wrk.Http.Request
import Wrk.HttpParser.Chars
import Wrk.HttpParser.Passage

/-!
# The Request Line

The parser guesses the method from its first letter and corrects the guess
letter by letter. Whatever method of its table a request has, the guess is
right at the end.

## Main definitions

* `methodStep`, `methodWalk`: The guess, letter by letter.
* `inTarget`: The parser within a target.

## Theorems

* `methodOf_eq`: Every method is found.
* `passes_requestLine`: A request line.
-/

namespace Wrk

namespace HttpParser

namespace Request

open Http

/-! ### The method -/

/-- The guess after one more letter. -/
def methodStep (m : HttpMethod) (pos : Nat) (ch : Byte) : Option HttpMethod :=
  if ch = 0 || ch = ' '.toUInt8 then none
  else if ch = (methodStrings m).getD pos 0 then some m
  else if ('A'.toUInt8 ≤ ch && ch ≤ 'Z'.toUInt8) || ch = '-'.toUInt8 then otherMethod m pos ch
  else none

/-- The guess after some letters. -/
def methodWalk (m : HttpMethod) (pos : Nat) : Bytes → Option HttpMethod
  | [] => some m
  | ch :: data => (methodStep m pos ch).bind (fun m' => methodWalk m' (pos + 1) data)

/-- The guess after a whole word. -/
def methodOf : Bytes → Option HttpMethod
  | [] => none
  | ch :: data => if isAlpha ch then (firstMethod ch).bind (fun m => methodWalk m 1 data) else none

theorem methodOf_eq (m : HttpMethod) : methodOf (methodStrings m) = some m := by
  cases m <;> decide +kernel

/-- The parser within a method. -/
def inMethod (core : HttpParser) (m : HttpMethod) (pos : Nat) : RequestParser :=
  ⟨some .reqMethod, m, { core with index := pos }⟩

theorem step_inMethod (core : HttpParser) (m m' : HttpMethod) (pos : Nat) (ch : Byte)
    (h : methodStep m pos ch = some m') :
    step (inMethod core m pos) none ch = ⟨inMethod core m' (pos + 1), [], .next, none⟩ := by
  unfold methodStep at h
  have hstep : step (inMethod core m pos) none ch = reqMethod (inMethod core m pos) ch := rfl
  rw [hstep]
  unfold reqMethod
  by_cases hstop : ch = 0 ∨ ch = ' '.toUInt8
  · rw [if_pos (by simpa only [Bool.or_eq_true, decide_eq_true_eq] using hstop)] at h
    exact absurd h.symm (Option.some_ne_none m')
  · rw [if_neg (by simpa only [Bool.or_eq_true, decide_eq_true_eq] using hstop)] at h
    rw [not_or] at hstop
    rw [if_neg hstop.1]
    simp only [hstop.2, decide_false, Bool.false_and, Bool.false_eq_true, if_false]
    by_cases hexpected : ch = (methodStrings m).getD pos 0
    · rw [if_pos hexpected] at h
      rw [← Option.some.inj h]
      exact if_pos hexpected
    · rw [if_neg hexpected] at h
      refine (if_neg hexpected).trans ?_
      split_ifs at h with hletter
      rw [if_pos hletter]
      have hother : otherMethod (inMethod core m pos).method (inMethod core m pos).core.index ch =
          some m' := h
      rw [hother]
      rfl

/-- A guess that is corrected all the way. -/
theorem passes_methodWalk (core : HttpParser) (m m' : HttpMethod) (pos : Nat) (data : Bytes)
    (h : methodWalk m pos data = some m') :
    Passes (inMethod core m pos) data (inMethod core m' (pos + data.length)) := by
  induction data generalizing m pos with
  | nil =>
      rw [← Option.some.inj h]
      exact passes_nil _
  | cons ch data ih =>
      rcases Option.bind_eq_some_iff.mp h with ⟨m1, hstep, hrest⟩
      have hone := step_inMethod core m m1 pos ch hstep
      have hpass := passes_byte (inMethod core m pos) ch (by rw [hone])
      rw [hone] at hpass
      rw [List.length_cons, show pos + (data.length + 1) = pos + 1 + data.length by omega]
      exact passes_append _ _ _ [ch] data hpass (ih m1 (pos + 1) hrest)

/-- The parser where the target begins. -/
def beforeTarget (core : HttpParser) (m : HttpMethod) (pos : Nat) : RequestParser :=
  ⟨some .reqSpacesBeforeUrl, m, { core with
    flags := Flags.none
    contentLength := ullongMax
    index := pos }⟩

/-- A method and the space after it. What was known of another request is
    forgotten. -/
theorem passes_method (q : RequestParser) (m : HttpMethod) (hq : q.line = some .startReq) :
    ∃ pos, Passes q (methodStrings m ++ [SP]) (beforeTarget q.core m pos) := by
  have hmethod := methodOf_eq m
  cases hword : methodStrings m with
  | nil =>
      rw [hword] at hmethod
      exact absurd hmethod.symm (Option.some_ne_none m)
  | cons ch data =>
      rw [hword] at hmethod
      simp only [methodOf] at hmethod
      split_ifs at hmethod with halpha
      rcases Option.bind_eq_some_iff.mp hmethod with ⟨m0, hfirst, hwalk⟩
      have hend : ch ≠ CR ∧ ch ≠ LF := by
        refine ⟨?_, ?_⟩ <;> rintro rfl <;> exact absurd halpha (by decide +kernel)
      generalize hcore : ({ q.core with flags := Flags.none, contentLength := ullongMax } :
        HttpParser) = core
      have hstart : step q none ch = ⟨inMethod core m0 1, [], .next, none⟩ := by
        unfold step lineStep startReq
        rw [hq]
        simp only [hend.1, hend.2, decide_false, Bool.or_self, Bool.false_eq_true, if_false, halpha,
          Bool.not_true, hfirst]
        rw [← hcore]
        rfl
      have hone := passes_byte q ch (by rw [hstart])
      rw [hstart] at hone
      have hword' := passes_methodWalk core m0 m 1 data hwalk
      -- The space comes where the word has ended.
      have hspace : step (inMethod core m (1 + data.length)) none SP =
          ⟨beforeTarget q.core m (1 + data.length + 1), [], .next, none⟩ := by
        have hpast : (methodStrings m).getD (1 + data.length) 0 = 0 := by
          rw [hword, List.getD_eq_getElem?_getD, List.getElem?_eq_none, Option.getD_none]
          rw [List.length_cons]
          omega
        have hstep : step (inMethod core m (1 + data.length)) none SP =
          reqMethod (inMethod core m (1 + data.length)) SP := rfl
        rw [hstep]
        unfold reqMethod
        have hexpected : (methodStrings (inMethod core m (1 + data.length)).method).getD
          (inMethod core m (1 + data.length)).core.index 0 = 0 := hpast
        rw [hexpected, ← hcore]
        rfl
      have hlast := passes_byte (inMethod core m (1 + data.length)) SP (by rw [hspace])
      rw [hspace] at hlast
      exact ⟨_, passes_append _ _ _ [ch] _ hone (passes_append _ _ _ data [SP] hword' hlast)⟩

/-! ### The target -/

/-- The states of a path and a query. -/
def inTarget : LineState → Bool
  | .reqPath | .reqQueryStringStart | .reqQueryString => true
  | _ => false

theorem target_char (l : LineState) (ch : Byte) (hl : inTarget l = true)
    (hch : isTargetChar ch = true) :
    ch ≠ ' '.toUInt8 ∧ ch ≠ CR ∧ ch ≠ LF ∧ ∃ l', parseUrlChar l ch = some l' ∧
      inTarget l' = true := by
  have hall := byte_forall (fun ch => !isTargetChar ch ||
    (ch != ' '.toUInt8 && ch != CR && ch != LF &&
      (parseUrlChar .reqPath ch).any inTarget &&
      (parseUrlChar .reqQueryStringStart ch).any inTarget &&
      (parseUrlChar .reqQueryString ch).any inTarget)) (by decide +kernel) ch
  simp only [hch, Bool.not_true, Bool.false_or, Bool.and_eq_true, bne_iff_ne] at hall
  rcases hall with ⟨⟨⟨⟨⟨hsp, hcr⟩, hlf⟩, hpath⟩, hstart⟩, hquery⟩
  refine ⟨hsp, hcr, hlf, ?_⟩
  have hsome : ∀ o : Option LineState, o.any inTarget = true → ∃ l', o = some l' ∧
      inTarget l' = true := by
    intro o ho
    cases o with
    | none => exact absurd ho.symm (Bool.false_ne_true).symm
    | some l' => exact ⟨l', rfl, ho⟩
  cases l with
  | reqPath => exact hsome _ hpath
  | reqQueryStringStart => exact hsome _ hstart
  | reqQueryString => exact hsome _ hquery
  | _ => exact absurd hl.symm (Bool.false_ne_true).symm

/-- A target, from its first character to its last. -/
theorem passes_target (q : RequestParser) (target : Bytes)
    (hq : q.line = some .reqSpacesBeforeUrl) (hm : q.method ≠ .connect)
    (htarget : isOriginForm target = true) :
    ∃ l, inTarget l = true ∧ Passes q target { q with line := some l } := by
  cases target with
  | nil => exact absurd htarget.symm (Bool.false_ne_true).symm
  | cons ch rest =>
      simp only [isOriginForm, Bool.and_eq_true, beq_iff_eq] at htarget
      have hslash : step q none ch = ⟨{ q with line := some .reqPath }, [], .next, none⟩ := by
        unfold step lineStep reqSpacesBeforeUrl
        rw [hq, htarget.1]
        dsimp only
        rw [if_neg (by decide), if_neg hm]
        rfl
      have hone := passes_byte q ch (by rw [hslash])
      rw [hslash] at hone
      have hchar : ∀ (part : Bytes) (l : LineState) (ch : Byte), inTarget l = true →
          isTargetChar ch = true → ∃ l', Passes { q with line := some l } [ch]
            { q with line := some l' } ∧ inTarget l' = true := by
        intro part l ch hl hch
        rcases target_char l ch hl hch with ⟨hsp, hcr, hlf, l', hl', hin⟩
        have hstep : step { q with line := some l } none ch =
            ⟨{ q with line := some l' }, [], .next, none⟩ := by
          have hurl : step { q with line := some l } none ch =
              reqUrl { q with line := some l } l ch := by
            cases l with
            | reqPath | reqQueryStringStart | reqQueryString => rfl
            | _ => exact absurd hl.symm (Bool.false_ne_true).symm
          rw [hurl]
          unfold reqUrl urlChar
          rw [if_neg hsp, if_neg hcr, if_neg hlf, hl']
          rfl
        have hpass := passes_byte { q with line := some l } ch (by rw [hstep])
        rw [hstep] at hpass
        exact ⟨l', hpass, hin⟩
      rcases passes_loop (fun l => { q with line := some l }) (fun _ l => inTarget l = true)
        isTargetChar hchar rest [] .reqPath rfl htarget.2 with ⟨l, hrest, hl⟩
      exact ⟨l, hl, passes_append _ _ _ [ch] rest hone hrest⟩

/-! ### The whole line -/

/-- The parser where the fields begin. -/
def beforeFields (core : HttpParser) (pos : Nat) : HttpParser :=
  { core with
    state := .headerFieldStart
    flags := Flags.none
    contentLength := ullongMax
    index := pos
    httpMajor := 1
    httpMinor := 1 }

theorem passes_version (m : HttpMethod) (core : HttpParser) (l : LineState)
    (hl : inTarget l = true) :
    Passes ⟨some l, m, core⟩ (bytes " HTTP/1.1" ++ CRLF)
      ⟨none, m, { core with state := .headerFieldStart, httpMajor := 1, httpMinor := 1 }⟩ := by
  cases l with
  | reqPath | reqQueryStringStart | reqQueryString => rfl
  | _ => exact absurd hl.symm (Bool.false_ne_true).symm

/-- The request line leads to the fields, with nothing left of a request
    before. -/
theorem passes_requestLine (q : RequestParser) (r : Http.Request) (m : HttpMethod)
    (hq : q.line = some .startReq) (hm : m ≠ .connect) (hmethod : methodStrings m = r.method)
    (htarget : isOriginForm r.target = true) :
    ∃ pos, Passes q r.requestLine ⟨none, m, beforeFields q.core pos⟩ := by
  rcases passes_method q m hq with ⟨pos, hfirst⟩
  rcases passes_target (beforeTarget q.core m pos) r.target rfl hm htarget with ⟨l, hl, hpath⟩
  have hversion := passes_version m (beforeTarget q.core m pos).core l hl
  refine ⟨pos, ?_⟩
  unfold Http.Request.requestLine
  rw [← hmethod, List.append_assoc _ (bytes " HTTP/1.1") CRLF]
  exact passes_append _ _ _ _ _ (passes_append _ _ _ _ _ hfirst hpath) hversion

end Request

end HttpParser

end Wrk
