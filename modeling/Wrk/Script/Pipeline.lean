import Wrk.HttpParser.Requests
import Wrk.Script.Head
import Wrk.Script.VerifyRequest

/-!
# Pipelines

A script's `request()` may return several requests at once, and
`script_verify_request` finds out how many: so many responses are waited for.
What it is given was written by `wrk.format` as a rule. The two halves of the
program agree on conforming requests, whoever wrote them, and on what
`wrk.format` writes, if the names and values it is given may stand in a
request. Each text counts as one request.

## Main definitions

* `FormatCall`: A call of `wrk.format`, with the tables it finds.
* `FormatCall.Sendable`: A call whose text is a request.

## Theorems

* `requests_verified`: A string of conforming requests is counted right.
* `formatted_request`: The text of a call is that of a conforming request.
* `pipeline_verified`: A string of what calls write is counted right.
-/

namespace Wrk

namespace Script

open HttpParser HttpParser.Request

/-! ### Conforming requests -/

theorem verify_of_serves (text : Bytes) (k : Nat) (hk : 0 < k)
    (h : Serves Call.start (Call.start.feed text) text.length k) :
    scriptVerifyRequest text = .ok k := by
  rcases execute_feed text with ⟨_, hcount, hpos⟩
  have hpos' : (Request.execute text).2.2 = text.length := by
    rw [hpos, h.pos]
    exact Nat.zero_add _
  have hcount' : (Request.execute text).2.1 = k := by
    rw [hcount, h.count]
    exact Nat.zero_add _
  unfold scriptVerifyRequest
  dsimp only
  rw [hpos', hcount', if_neg]
  rw [Bool.or_eq_true, not_or]
  exact ⟨by simp, by simp only [decide_eq_true_eq]; omega⟩

theorem reading_start : Reading Call.start requestInit 0 :=
  ⟨rfl, rfl, Nat.le_refl 0, nofun, nofun⟩

/-- A string of conforming requests, each but the last of which lets the
    connection persist, is accepted, and the requests are counted. -/
theorem requests_verified (rs : List Http.Request) (last : Http.Request)
    (hrs : ∀ r ∈ rs, r.Conforming ∧ Fits r ∧ r.persists = true) (hlast : last.Conforming)
    (hfits : Fits last) :
    scriptVerifyRequest ((rs ++ [last]).flatMap Http.Request.bytes) = .ok (rs.length + 1) :=
  verify_of_serves _ _ (Nat.succ_pos _) (reading_requests Call.start requestInit rs last
    reading_start ⟨rfl, rfl⟩ hrs hlast hfits)

/-- A request with one field. -/
def askWith (method : Bytes) (f : Http.Field) (body : Bytes) : Http.Request :=
  ⟨method, bytes "/q?a=1", [f], body⟩

theorem requests_verified_two :
    let host := Http.Field.ofText (bytes "Host") (bytes "pipe:80") rfl (by decide +kernel)
      (by decide +kernel)
    let size := Http.Field.ofText (bytes "content-LENGTH") (bytes " 4 ") rfl (by decide +kernel)
      (by decide +kernel)
    let texts := [askWith (bytes "HEAD") host [], askWith (bytes "PUT") size (bytes "GET ")]
    texts.flatMap Http.Request.bytes =
        bytes ("HEAD /q?a=1 HTTP/1.1\r\nHost: pipe:80\r\n\r\n" ++
          "PUT /q?a=1 HTTP/1.1\r\ncontent-LENGTH:  4 \r\n\r\nGET ") ∧
      scriptVerifyRequest (texts.flatMap Http.Request.bytes) = .ok 2 := by
  intro host size texts
  refine ⟨by decide +kernel, requests_verified [askWith (bytes "HEAD") host []]
    (askWith (bytes "PUT") size (bytes "GET ")) (fun r hr => ?_) ⟨?_, ?_, ?_, ?_, ?_⟩
    ⟨⟨.put, nofun, rfl⟩, ?_, ?_⟩⟩
  · rw [List.mem_singleton.mp hr]
    exact ⟨⟨by decide +kernel, by decide +kernel, by decide +kernel, by decide +kernel,
      by decide +kernel⟩, ⟨⟨.head, nofun, rfl⟩, by decide +kernel, by decide +kernel⟩,
      by decide +kernel⟩
  all_goals decide +kernel

/-! ### What is formatted -/

/-- A call of `wrk.format`, with the tables it finds. -/
structure FormatCall (N R : Type) where
  pairs : Pairs N
  wrk : Fields R
  args : Args R
  heap : R → Headers N

namespace FormatCall

variable {N R : Type} [DecidableEq N] [Number N] [DecidableEq R]

def method (c : FormatCall N R) : Bytes := c.args.method.getD c.wrk.method

def path (c : FormatCall N R) : Bytes := c.args.path.getD c.wrk.path

def headers (c : FormatCall N R) : R := c.args.headers.getD c.wrk.headers

def body (c : FormatCall N R) : Option Bytes := c.args.body.or c.wrk.body

/-- What the call returns. -/
def formatted (c : FormatCall N R) : Formatted := (format c.pairs c.wrk c.args c.heap).1

/-- The headers, in the order in which they are printed. -/
def printed (c : FormatCall N R) : List (Scalar N × Scalar N) :=
  c.pairs.visit ((format c.pairs c.wrk c.args c.heap).2 c.headers)

/-- A header that may stand in a request. Its value has no end of line. -/
structure Header (e : Scalar N × Scalar N) : Prop where
  named : e.1.text.isEmpty = false
  token : e.1.text.all Http.isTokenChar = true
  text : e.2.text.all Http.isText = true
  uncoded : e.1.text.map Http.lowerCase ≠ TRANSFER_ENCODING

/-- A call whose text is a request, within the limits of the parser. -/
structure Sendable (c : FormatCall N R) : Prop where
  method : ∃ m, m ≠ .connect ∧ methodStrings m = c.method
  path : Http.isOriginForm c.path = true
  headers : ∀ e ∈ (c.heap c.headers).entries, Header (e.1, e.2)
  host : ∀ v ∈ (c.heap c.wrk.headers).lookup HOST, v.text.all Http.isText = true
  spelling : otherNames lengthWord CONTENT_LENGTH (c.heap c.headers) = []
  head : c.formatted.text.length ≤ httpMaxHeaderSize + (c.body.getD []).length
  body : (c.body.getD []).length < 2 ^ 63

/-- None of the call's own headers is about the connection. -/
def persists (c : FormatCall N R) : Prop :=
  ∀ e ∈ (c.heap c.headers).entries,
    e.1.text.map Http.lowerCase ≠ CONNECTION ∧ e.1.text.map Http.lowerCase ≠ PROXY_CONNECTION

end FormatCall

section Formatted

variable {N R : Type} [DecidableEq N] [Number N] [DecidableEq R]

/-- What is true of the entries a call finds, and of the two it makes, is true
    of those it prints. -/
theorem printed_entries (P : Scalar N × Scalar N → Prop) (c : FormatCall N R)
    (hlength : ∀ n, P (CONTENT_LENGTH, .number (Number.ofNat n)))
    (hhost : ∀ v ∈ (c.heap c.wrk.headers).lookup HOST, P (HOST, v))
    (hown : ∀ e ∈ (c.heap c.headers).entries, P (e.1, e.2)) : ∀ e ∈ c.printed, P e := by
  intro e he
  rcases List.mem_map.mp ((c.pairs.perm _).mem_iff.mp he) with ⟨entry, hentry, rfl⟩
  have hmem := AList.mem_lookup_iff.mpr hentry
  rw [format_lookup] at hmem
  have hold : ∀ name value : Scalar N, value ∈ (c.heap c.headers).lookup name → P (name, value) :=
    fun name value hv => hown ⟨name, value⟩ (AList.mem_lookup_iff.mp hv)
  by_cases hlen : entry.1 = CONTENT_LENGTH
  · rw [if_pos ⟨rfl, hlen⟩] at hmem
    rcases Option.map_eq_some_iff.mp hmem with ⟨text, _, hvalue⟩
    rw [hlen, ← hvalue]
    exact hlength text.length
  · rw [if_neg (fun h => hlen h.2)] at hmem
    by_cases hname : entry.1 = HOST
    · rw [if_pos ⟨rfl, hname⟩] at hmem
      rw [hname]
      unfold hostOf at hmem
      split_ifs at hmem
      · exact hold HOST _ hmem
      · exact hhost _ hmem
    · rw [if_neg (fun h => hname h.2)] at hmem
      exact hold _ _ hmem

/-- The lines that give a length: one if there is a body. -/
theorem printed_length_entry (c : FormatCall N R) (hspelling : otherNames lengthWord CONTENT_LENGTH
    (c.heap c.headers) = []) :
    c.printed.filter (fun e => isNamed lengthWord e.1.text) =
      (c.body.map (fun text => (CONTENT_LENGTH, .number (Number.ofNat text.length)))).toList := by
  have hcount := printed_lengths c.pairs c.wrk c.args c.heap
  rw [format_headers, lines_named, List.length_map] at hcount
  change (c.printed.filter (fun e => isNamed lengthWord e.1.text)).length =
    (otherNames lengthWord CONTENT_LENGTH (c.heap c.headers)).length +
      if c.body.isSome then 1 else 0 at hcount
  rw [hspelling, List.length_nil, Nat.zero_add] at hcount
  cases hbody : c.body with
  | none =>
      rw [hbody, Option.isSome_none, if_neg Bool.false_ne_true, List.length_eq_zero_iff] at hcount
      exact hcount
  | some text =>
      rw [hbody, Option.isSome_some, if_pos rfl] at hcount
      rcases List.length_eq_one_iff.mp hcount with ⟨e, he⟩
      -- There is one line, and it is the one that is set.
      have hmem := (List.mem_filter (p := fun e => isNamed lengthWord e.1.text)).mpr
        ⟨length_visited c.pairs c.wrk c.args c.heap text hbody, length_named⟩
      change _ ∈ c.printed.filter _ at hmem
      rw [he] at hmem ⊢
      rw [← List.mem_singleton.mp hmem]
      rfl

/-! ### Headers as fields -/

/-- The field of a header. -/
def fieldOf (e : {e : Scalar N × Scalar N // FormatCall.Header e}) : Http.Field :=
  Http.Field.ofText e.1.1.text e.1.2.text e.2.named e.2.token e.2.text

omit [DecidableEq N] in
theorem fieldOf_named (word : Bytes) (e : {e : Scalar N × Scalar N // FormatCall.Header e}) :
    (fieldOf e).isNamed word = isNamed word e.1.1.text := by
  -- A token has no colon in it.
  have hcolon : e.1.1.text.takeWhile (· ≠ Http.COLON) = e.1.1.text := by
    refine List.takeWhile_eq_self_iff.mpr fun ch hch => ?_
    have htoken := List.all_eq_true.mp e.2.token ch hch
    rw [decide_eq_true_eq]
    rintro rfl
    exact absurd htoken (by decide +kernel)
  unfold isNamed fieldName
  rw [hcolon, Bool.eq_iff_iff, beq_iff_eq]
  exact decide_eq_true_iff

omit [DecidableEq N] in
/-- The lines of the fields are those of the headers. -/
theorem fieldOf_lines (es : List {e : Scalar N × Scalar N // FormatCall.Header e}) :
    (es.map fieldOf).flatMap Http.Field.bytes =
      (es.map (fun e => headerLine e.1)).flatMap (fun l => l ++ Lines.endOfLine) := by
  rw [List.flatMap_map, List.flatMap_map]
  refine congrArg (fun line => es.flatMap line) (funext fun e => ?_)
  exact Http.ofText_bytes _ _ _ _ _

omit [DecidableEq N] in
theorem fieldOf_filter (word : Bytes)
    (es : List {e : Scalar N × Scalar N // FormatCall.Header e}) :
    (es.map fieldOf).filter (Http.Field.isNamed word) =
      (es.filter (fun e => isNamed word e.1.1.text)).map fieldOf := by
  rw [List.filter_map]
  exact congrArg (List.map fieldOf) (List.filter_congr fun e _ => fieldOf_named word e)

/-! ### Calls as requests -/

theorem decimal_natText (n : Nat) : Http.decimal (Decimal.natText n) = n := by
  have hstep : ∀ (digits : Bytes) (a : Nat),
      digits.foldl (fun n ch => n * 10 + (ch.toNat - 48)) a = Decimal.readFrom a digits := by
    intro digits a
    unfold Decimal.readFrom Decimal.digitValue
    simp only [Nat.mul_comm]
  exact (hstep _ 0).trans (Decimal.readFrom_natText n)

theorem natText_text (n : Nat) : (Decimal.natText n).all Http.isText = true ∧
    (Decimal.natText n).all Http.isDigit = true ∧
    ∀ ch ∈ Decimal.natText n, Http.isSpace ch = false := by
  have hall : Decimal.digitBytes.all
      (fun ch => Http.isText ch && Http.isDigit ch && !Http.isSpace ch) = true := by decide +kernel
  have hdigit : ∀ ch ∈ Decimal.natText n, Http.isText ch = true ∧ Http.isDigit ch = true ∧
      Http.isSpace ch = false := by
    intro ch hch
    have hch' := List.all_eq_true.mp hall ch (Decimal.natText_digits n ch hch)
    simp only [Bool.and_eq_true, Bool.not_eq_true'] at hch'
    exact ⟨hch'.1.1, hch'.1.2, hch'.2⟩
  exact ⟨List.all_eq_true.mpr fun ch hch => (hdigit ch hch).1,
    List.all_eq_true.mpr fun ch hch => (hdigit ch hch).2.1, fun ch hch => (hdigit ch hch).2.2⟩

omit [DecidableEq N] in
/-- The field of a length. -/
theorem fieldOf_length (e : {e : Scalar N × Scalar N // FormatCall.Header e}) (n : Nat)
    (he : e.1 = (CONTENT_LENGTH, .number (Number.ofNat n))) :
    (fieldOf e).value = Decimal.natText n ∧ (fieldOf e).trail = [] := by
  have htext : e.1.2.text = Decimal.natText n := by
    rw [he]
    exact Number.text_ofNat n
  rw [← htext]
  refine Http.ofText_value _ _ _ _ _ ?_
  rw [htext]
  exact (natText_text n).2.2

omit [DecidableEq N] in
/-- The two names that a call sets are names of fields, and of no others that
    matter here. -/
theorem set_names (name : Scalar N) (h : name = CONTENT_LENGTH ∨ name = HOST) :
    name.text.isEmpty = false ∧ name.text.all Http.isTokenChar = true ∧
      name.text.map Http.lowerCase ≠ TRANSFER_ENCODING ∧
      name.text.map Http.lowerCase ≠ CONNECTION ∧
      name.text.map Http.lowerCase ≠ PROXY_CONNECTION := by
  rcases h with rfl | rfl
  · change (bytes "Content-Length").isEmpty = false ∧
      (bytes "Content-Length").all Http.isTokenChar = true ∧
      (bytes "Content-Length").map Http.lowerCase ≠ TRANSFER_ENCODING ∧
      (bytes "Content-Length").map Http.lowerCase ≠ CONNECTION ∧
      (bytes "Content-Length").map Http.lowerCase ≠ PROXY_CONNECTION
    decide +kernel
  · change (bytes "Host").isEmpty = false ∧ (bytes "Host").all Http.isTokenChar = true ∧
      (bytes "Host").map Http.lowerCase ≠ TRANSFER_ENCODING ∧
      (bytes "Host").map Http.lowerCase ≠ CONNECTION ∧
      (bytes "Host").map Http.lowerCase ≠ PROXY_CONNECTION
    decide +kernel

/-- The headers that are printed may stand in a request. -/
theorem printed_sendable (c : FormatCall N R) (h : c.Sendable) :
    ∀ e ∈ c.printed, FormatCall.Header e := by
  refine printed_entries _ c (fun n => ?_) (fun v hv => ?_) h.headers
  · rcases set_names (CONTENT_LENGTH : Scalar N) (Or.inl rfl) with ⟨hnamed, htoken, huncoded, _⟩
    refine ⟨hnamed, htoken, ?_, huncoded⟩
    change (Number.text (Number.ofNat n : N)).all Http.isText = true
    rw [Number.text_ofNat]
    exact (natText_text n).1
  · rcases set_names (HOST : Scalar N) (Or.inr rfl) with ⟨hnamed, htoken, huncoded, _⟩
    exact ⟨hnamed, htoken, h.host v hv, huncoded⟩

/-- The request that a call writes. -/
def FormatCall.request (c : FormatCall N R)
    (es : List {e : Scalar N × Scalar N // FormatCall.Header e}) : Http.Request :=
  ⟨c.method, c.path, es.map fieldOf, c.body.getD []⟩

section Request

variable (c : FormatCall N R) (es : List {e : Scalar N × Scalar N // FormatCall.Header e})

theorem request_bytes (hes : es.map Subtype.val = c.printed) :
    (c.request es).bytes = c.formatted.text := by
  have hlines : (c.request es).fieldLines =
      c.formatted.headers.flatMap (fun l => l ++ Lines.endOfLine) := by
    have hheaders : c.formatted.headers = es.map (fun e => headerLine e.1) := by
      change c.printed.map headerLine = _
      rw [← hes, List.map_map]
      rfl
    rw [hheaders]
    exact fieldOf_lines es
  rw [text_eq_lines, List.flatMap_cons]
  unfold Http.Request.bytes Http.Request.head
  rw [hlines]
  rfl

/-- It has the length of the body, and no other. -/
theorem request_lengths (hes : es.map Subtype.val = c.printed)
    (hspelling : otherNames lengthWord CONTENT_LENGTH (c.heap c.headers) = []) :
    (c.body = none ∧ (c.request es).lengths = []) ∨
      ∃ text fd, c.body = some text ∧ (c.request es).lengths = [fd] ∧
        fd.value = Decimal.natText text.length ∧ fd.trail = [] := by
  have hfields : (c.request es).lengths =
      (es.filter (fun e => isNamed lengthWord e.1.1.text)).map fieldOf :=
    fieldOf_filter lengthWord es
  have hentries := printed_length_entry c hspelling
  rw [← hes, List.filter_map] at hentries
  change (es.filter (fun e => isNamed lengthWord e.1.1.text)).map Subtype.val = _ at hentries
  rw [hfields]
  cases hbody : c.body with
  | none =>
      rw [hbody] at hentries
      rw [List.map_eq_nil_iff.mp hentries]
      exact Or.inl ⟨rfl, rfl⟩
  | some text =>
      rw [hbody] at hentries
      rcases List.map_eq_singleton_iff.mp hentries with ⟨e, he, hvalue⟩
      rw [he]
      exact Or.inr ⟨text, fieldOf e, rfl, rfl, fieldOf_length e text.length hvalue⟩

/-- No printed header has a name that none of the call's has. -/
theorem request_unnamed (word : Bytes) (hes : es.map Subtype.val = c.printed)
    (hprinted : ∀ e ∈ c.printed, e.1.text.map Http.lowerCase ≠ word) :
    ∀ fd ∈ (c.request es).fields, fd.isNamed word = false := by
  intro fd hfd
  rcases List.mem_map.mp hfd with ⟨e, he, rfl⟩
  refine decide_eq_false (hprinted e.1 ?_)
  rw [← hes]
  exact List.mem_map_of_mem he

/-- The body has the length that is given, or there is none. -/
theorem request_contentLength (hes : es.map Subtype.val = c.printed)
    (hspelling : otherNames lengthWord CONTENT_LENGTH (c.heap c.headers) = []) :
    (c.request es).contentLength.getD 0 = (c.request es).body.length := by
  change _ = (c.body.getD []).length
  unfold Http.Request.contentLength
  rcases request_lengths c es hes hspelling with ⟨hbody, hl⟩ | ⟨text, fd, hbody, hl, hvalue, _⟩
  · rw [hl, hbody]
    rfl
  · rw [hl, hbody]
    change Http.decimal fd.value = text.length
    rw [hvalue, decimal_natText]

/-- What a call writes is a conforming request. -/
theorem request_conforming (h : c.Sendable) (hes : es.map Subtype.val = c.printed) :
    (c.request es).Conforming := by
  have hlengths := request_lengths c es hes h.spelling
  refine ⟨h.path, ?_, ?_, fun fd hfd => ?_, request_contentLength c es hes h.spelling⟩
  · rw [List.any_eq_false]
    intro fd hfd
    unfold Http.Field.isTransferEncoding
    rw [request_unnamed c es TRANSFER_ENCODING hes
      (fun e he => (printed_sendable c h e he).uncoded) fd hfd]
    exact Bool.false_ne_true
  · rcases hlengths with ⟨_, hl⟩ | ⟨_, fd, _, hl, _⟩ <;> rw [hl] <;> simp
  · rcases hlengths with ⟨_, hl⟩ | ⟨text, fd', _, hl, hvalue, _⟩
    · rw [hl] at hfd
      exact absurd hfd List.not_mem_nil
    · rw [hl] at hfd
      rw [List.mem_singleton.mp hfd, hvalue]
      exact ⟨List.isEmpty_eq_false_iff.mpr (Decimal.natText_ne_nil _), (natText_text _).2.1⟩

/-- The parser has room for it. -/
theorem request_fits (h : c.Sendable) (hes : es.map Subtype.val = c.printed) :
    Fits (c.request es) := by
  refine ⟨h.method, ?_, List.all_eq_true.mpr fun fd hfd => ?_⟩
  · have hhead := h.head
    rw [← request_bytes c es hes] at hhead
    unfold Http.Request.bytes at hhead
    rw [List.length_append] at hhead
    exact Nat.le_of_add_le_add_right hhead
  · by_cases hcl : fd.isContentLength = true
    · have hmem : fd ∈ (c.request es).lengths := List.mem_filter.mpr ⟨hfd, hcl⟩
      rcases request_lengths c es hes h.spelling with
        ⟨_, hl⟩ | ⟨text, fd', hbody, hl, hvalue, htrail⟩
      · rw [hl] at hmem
        exact absurd hmem List.not_mem_nil
      · rw [hl] at hmem
        have hlen := h.body
        rw [hbody] at hlen
        change text.length < 2 ^ 63 at hlen
        have hlimit : lengthLimit = 1844674407370955160 := by decide +kernel
        rw [List.mem_singleton.mp hmem]
        unfold readable
        rw [hvalue, htrail, decimal_natText, decide_eq_true (by rw [hlimit]; omega)]
        exact Bool.or_true _
    · unfold readable
      rw [Bool.eq_false_iff.mpr hcl]
      rfl

/-- It does not mention the connection unless the call's headers do. -/
theorem request_persists (hes : es.map Subtype.val = c.printed) (hpersists : c.persists) :
    (c.request es).persists = true := by
  have hown : ∀ e ∈ c.printed, e.1.text.map Http.lowerCase ≠ CONNECTION ∧
      e.1.text.map Http.lowerCase ≠ PROXY_CONNECTION :=
    printed_entries _ c (fun _ => (set_names _ (Or.inl rfl)).2.2.2)
      (fun _ _ => (set_names _ (Or.inr rfl)).2.2.2) hpersists
  unfold Http.Request.persists
  rw [Bool.not_eq_true', List.any_eq_false]
  intro fd hfd
  unfold Http.Field.isConnection
  rw [request_unnamed c es CONNECTION hes (fun e he => (hown e he).1) fd hfd,
    request_unnamed c es PROXY_CONNECTION hes (fun e he => (hown e he).2) fd hfd]
  exact Bool.false_ne_true

end Request

/-- The text of a call is that of a conforming request, for which the parser
    has room. -/
theorem formatted_request (c : FormatCall N R) (h : c.Sendable) :
    ∃ r : Http.Request, r.bytes = c.formatted.text ∧ r.Conforming ∧ Fits r ∧
      (c.persists → r.persists = true) := by
  have hes : (c.printed.attachWith FormatCall.Header (printed_sendable c h)).map Subtype.val =
      c.printed := List.attachWith_map_subtype_val _
  exact ⟨_, request_bytes c _ hes, request_conforming c _ h hes, request_fits c _ h hes,
    request_persists c _ hes⟩

/-- So are the texts of several calls. -/
theorem formatted_requests (cs : List (FormatCall N R)) (hcs : ∀ c ∈ cs, c.Sendable ∧ c.persists) :
    ∃ rs : List Http.Request, rs.length = cs.length ∧
      rs.flatMap Http.Request.bytes = cs.flatMap (fun c => c.formatted.text) ∧
      ∀ r ∈ rs, r.Conforming ∧ Fits r ∧ r.persists = true := by
  induction cs with
  | nil => exact ⟨[], rfl, rfl, nofun⟩
  | cons c cs ih =>
      rcases hcs c List.mem_cons_self with ⟨hc, hpersists⟩
      rcases formatted_request c hc with ⟨r, hr, hconforming, hfits, hkeeps⟩
      rcases ih (fun c' hc' => hcs c' (List.mem_cons_of_mem c hc')) with ⟨rs, hlen, htext, hrs⟩
      refine ⟨r :: rs, congrArg (· + 1) hlen, ?_, fun r' hr' => ?_⟩
      · rw [List.flatMap_cons, List.flatMap_cons, hr, htext]
      · rcases List.mem_cons.mp hr' with rfl | hr'
        · exact ⟨hconforming, hfits, hkeeps hpersists⟩
        · exact hrs r' hr'

/-- What calls of `wrk.format` write, put together, is counted as so many
    requests. -/
theorem pipeline_verified (cs : List (FormatCall N R)) (last : FormatCall N R)
    (hcs : ∀ c ∈ cs, c.Sendable ∧ c.persists) (hlast : last.Sendable) :
    scriptVerifyRequest ((cs ++ [last]).flatMap (fun c => c.formatted.text)) =
      .ok (cs.length + 1) := by
  rcases formatted_request last hlast with ⟨r, hr, hconforming, hfits, _⟩
  rcases formatted_requests cs hcs with ⟨rs, hlen, htext, hrs⟩
  have hall : (cs ++ [last]).flatMap (fun c => c.formatted.text) =
      (rs ++ [r]).flatMap Http.Request.bytes := by
    rw [List.flatMap_append, List.flatMap_append, htext, List.flatMap_singleton,
      List.flatMap_singleton, hr]
  rw [hall, ← hlen]
  exact verify_of_serves _ _ (Nat.succ_pos _) (reading_requests Call.start requestInit rs r
    reading_start ⟨rfl, rfl⟩ hrs hconforming hfits)

/-- A call of a script without an `init` of its own. -/
def callAfterInit (path : Bytes) (body : Option Bytes) : FormatCall Int Unit :=
  ⟨.latest Int, plainFields, ⟨none, some path, none, body⟩,
    tablesAfterInit [(bytes "Accept", bytes "text/plain")]⟩

/-- The headers of such a call may be sent. -/
theorem callAfterInit_sendable (path : Bytes) (body : Option Bytes)
    (hpath : Http.isOriginForm path = true)
    (hhead : (callAfterInit path body).formatted.text.length ≤
      httpMaxHeaderSize + (body.getD []).length) (hbody : (body.getD []).length < 2 ^ 63) :
    (callAfterInit path body).Sendable ∧ (callAfterInit path body).persists := by
  have hall : (tablesAfterInit [(bytes "Accept", bytes "text/plain")] ()).entries.all (fun e =>
      !e.1.text.isEmpty && e.1.text.all Http.isTokenChar && e.2.text.all Http.isText &&
        decide (e.1.text.map Http.lowerCase ≠ TRANSFER_ENCODING) &&
        decide (e.1.text.map Http.lowerCase ≠ CONNECTION) &&
        decide (e.1.text.map Http.lowerCase ≠ PROXY_CONNECTION)) = true := by decide +kernel
  have hown : ∀ e ∈ (tablesAfterInit [(bytes "Accept", bytes "text/plain")] ()).entries,
      FormatCall.Header (e.1, e.2) ∧ e.1.text.map Http.lowerCase ≠ CONNECTION ∧
        e.1.text.map Http.lowerCase ≠ PROXY_CONNECTION := by
    intro e he
    have h := List.all_eq_true.mp hall e he
    simp only [Bool.and_eq_true, Bool.not_eq_true', decide_eq_true_eq] at h
    exact ⟨⟨h.1.1.1.1.1, h.1.1.1.1.2, h.1.1.1.2, h.1.1.2⟩, h.1.2, h.2⟩
  have hhost : ((tablesAfterInit [(bytes "Accept", bytes "text/plain")] ()).lookup HOST) =
      some (.string (bytes "localhost")) := by decide +kernel
  have hset : (callAfterInit path body).body.getD [] = body.getD [] := by
    cases body <;> rfl
  refine ⟨⟨⟨.get, nofun, rfl⟩, hpath, fun e he => (hown e he).1, ?_, ?_, ?_, ?_⟩,
    fun e he => (hown e he).2⟩
  · intro v hv
    have heq := Option.some.inj (hhost.symm.trans hv)
    rw [← heq]
    change (bytes "localhost").all Http.isText = true
    decide +kernel
  · change otherNames lengthWord CONTENT_LENGTH
      (tablesAfterInit [(bytes "Accept", bytes "text/plain")] ()) = []
    decide +kernel
  · rw [hset]
    exact hhead
  · rw [hset]
    exact hbody

theorem pipeline_verified_two :
    [callAfterInit (bytes "/?foo") none, callAfterInit (bytes "/up") (some (bytes "abc"))].flatMap
        (fun c => c.formatted.text) =
      bytes "GET /?foo HTTP/1.1\r\nHost: localhost\r\nAccept: text/plain\r\n\r\n" ++
        bytes ("GET /up HTTP/1.1\r\nContent-Length: 3\r\nHost: localhost\r\n" ++
          "Accept: text/plain\r\n\r\nabc") ∧
      scriptVerifyRequest ([callAfterInit (bytes "/?foo") none,
        callAfterInit (bytes "/up") (some (bytes "abc"))].flatMap
          (fun c => c.formatted.text)) = .ok 2 := by
  have hfirst := callAfterInit_sendable (bytes "/?foo") none (by decide +kernel)
    (by decide +kernel) (by decide +kernel)
  have hlast := callAfterInit_sendable (bytes "/up") (some (bytes "abc")) (by decide +kernel)
    (by decide +kernel) (by decide +kernel)
  exact ⟨by decide +kernel, pipeline_verified [callAfterInit (bytes "/?foo") none]
    (callAfterInit (bytes "/up") (some (bytes "abc")))
    (fun c hc => (List.mem_singleton.mp hc) ▸ hfirst) hlast.1⟩

end Formatted

end Script

end Wrk
