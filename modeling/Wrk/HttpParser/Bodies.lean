import Wrk.HttpParser.Heads

/-!
# Reading a Body

A body of a given length ends with its last byte, one without a length never
ends, and one in chunks ends with the empty line after its trailer. Only the
lines of a chunked body are counted, each of them from zero, and a size is
read as a length is: digit by digit, as long as another digit fits.

## Main definitions

* `fitsChunk`, `fitsBody`: The bodies in chunks that are read.

## Theorems

* `completedFrom_identity`: A body of a given length.
* `reads_untilEof`: A body without a length.
* `completedFrom_chunk`: One chunk and what follows it.
* `completedFrom_chunked`: A body in chunks.
-/

namespace Wrk

namespace HttpParser

open Http

/-- A byte of a body, which is not counted. -/
theorem reads_bodyByte (q q' : HttpParser) (ch : Byte) (ops : List Op) (hok : q.httpErrno = .ok)
    (hstep : byteStep q none ch = advance q' ops) (hheader : q.state.parsingHeader = false)
    (hspan : Exec.spanState q.state = false)
    (hops : ∀ n, n ≤ httpMaxHeaderSize → countOps 0 ops n = some n) : Reads q [ch] q' 0 := by
  have hread := reads_byte q ch hok (by rw [hstep]; rfl) (by rw [hstep]; exact hops)
  have hcost : byteCost q ch = 0 := by
    unfold byteCost headerByte staysInside
    rw [hheader, hspan, Bool.and_false]
    rfl
  rw [hcost, hstep] at hread
  exact hread

/-! ### A body of a given length -/

theorem byteStep_identity (q : HttpParser) (ch : Byte) (hs : q.state = .bodyIdentity) :
    byteStep q none ch = bodyIdentity q := by
  unfold byteStep
  rw [hs]

/-- Part of a body of a given length. -/
theorem reads_identity (data : Bytes) (q : HttpParser) (hok : q.httpErrno = .ok)
    (hs : q.state = .bodyIdentity) (hlen : data.length < q.contentLength) :
    Reads q data { q with contentLength := q.contentLength - data.length } 0 := by
  induction data generalizing q with
  | nil => exact reads_nil q
  | cons ch data ih =>
      rw [List.length_cons] at hlen ⊢
      -- Bytes are left after this one, so the message goes on.
      have hone : Reads q [ch] { q with contentLength := q.contentLength - 1 } 0 := by
        refine reads_bodyByte q _ ch [.mark .body] hok ?_ (by rw [hs]; rfl) (by rw [hs]; rfl)
          (fun _ _ => rfl)
        rw [byteStep_identity q ch hs]
        exact if_neg (by dsimp only; omega)
      have hrest := ih { q with contentLength := q.contentLength - 1 } hok hs
        (by change data.length < q.contentLength - 1; omega)
      have hall := reads_append q _ _ [ch] data 0 0 hone hrest
      have hsub : q.contentLength - 1 - data.length = q.contentLength - (data.length + 1) := by
        omega
      rw [← hsub]
      exact hall

/-- The last byte of a body of a given length completes the message. -/
theorem completedFrom_identity (data : Bytes) (ch : Byte) (q : HttpParser)
    (hok : q.httpErrno = .ok) (hs : q.state = .bodyIdentity)
    (hlen : data.length + 1 = q.contentLength) (n : Nat) (hn : n ≤ httpMaxHeaderSize) :
    CompletedFrom (counted n q) data ch := by
  have hread := reads_identity data q hok hs (by omega)
  rw [completedFrom_reads q _ data 0 ch n hn hread]
  constructor
  · unfold headerByte
    rw [show ({ q with contentLength := q.contentLength - data.length } : HttpParser).state =
      .bodyIdentity from hs]
    exact hn
  · rw [byteStep_identity { q with contentLength := q.contentLength - data.length } ch hs]
    unfold bodyIdentity
    dsimp only
    rw [if_pos (by omega)]
    exact ⟨_, rfl⟩

/-! ### A body without a length -/

theorem byteStep_untilEof (q : HttpParser) (ch : Byte) (hs : q.state = .bodyIdentityEof) :
    byteStep q none ch = advance q [.mark .body] := by
  unfold byteStep
  rw [hs]

/-- Without a length the body goes on. -/
theorem reads_untilEof (data : Bytes) (q : HttpParser) (hok : q.httpErrno = .ok)
    (hs : q.state = .bodyIdentityEof) : Reads q data q 0 := by
  induction data with
  | nil => exact reads_nil q
  | cons ch data ih =>
      exact reads_append q q q [ch] data 0 0 (reads_bodyByte q q ch [.mark .body] hok
        (byteStep_untilEof q ch hs) (by rw [hs]; rfl) (by rw [hs]; rfl) (fun _ _ => rfl)) ih

/-- No byte completes it. -/
theorem not_completedFrom_untilEof (data : Bytes) (ch : Byte) (q : HttpParser)
    (hok : q.httpErrno = .ok) (hs : q.state = .bodyIdentityEof) (n : Nat)
    (hn : n ≤ httpMaxHeaderSize) : ¬ CompletedFrom (counted n q) data ch := by
  rw [completedFrom_reads q q data 0 ch n hn (reads_untilEof data q hok hs)]
  rintro ⟨_, exit, hexit⟩
  rw [byteStep_untilEof q ch hs] at hexit
  exact Verdict.noConfusion hexit

/-! ### The line of a chunk -/

/-- The largest size another digit is read after. -/
def sizeLimit : Nat := (ullongMax - 16) / 16

/-- The parser inside the size of a chunk. -/
def InSize (q : HttpParser) : Prop := q.state = .chunkSize ∧ q.httpErrno = .ok

theorem inSize_char (q : HttpParser) (ch : Byte) (hs : q.state = .chunkSize)
    (hch : isHexDigit ch = true) :
    byteStep q none ch =
      if sizeLimit < q.contentLength then fail q .invalidContentLength
      else advance { q with contentLength := q.contentLength * 16 + hexDigit ch } [] := by
  rcases unhex_of_hex ch hch with ⟨hv, _, hcr⟩
  have hbyte : byteStep q none ch = chunkSize q ch := by
    unfold byteStep
    rw [hs]
  rw [hbyte]
  unfold chunkSize
  rw [if_neg hcr, hv]
  rfl

/-- The digits of a size after the first. -/
theorem reads_sizeDigits (digits : Bytes) (q : HttpParser) (hq : InSize q)
    (hdigits : digits.all isHexDigit = true) :
    ((digits = [] ∨ numeral 16 hexDigit q.contentLength digits / 16 ≤ sizeLimit) →
      Reads q digits { q with contentLength := numeral 16 hexDigit q.contentLength digits }
        (1 * digits.length)) ∧
    (digits ≠ [] → sizeLimit < numeral 16 hexDigit q.contentLength digits / 16 →
      Rejects q digits) := by
  refine reads_numeral 16 sizeLimit 1 hexDigit InSize isHexDigit
    (fun ch hch => (unhex_of_hex ch hch).2.1) ?_ ?_ (fun q n hq => hq) digits q hq hdigits
  · intro q ch hq hch hle
    refine reads_header q _ ch hq.2 ?_ (by rw [hq.1]; rfl) (by rw [hq.1]; rfl)
    rw [inSize_char q ch hq.1 hch, if_neg (Nat.not_lt.mpr hle)]
  · intro q ch hq hch hlt
    refine rejects_byte q ch .invalidContentLength ?_
    rw [inSize_char q ch hq.1 hch, if_pos hlt]
    rfl

/-- A size. -/
theorem reads_size (q : HttpParser) (ch : Byte) (more : Bytes) (hok : q.httpErrno = .ok)
    (hs : q.state = .chunkSizeStart) (hsize : (ch :: more).all isHexDigit = true) :
    (hexadecimal (ch :: more) / 16 ≤ sizeLimit →
      Reads q (ch :: more)
        { q with state := .chunkSize, contentLength := hexadecimal (ch :: more) }
        (ch :: more).length) ∧
    (sizeLimit < hexadecimal (ch :: more) / 16 → Rejects q (ch :: more)) := by
  rw [List.all_cons, Bool.and_eq_true] at hsize
  rcases unhex_of_hex ch hsize.1 with ⟨hv, hlt, _⟩
  have hfirst : Reads q [ch] { q with state := .chunkSize, contentLength := hexDigit ch } 1 := by
    refine reads_header q _ ch hok ?_ (by rw [hs]; rfl) (by rw [hs]; rfl)
    unfold byteStep
    rw [hs]
    dsimp only
    unfold chunkSizeStart
    rw [hv]
    rfl
  have hvalue : hexadecimal (ch :: more) = numeral 16 hexDigit (hexDigit ch) more := by
    change numeral 16 hexDigit (0 * 16 + hexDigit ch) more = _
    rw [Nat.zero_mul, Nat.zero_add]
  rcases reads_sizeDigits more { q with state := .chunkSize, contentLength := hexDigit ch }
    ⟨rfl, hok⟩ hsize.2 with ⟨hgood, hbad⟩
  rw [hvalue]
  constructor
  · intro hle
    have hrest := hgood (Or.inr hle)
    rw [Nat.one_mul] at hrest
    have hall := reads_append q _ _ [ch] more 1 _ hfirst hrest
    rw [Nat.add_comm] at hall
    exact hall
  · intro hgt
    -- A single digit fits whatever it is.
    have hne : more ≠ [] := by
      rintro rfl
      have hzero : numeral 16 hexDigit (hexDigit ch) [] / 16 = 0 := Nat.div_eq_of_lt hlt
      rw [hzero] at hgt
      exact absurd hgt (Nat.not_lt_zero _)
    exact reads_rejects q _ [ch] more 1 hfirst (hbad hne hgt)

/-- An extension, and the carriage return after it. -/
theorem reads_extension (q : HttpParser) (ext : Bytes) (hq : InSize q)
    (hext : isExtension ext = true) :
    Reads q (ext ++ [CR]) { q with state := .chunkSizeAlmostDone } (ext.length + 1) := by
  unfold isExtension at hext
  rw [Bool.and_eq_true] at hext
  cases hc : ext with
  | nil =>
      refine reads_header q _ CR hq.2 ?_ (by rw [hq.1]; rfl) (by rw [hq.1]; rfl)
      unfold byteStep
      rw [hq.1]
      exact if_pos rfl
  | cons ch more =>
      rw [hc, List.head?_cons, Option.all_some, beq_iff_eq, List.all_cons, Bool.and_eq_true] at hext
      -- An extension begins with a semicolon, and everything after it is skipped.
      have hfirst : Reads q [ch] { q with state := .chunkParameters } 1 := by
        refine reads_header q _ ch hq.2 ?_ (by rw [hq.1]; rfl) (by rw [hq.1]; rfl)
        unfold byteStep
        rw [hq.1, hext.1]
        rfl
      have hstay : ∀ c, isText c = true → Reads { q with state := .chunkParameters } [c]
          { q with state := .chunkParameters } 1 := by
        intro c hc
        exact reads_header { q with state := .chunkParameters } _ c hq.2
          (if_neg (headerChar_of_text c hc).2.1) rfl rfl
      have hmore := reads_stay _ isText 1 hstay more hext.2.2
      rw [Nat.one_mul] at hmore
      have hcr : Reads { q with state := .chunkParameters } [CR]
          { q with state := .chunkSizeAlmostDone } 1 :=
        reads_header { q with state := .chunkParameters } _ CR hq.2 rfl rfl rfl
      have hall := reads_append _ _ _ [ch] _ 1 _ hfirst
        (reads_append _ _ _ more [CR] _ 1 hmore hcr)
      rw [List.length_cons, show more.length + 1 + 1 = 1 + (more.length + 1) by omega]
      exact hall

/-- The parser after the line of a chunk. -/
def afterLine (q : HttpParser) (size : Nat) : HttpParser :=
  if size = 0 then
    { q with
      state := .headerFieldStart
      contentLength := 0
      flags := { q.flags with trailing := true } }
  else { q with state := .chunkData, contentLength := size }

/-- The line of a chunk. -/
theorem clears_line (q : HttpParser) (size ext : Bytes) (hok : q.httpErrno = .ok)
    (hs : q.state = .chunkSizeStart) (hne : size ≠ []) (hsize : size.all isHexDigit = true)
    (hext : isExtension ext = true) :
    (hexadecimal size / 16 ≤ sizeLimit →
      Clears q (size ++ ext ++ CRLF) (afterLine q (hexadecimal size))
        (size ++ ext ++ CRLF).length) ∧
    (sizeLimit < hexadecimal size / 16 → Rejects q (size ++ ext ++ CRLF)) := by
  cases hc : size with
  | nil => exact absurd hc hne
  | cons ch more =>
      rw [hc] at hsize
      -- The size decides; the rest of the line is read in any case.
      rcases reads_size q ch more hok hs hsize with ⟨hgood, hbad⟩
      generalize hn : hexadecimal (ch :: more) = n at hgood hbad
      rw [List.append_assoc]
      refine ⟨fun hle => ?_, fun hgt => rejects_append q _ _ (hbad hgt)⟩
      have hcr := reads_extension { q with state := .chunkSize, contentLength := n } ext ⟨rfl, hok⟩
        hext
      have hlf : Clears { q with state := .chunkSizeAlmostDone, contentLength := n } [LF]
          (afterLine q n) 1 := by
        have hstep : byteStep { q with state := .chunkSizeAlmostDone, contentLength := n } none LF =
            advance (afterLine q n) [.resetNread] := by
          unfold afterLine byteStep
          dsimp only
          unfold chunkSizeAlmostDone
          rw [if_neg (not_not.mpr rfl)]
          split_ifs with hzero
          · rw [show n = 0 from hzero]
            rfl
          · rfl
        have hclears := clears_byte { q with state := .chunkSizeAlmostDone, contentLength := n } LF
          hok (by rw [hstep]; rfl) rfl (by rw [hstep]; exact fun _ => rfl)
        rw [hstep] at hclears
        exact hclears
      have hline := reads_clears _ _ _ (ext ++ [CR]) [LF] _ 1 hcr hlf
      have hall := reads_clears q _ _ (ch :: more) _ _ _ (hgood hle) hline
      have hbytes : ext ++ CRLF = ext ++ [CR] ++ [LF] := by
        rw [List.append_assoc]
        rfl
      have hcost : (ch :: more ++ (ext ++ CRLF)).length =
          (ch :: more).length + (ext.length + 1 + 1) := by
        rw [List.length_append, List.length_append]
        rfl
      rw [hcost, hbytes]
      exact hall

/-! ### A chunk -/

theorem byteStep_chunkData (q : HttpParser) (ch : Byte) (hs : q.state = .chunkData) :
    byteStep q none ch = chunkData q := by
  unfold byteStep
  rw [hs]

/-- The bytes of a chunk. -/
theorem reads_chunkData (data : Bytes) (q : HttpParser) (hok : q.httpErrno = .ok)
    (hs : q.state = .chunkData) (hne : data ≠ []) (hlen : data.length = q.contentLength) :
    Reads q data { q with state := .chunkDataAlmostDone, contentLength := 0 } 0 := by
  induction data generalizing q with
  | nil => exact absurd rfl hne
  | cons ch data ih =>
      rw [List.length_cons] at hlen
      -- The last byte of the chunk changes the state, the others count down.
      cases hdata : data with
      | nil =>
          rw [hdata, List.length_nil] at hlen
          refine reads_bodyByte q _ ch [.mark .body] hok ?_ (by rw [hs]; rfl) (by rw [hs]; rfl)
            (fun _ _ => rfl)
          rw [byteStep_chunkData q ch hs]
          unfold chunkData
          rw [← hlen]
          rfl
      | cons next rest =>
          rw [← hdata]
          have hpos : data.length ≠ 0 := by
            rw [hdata]
            exact Nat.succ_ne_zero _
          have hone : Reads q [ch] { q with contentLength := q.contentLength - 1 } 0 := by
            refine reads_bodyByte q _ ch [.mark .body] hok ?_ (by rw [hs]; rfl) (by rw [hs]; rfl)
              (fun _ _ => rfl)
            rw [byteStep_chunkData q ch hs]
            exact if_neg (by dsimp only; omega)
          have hrest := ih { q with contentLength := q.contentLength - 1 } hok hs
            (List.ne_nil_of_length_pos (Nat.pos_of_ne_zero hpos))
            (by change data.length = q.contentLength - 1; omega)
          exact reads_append q _ _ [ch] data 0 0 hone hrest

/-- The bytes of a chunk and the end of its line. -/
theorem clears_chunkData (data : Bytes) (q : HttpParser) (hok : q.httpErrno = .ok)
    (hs : q.state = .chunkData) (hne : data ≠ []) (hlen : data.length = q.contentLength) :
    Clears q (data ++ CRLF) { q with state := .chunkSizeStart, contentLength := 0 } 0 := by
  have hcr : Reads { q with state := .chunkDataAlmostDone, contentLength := 0 } [CR]
      { q with state := .chunkDataDone, contentLength := 0 } 0 :=
    reads_bodyByte { q with state := .chunkDataAlmostDone, contentLength := 0 } _ CR [.emit .body]
      hok rfl rfl rfl (fun _ _ => rfl)
  have hlf : Clears { q with state := .chunkDataDone, contentLength := 0 } [LF]
      { q with state := .chunkSizeStart, contentLength := 0 } 0 :=
    clears_byte { q with state := .chunkDataDone, contentLength := 0 } LF hok rfl rfl
      (fun _ => rfl)
  exact reads_clears _ _ _ data CRLF 0 0 (reads_chunkData data q hok hs hne hlen)
    (reads_clears _ _ _ [CR] [LF] 0 0 hcr hlf)

/-- A chunk is read: its line is not too long, and another digit would have
    fit before the last of its size. -/
def fitsChunk (c : Chunk) : Bool :=
  c.line.length ≤ httpMaxHeaderSize && hexadecimal c.size / 16 ≤ sizeLimit

/-- Some digit stands in the size of a chunk. -/
theorem size_ne (c : Chunk) : c.size ≠ [] := by
  intro h
  have hfilled := c.filled
  have hsized := c.sized
  rw [h] at hsized
  rw [List.eq_nil_of_length_eq_zero hsized.symm] at hfilled
  exact absurd hfilled.symm Bool.false_ne_true

/-- A chunk, and what follows it. -/
theorem completedFrom_chunk (q : HttpParser) (c : Chunk) (b : Bytes) (ch : Byte)
    (hok : q.httpErrno = .ok) (hs : q.state = .chunkSizeStart) :
    CompletedFrom (counted 0 q) (c.bytes ++ b) ch ↔ fitsChunk c = true ∧
      CompletedFrom (counted 0 { q with contentLength := 0 }) b ch := by
  have hfilled : c.data ≠ [] := List.isEmpty_eq_false_iff.mp c.filled
  have hbytes : c.bytes ++ b = c.size ++ c.ext ++ CRLF ++ (c.data ++ CRLF ++ b) := by
    rw [Chunk.bytes, Chunk.line, List.append_assoc _ c.data CRLF, List.append_assoc]
  rcases clears_line q c.size c.ext hok hs (size_ne c) c.hex c.extension with ⟨hgood, hbad⟩
  rw [hbytes]
  unfold fitsChunk
  rw [Bool.and_eq_true, decide_eq_true_eq, decide_eq_true_eq]
  by_cases hle : hexadecimal c.size / 16 ≤ sizeLimit
  · have hline := hgood hle
    -- A chunk with data is not the last one.
    have hafter : afterLine q (hexadecimal c.size) =
        { q with state := .chunkData, contentLength := c.data.length } := by
      rw [afterLine, c.sized, if_neg (fun h => hfilled (List.eq_nil_of_length_eq_zero h))]
    rw [hafter] at hline
    have hdata := clears_chunkData c.data { q with
      state := .chunkData, contentLength := c.data.length } hok rfl hfilled rfl
    rw [completedFrom_clears q _ _ _ _ ch 0 (Nat.zero_le _) hline,
      completedFrom_clears _ _ _ _ _ ch 0 (Nat.zero_le _) hdata, Nat.zero_add, ← hs]
    exact ⟨fun h => ⟨⟨h.1, hle⟩, h.2.2⟩, fun h => ⟨h.1.1, Nat.zero_le _, h.2⟩⟩
  · refine ⟨fun h => absurd h ?_, fun h => absurd h.1.2 hle⟩
    exact not_completedFrom_rejects q _ ch 0 (Nat.zero_le _)
      (rejects_append q _ _ (hbad (Nat.lt_of_not_le hle)))

/-! ### A body in chunks -/

/-- A body in chunks is read: every chunk is, and neither the line of the last
    nor the trailer is too long. -/
def fitsBody (b : ChunkedBody) : Bool :=
  b.chunks.all fitsChunk && b.lastLine.length ≤ httpMaxHeaderSize &&
    fieldsCost b.trailer + 2 ≤ httpMaxHeaderSize

theorem completedFrom_chunks (chunks : List Chunk) (q : HttpParser) (b : Bytes) (ch : Byte)
    (hok : q.httpErrno = .ok) (hs : q.state = .chunkSizeStart) :
    ∃ n, CompletedFrom (counted 0 q) (chunks.flatMap Chunk.bytes ++ b) ch ↔
      chunks.all fitsChunk = true ∧
        CompletedFrom (counted 0 { q with contentLength := n }) b ch := by
  induction chunks generalizing q with
  | nil => exact ⟨q.contentLength, fun h => ⟨rfl, h⟩, fun h => h.2⟩
  | cons c chunks ih =>
      -- Every chunk leaves the parser where it was, but for the size it has counted down.
      rcases ih { q with contentLength := 0 } hok hs with ⟨n, hn⟩
      refine ⟨n, ?_⟩
      rw [List.flatMap_cons, List.append_assoc, completedFrom_chunk q c _ ch hok hs, hn,
        List.all_cons, Bool.and_eq_true, and_assoc]

theorem hexadecimal_zeros (zeros : Bytes) (h : zeros.all (· == '0'.toUInt8) = true) :
    hexadecimal zeros = 0 := by
  induction zeros with
  | nil => rfl
  | cons ch zeros ih =>
      rw [List.all_cons, Bool.and_eq_true, beq_iff_eq] at h
      rw [h.1]
      exact ih h.2

theorem zeros_hex (zeros : Bytes) (h : zeros.all (· == '0'.toUInt8) = true) :
    zeros.all isHexDigit = true := by
  rw [List.all_eq_true] at h ⊢
  intro ch hch
  rw [beq_iff_eq.mp (h ch hch)]
  rfl

/-- The fields of a trailer say nothing about the head. -/
theorem after_plain (fields : List Field) (f : Facts)
    (h : fields.all (fun fd => !fd.isContentLength && !fd.isTransferEncoding) = true) :
    fields.foldl Facts.after f = f ∧ fields.all readable = true ∧ OneLength f fields := by
  have hplain : ∀ fd ∈ fields, fd.isContentLength = false ∧ fd.isTransferEncoding = false := by
    intro fd hfd
    have hboth := List.all_eq_true.mp h fd hfd
    rw [Bool.and_eq_true, Bool.not_eq_true', Bool.not_eq_true'] at hboth
    exact hboth
  have hnone : fields.filter Field.isContentLength = [] :=
    List.filter_eq_nil_iff.mpr fun fd hfd => Bool.eq_false_iff.mp (hplain fd hfd).1
  refine ⟨?_, List.all_eq_true.mpr fun fd hfd => ?_, ?_, ?_⟩
  · -- None of the fields is one that changes the facts.
    clear hnone h
    induction fields with
    | nil => rfl
    | cons fd fields ih =>
        rcases hplain fd List.mem_cons_self with ⟨hcl, hte⟩
        have hsame : f.after fd = f := by
          unfold Facts.after
          rw [hte, hcl, if_neg Bool.false_ne_true, if_neg Bool.false_ne_true]
        rw [List.foldl_cons, hsame]
        exact ih fun g hg => hplain g (List.mem_cons_of_mem fd hg)
  · rw [readable, (hplain fd hfd).1]
    rfl
  · rw [hnone, List.length_nil, Nat.zero_add]
    split_ifs
    · exact Nat.le_refl 1
    · exact Nat.zero_le 1
  · rw [hnone]
    exact fun fd hfd => absurd hfd List.not_mem_nil

/-- The last line and the trailer. -/
theorem completedFrom_trailer (q : HttpParser) (b : ChunkedBody) (hok : q.httpErrno = .ok)
    (hs : q.state = .chunkSizeStart) (hboth : (q.flags.chunked && q.flags.contentLength) = false) :
    CompletedFrom (counted 0 q) (b.lastLine ++ (b.trailer.flatMap Field.bytes ++ [CR])) LF ↔
      b.lastLine.length ≤ httpMaxHeaderSize ∧ fieldsCost b.trailer + 2 ≤ httpMaxHeaderSize := by
  have hzero := hexadecimal_zeros b.zeros b.zero.2
  have hline := (clears_line q b.zeros b.ext hok hs (List.isEmpty_eq_false_iff.mp b.zero.1)
    (zeros_hex b.zeros b.zero.2) b.extension).1 (by rw [hzero]; exact Nat.zero_le _)
  rw [hzero] at hline
  -- The last line makes the parser read fields again, with the trailing flag set.
  have hstands : Stands (afterLine q 0) { facts q with length := 0, trailing := true } :=
    ⟨Or.inl rfl, rfl⟩
  rcases after_plain b.trailer { facts q with length := 0, trailing := true } b.plain with
    ⟨hafter, hread, hone⟩
  rcases (reads_fields (afterLine q 0) _ b.trailer hok hstands hone).1 hread with
    ⟨q', hfields, hq'⟩
  rw [hafter] at hq'
  rw [show b.lastLine = b.zeros ++ b.ext ++ CRLF from rfl,
    completedFrom_clears q _ _ _ _ LF 0 (Nat.zero_le _) hline, Nat.zero_add]
  refine and_congr_right fun _ => ?_
  -- The empty line completes the message, since this is a trailer.
  rw [completedFrom_append _ _ _ [CR] _ LF 0 (Nat.zero_le _) hfields, Nat.zero_add]
  constructor
  · rintro ⟨hle, hlast⟩
    exact (completedFrom_head q' _ hok hboth hq' rfl _ hle).mp hlast
  · intro hle
    have hcost : fieldsCost b.trailer ≤ httpMaxHeaderSize := by omega
    exact ⟨hcost, (completedFrom_head q' _ hok hboth hq' rfl _ hcost).mpr hle⟩

/-- A body in chunks is completed by its last byte if it is read. -/
theorem completedFrom_chunked (q : HttpParser) (b : ChunkedBody) (hok : q.httpErrno = .ok)
    (hs : q.state = .chunkSizeStart) (hboth : (q.flags.chunked && q.flags.contentLength) = false) :
    CompletedFrom (counted 0 q) (b.lines ++ [CR]) LF ↔ fitsBody b = true := by
  rcases completedFrom_chunks b.chunks q (b.lastLine ++ (b.trailer.flatMap Field.bytes ++ [CR])) LF
    hok hs with ⟨n, hn⟩
  have hbytes : b.lines ++ [CR] = b.chunks.flatMap Chunk.bytes ++
      (b.lastLine ++ (b.trailer.flatMap Field.bytes ++ [CR])) := by
    unfold ChunkedBody.lines
    simp only [List.append_assoc]
  rw [hbytes, hn, completedFrom_trailer { q with contentLength := n } b hok hs hboth]
  unfold fitsBody
  rw [Bool.and_eq_true, Bool.and_eq_true, decide_eq_true_eq, decide_eq_true_eq, and_assoc]

end HttpParser

end Wrk
