import Wrk.HttpParser.Alike
import Wrk.HttpParser.Body
import Mathlib.Data.List.Induction

/-!
# Reporting a Response Once

What it means that a response is reported exactly once, and at its end. The
response may begin anywhere in a call of the parser, after another that has
just completed, and may reach the parser in chunks of any sizes; its last
chunk may go on with bytes of the next response. A response that lasts until
the stream ends is reported by the call that says so.

The chunks that are hardest on the parser are single bytes. So a text is
reported at its last byte in every split exactly if it is when it comes one
byte at a time, which is decided by one run of the parser.

## Main definitions

* `Exec.Begins`: A call that is about to read a message.
* `Delivers`: A text is reported once, by its last byte.
* `DeliversAtEnd`: A text is reported once, by the end of the stream.
* `Follows`: Callbacks that report what others do.

## Theorems

* `delivers_follows`, `deliversAtEnd_follows`: The same text is reported once.
* `chunks_behind`: Chunks of a stream that is accepted one byte at a time.
* `byte_completes`: The byte that completes a message.
* `delivers_iff`, `deliversAtEnd_iff`: One run decides.
-/

namespace Wrk

namespace HttpParser

variable {σ : Type*}

/-- A call that is about to read a message, at its start or after a message
    that has just completed. -/
structure Exec.Begins (x : Exec σ) : Prop where
  returned : x.returned = none
  parser : x.parser = httpParserInit
  span : x.locals.span = none
  skip : x.locals.skip = none

/-- A text is reported once, by its last byte: the chunks before the last are
    read to their ends and report nothing, and when the last byte has been
    read there has been one report. What that means is said of the states of
    the callbacks. -/
def Delivers (s : Settings σ) (none one : σ → σ → Prop) (text : Bytes) : Prop :=
  ∀ x : Exec σ, x.Begins → ∀ (parts : List Bytes) (last : Bytes), (∀ data ∈ parts, data ≠ []) →
    last ≠ [] → parts.flatten ++ last = text →
      ∃ y, x.chunks s parts = some y ∧ none x.user y.user ∧ one x.user (y.feed s last).user

/-- A text is reported once, by the end of the stream after it. -/
def DeliversAtEnd (s : Settings σ) (none one : σ → σ → Prop) (text : Bytes) : Prop :=
  ∀ x : Exec σ, x.Begins → ∀ parts : List Bytes, (∀ data ∈ parts, data ≠ []) →
    parts.flatten = text →
      ∃ y, x.chunks s parts = some y ∧ none x.user y.user ∧
        one x.user (execute s y.parser y.user []).2.1

/-- As many messages, and one more. -/
def Same (u v : List HttpParser) : Prop := v.length = u.length
def More (u v : List HttpParser) : Prop := v.length = u.length + 1

/-! ### Other callbacks -/

/-- Every state of one kind of callbacks is related to one of another kind, and
    what is said of the second kind says the same of the first. -/
def Follows {τ : Type*} (s : Settings σ) (t : Settings τ) (none one : σ → σ → Prop)
    (none' one' : τ → τ → Prop) : Prop :=
  ∀ u : σ, ∃ (v : τ) (R : σ → τ → Prop), Matches s t R ∧ R u v ∧
    ∀ u' v', R u' v' → (none' v v' → none u u') ∧ (one' v v' → one u u')

section Other

variable {τ : Type*} (s : Settings σ) (t : Settings τ) (none one : σ → σ → Prop)
  (none' one' : τ → τ → Prop) (text : Bytes)

theorem delivers_follows (hf : Follows s t none one none' one')
    (h : Delivers t none' one' text) : Delivers s none one text := by
  intro x hx parts last hparts hlast htext
  rcases hf x.user with ⟨v, R, hm, hR, hmeans⟩
  rcases h { x with user := v } ⟨hx.returned, hx.parser, hx.span, hx.skip⟩ parts last hparts hlast
    htext with ⟨y', hy', hnone, hone⟩
  rcases chunks_alike s t R hm parts x { x with user := v } y' ⟨rfl, rfl, rfl, rfl, hR⟩ hy' with
    ⟨x', hx', halike⟩
  -- The last chunk may go on, so it is fed and not ended.
  have hfeed := feed_alike s t R hm last x' y' halike
  exact ⟨x', hx', (hmeans _ _ halike.user).1 hnone, (hmeans _ _ hfeed.user).2 hone⟩

theorem deliversAtEnd_follows (hf : Follows s t none one none' one')
    (h : DeliversAtEnd t none' one' text) : DeliversAtEnd s none one text := by
  intro x hx parts hparts htext
  rcases hf x.user with ⟨v, R, hm, hR, hmeans⟩
  rcases h { x with user := v } ⟨hx.returned, hx.parser, hx.span, hx.skip⟩ parts hparts htext with
    ⟨y', hy', hnone, hone⟩
  rcases chunks_alike s t R hm parts x { x with user := v } y' ⟨rfl, rfl, rfl, rfl, hR⟩ hy' with
    ⟨x', hx', halike⟩
  have hend := endOfStream_alike s t R hm x'.parser x'.user y'.user halike.user
  rw [← halike.parser] at hone
  exact ⟨x', hx', (hmeans _ _ halike.user).1 hnone, (hmeans _ _ hend).2 hone⟩

end Other

/-! ### Chunks -/

theorem begins_behind (P : σ → Prop) (x : Exec σ) (h : x.Begins) (hP : P x.user) :
    Behind P httpParserInit x x.pos := by
  refine ⟨⟨h.returned, ?_, rfl, rfl, hP⟩, ?_, Nat.zero_le _, State.noConfusion, fun j hj => ?_⟩
  · rw [h.parser]
    rfl
  · rw [h.parser, h.span]
    exact Nat.le_refl 0
  · rw [h.skip] at hj
    exact absurd hj.symm (Option.some_ne_none j)

/-- A call that has fallen behind ends its chunk without an error. -/
theorem chunk_behind (s : Settings σ) (hl : s.Lawful) (P : Nat → σ → Prop) (hs : Completes s P)
    (data : Bytes) (q q' : HttpParser) (x : Exec σ) (pos k n : Nat) (hok : q.httpErrno = .ok)
    (h : Behind (P (k + n)) q x pos) (hdata : bytewise q data = some (q', k)) :
    ∃ y, x.chunk s data = some y ∧ Behind (P n) q' y 0 := by
  have hfeed := feed_behind s hl P hs data q q' x pos k n h hdata
  rcases endChunk_reading s (P n) (hs.data n) _ _ _ _ hfeed.reading
    (Nat.le_trans hfeed.count hfeed.bound) with ⟨hret, hparser, huser⟩
  -- The call reads the whole chunk, and the next one starts with nothing marked.
  have hread : ((x.feed s data).endChunk s).returned = some (x.pos + data.length) ∧
      ((x.feed s data).endChunk s).parser.httpErrno = .ok := by
    rw [hret, hparser, h.reading.pos]
    exact ⟨rfl, bytewise_ok q q' data k hdata hok⟩
  refine ⟨Exec.start _ _, if_pos hread, ⟨rfl, ?_, rfl, rfl, huser⟩, ?_, hfeed.bound, hfeed.live,
    nofun⟩
  · change ((x.feed s data).endChunk s).parser = _
    rw [hparser]
    rfl
  · change ((x.feed s data).endChunk s).parser.nread + 0 ≤ _
    rw [hparser]
    exact hfeed.count

/-- Chunks of a stream that the parser accepts one byte at a time. -/
theorem chunks_behind (s : Settings σ) (hl : s.Lawful) (P : Nat → σ → Prop)
    (hs : Completes s P) (parts : List Bytes) (q q' : HttpParser) (x : Exec σ) (pos k n : Nat)
    (hok : q.httpErrno = .ok) (h : Behind (P (k + n)) q x pos)
    (hdata : bytewise q parts.flatten = some (q', k)) :
    ∃ y pos', x.chunks s parts = some y ∧ Behind (P n) q' y pos' := by
  induction parts generalizing q x pos k with
  | nil =>
      simp only [List.flatten_nil, bytewise, Option.some.injEq, Prod.mk.injEq] at hdata
      rcases hdata with ⟨rfl, rfl⟩
      rw [Nat.zero_add] at h
      exact ⟨x, pos, rfl, h⟩
  | cons data parts ih =>
      rw [List.flatten_cons] at hdata
      -- The stream is accepted up to the end of this chunk, and from there on.
      rcases bytewise_split q q' data _ k hdata with ⟨mid, i, j, hi, hj, rfl⟩
      rw [Nat.add_assoc] at h
      rcases chunk_behind s hl P hs data q mid x pos i (j + n) hok h hi with ⟨y, hy, hbehind⟩
      rcases ih mid y 0 j (bytewise_ok q mid data i hi hok) hbehind hj with ⟨z, pos', hz, hlast⟩
      refine ⟨z, pos', ?_, hlast⟩
      rw [Exec.chunks, hy]
      exact hz

/-- The byte that completes a message, whatever message that is. -/
theorem byte_completes (s : Settings σ) (P : σ → Prop)
    (hdata : ∀ m d u, P u → P (s.onData m d u)) (q : HttpParser) (x : Exec σ) (pos : Nat)
    (ch : Byte) (exit : Exit) (h : Behind P q x pos) (hn : countByte q none ≤ httpMaxHeaderSize)
    (hv : (byteStep q none ch).verdict = .complete exit) :
    ∃ p u, P u ∧ (x.byte s ch).user = (s.onMessageComplete p u).2 := by
  have hok : ∀ e, (byteStep q none ch).verdict ≠ .fail e :=
    fun e he => Verdict.noConfusion (hv.symm.trans he)
  -- What the call has skipped does not change what the byte does.
  rcases byteStep_behind q x.locals.skip ch h.bound h.skip hok with ⟨skip', ho, _⟩
  rcases countsOnce_alone _ _ (byteStep_frugal q ch).once hn with ⟨m, hm, _⟩
  have hcount := countByte_behind q (counted x.parser.nread q) x.locals.span rfl h.count
  rcases countOps_behind q ch _ _ _ m hcount hn hm with ⟨m', hm', _, _⟩
  have hstep : byteStep (counted x.parser.nread q) x.locals.skip ch =
      ({ byteStep q none ch with skip := skip' } : Out).counted x.parser.nread := by
    rw [byteStep_counted, ho]
  rcases byte_reading s P hdata ch x (counted x.parser.nread q) x.locals.span pos m' h.reading
    (by omega) (by rw [hstep]; exact hm') with ⟨z, hz, hbyte⟩
  rw [hbyte, hstep]
  unfold Exec.finish
  dsimp only [Out.counted]
  rw [hv]
  exact ⟨_, z.user, hz.user, rfl⟩

/-! ### Collecting the messages -/

/-- Nothing completes. -/
theorem completes_none (done : List HttpParser) :
    Completes collect (fun n u => n = 0 ∧ u = done) :=
  ⟨fun _ m d u h => ⟨h.1, collect_data done m d u h.2⟩,
    fun n _ _ _ h => absurd h.1 (Nat.succ_ne_zero n)⟩

theorem collect_lawful : collect.Lawful :=
  ⟨fun q u h => if_pos h, fun q u h => if_neg (by rw [h]; exact Bool.false_ne_true)⟩

/-- No message completes while a stream without one is read. -/
theorem collect_behind (parts : List Bytes) (q q' : HttpParser) (x : Exec (List HttpParser))
    (pos : Nat) (done : List HttpParser) (hok : q.httpErrno = .ok)
    (h : Behind (fun u => u = done) q x pos) (hdata : bytewise q parts.flatten = some (q', 0)) :
    ∃ y pos', x.chunks collect parts = some y ∧ Behind (fun u => u = done) q' y pos' := by
  have hP : Behind (fun u => 0 + 0 = 0 ∧ u = done) q x pos :=
    ⟨⟨h.reading.returned, h.reading.parser, h.reading.span, h.reading.pos, rfl, h.reading.user⟩,
      h.count, h.bound, h.live, h.skip⟩
  rcases chunks_behind collect collect_lawful _ (completes_none done) parts q q' x pos 0 0 hok hP
    hdata with ⟨y, pos', hy, hb⟩
  exact ⟨y, pos', hy, ⟨hb.reading.returned, hb.reading.parser, hb.reading.span, hb.reading.pos,
    hb.reading.user.2⟩, hb.count, hb.bound, hb.live, hb.skip⟩

/-- The number of messages of a stream without one is split into none and
    none. -/
theorem bytewise_split_zero (q q' : HttpParser) (a b : Bytes)
    (h : bytewise q (a ++ b) = some (q', 0)) :
    ∃ mid, bytewise q a = some (mid, 0) ∧ bytewise mid b = some (q', 0) := by
  rcases bytewise_split q q' a b 0 h with ⟨mid, i, j, hi, hj, hij⟩
  have hi0 : i = 0 := by omega
  have hj0 : j = 0 := by omega
  rw [hi0] at hi
  rw [hj0] at hj
  exact ⟨mid, hi, hj⟩

/-- One run of the parser, a byte at a time, that a further byte completes. -/
def CompletedBy (data : Bytes) (ch : Byte) : Prop :=
  ∃ q exit, bytewise httpParserInit data = some (q, 0) ∧ countByte q none ≤ httpMaxHeaderSize ∧
    (byteStep q none ch).verdict = .complete exit

theorem delivers_of_completed (data : Bytes) (ch : Byte) (h : CompletedBy data ch) :
    Delivers collect Same More (data ++ [ch]) := by
  rcases h with ⟨q, exit, hdata, hn, hv⟩
  intro x hx parts last _ hlast htext
  rcases List.eq_nil_or_concat last with hnil | ⟨body, c, hconcat⟩
  · exact absurd hnil hlast
  rw [List.concat_eq_append] at hconcat
  rw [hconcat] at htext ⊢
  rw [← List.append_assoc] at htext
  rcases List.append_inj' htext rfl with ⟨hbody, hc⟩
  rw [List.singleton_inj] at hc
  rw [← hbody] at hdata
  -- The chunks before the last, then what the last has before its last byte.
  rcases bytewise_split_zero httpParserInit q _ body hdata with ⟨mid, hmid, hrest⟩
  have hbegin := begins_behind (fun u => u = x.user) x hx rfl
  rcases collect_behind parts httpParserInit mid x x.pos x.user rfl hbegin hmid with
    ⟨y, pos', hy, hb⟩
  -- What is left of the last chunk before its last byte completes nothing either.
  have hP : Behind (fun u => 0 + 0 = 0 ∧ u = x.user) mid y pos' :=
    ⟨⟨hb.reading.returned, hb.reading.parser, hb.reading.span, hb.reading.pos, rfl,
      hb.reading.user⟩, hb.count, hb.bound, hb.live, hb.skip⟩
  have hfeed := feed_behind collect collect_lawful _ (completes_none x.user) body mid q y pos' 0 0
    hP hrest
  rcases byte_completes collect _ ((completes_none x.user).data 0) q _ _ ch exit hfeed hn hv with
    ⟨p, u, hu, huser⟩
  refine ⟨y, hy, congrArg List.length hb.reading.user, ?_⟩
  rw [hc]
  unfold Exec.feed at huser ⊢
  rw [List.foldl_append, List.foldl_cons, List.foldl_nil, huser, More, ← hu.2]
  rfl

theorem deliversAtEnd_of_untilClose (text : Bytes) (q : HttpParser) (h : UntilClose text q) :
    DeliversAtEnd collect Same More text := by
  intro x hx parts _ htext
  rw [← htext] at h
  have hbegin := begins_behind (fun u => u = x.user) x hx rfl
  rcases collect_behind parts httpParserInit q x x.pos x.user rfl hbegin h.1 with ⟨y, pos', hy, hb⟩
  refine ⟨y, hy, congrArg List.length hb.reading.user, ?_⟩
  have hparser : y.parser.httpErrno = .ok ∧ y.parser.state = .bodyIdentityEof := by
    rw [hb.reading.parser]
    exact ⟨bytewise_ok httpParserInit q _ 0 h.1 rfl, h.2⟩
  -- The call of no bytes is the one that ends the stream.
  unfold execute
  rw [if_neg (not_not.mpr hparser.1), if_pos rfl, hparser.2, hb.reading.user]
  rfl

/-! ### One byte at a time -/

/-- A byte that is read to its end as a chunk of its own and reports nothing
    is accepted on its own. -/
theorem alone_of_chunk (q : HttpParser) (ch : Byte) (y : Exec (List HttpParser))
    (hok : q.httpErrno = .ok) (hy : (Exec.start q []).chunk collect [ch] = some y)
    (hu : y.user = []) : alone q ch = some (y.parser, 0) ∧ y = Exec.start y.parser [] := by
  unfold Exec.chunk at hy
  dsimp only at hy
  split_ifs at hy with hread
  rw [Option.some.injEq] at hy
  have hexec : execute collect q [] [ch] =
      ((((Exec.start q []).feed collect [ch]).endChunk collect).parser,
        (((Exec.start q []).feed collect [ch]).endChunk collect).user, 1) := by
    unfold execute
    rw [if_neg (not_not.mpr hok), if_neg (List.cons_ne_nil ch [])]
    dsimp only
    rw [hread.1]
    rfl
  have huser : (((Exec.start q []).feed collect [ch]).endChunk collect).user = [] := by
    rw [← hy] at hu
    exact hu
  have hparser : (((Exec.start q []).feed collect [ch]).endChunk collect).parser = y.parser := by
    rw [← hy]
    rfl
  constructor
  · unfold alone
    dsimp only
    rw [hexec, huser, if_pos ⟨rfl, hread.2, rfl⟩, hparser]
    rfl
  · rw [← hy, huser]
    rfl

/-- The chunks of single bytes. -/
def singles (data : Bytes) : List Bytes := data.map (fun ch => [ch])

theorem singles_flatten (data : Bytes) : (singles data).flatten = data := by
  induction data with
  | nil => rfl
  | cons ch data ih => exact congrArg (ch :: ·) ih

theorem singles_ne (data : Bytes) : ∀ part ∈ singles data, part ≠ [] := by
  intro part hpart
  rcases List.mem_map.mp hpart with ⟨ch, _, rfl⟩
  exact List.cons_ne_nil ch []

theorem chunks_append (s : Settings σ) (x : Exec σ) (a b : List Bytes) :
    x.chunks s (a ++ b) = (x.chunks s a).bind (fun y => y.chunks s b) := by
  induction a generalizing x with
  | nil => rfl
  | cons data a ih =>
      rw [List.cons_append, Exec.chunks, Exec.chunks, Option.bind_assoc]
      exact congrArg (Option.bind _) (funext fun y => ih y)

/-- Single bytes that are all read and report nothing. -/
theorem bytewise_of_singles (data : Bytes)
    (h : ∀ a b, a ++ b = data → ∃ y, (Exec.start httpParserInit []).chunks collect (singles a) =
      some y ∧ Same [] y.user) :
    ∃ q, bytewise httpParserInit data = some (q, 0) ∧ q.httpErrno = .ok ∧
      (Exec.start httpParserInit []).chunks collect (singles data) = some (Exec.start q []) := by
  induction data using List.reverseRecOn with
  | nil => exact ⟨httpParserInit, rfl, rfl, rfl⟩
  | append_singleton data ch ih =>
      rcases ih (fun a b hab => h a (b ++ [ch]) (by rw [← List.append_assoc, hab])) with
        ⟨q, hq, hok, hchunks⟩
      rcases h (data ++ [ch]) [] (List.append_nil _) with ⟨y, hy, hu⟩
      have hlast : (Exec.start q []).chunk collect [ch] = some y := by
        rw [show singles (data ++ [ch]) = singles data ++ [[ch]] from List.map_append, chunks_append,
          hchunks] at hy
        rcases Option.bind_eq_some_iff.mp hy with ⟨z, hz, hzy⟩
        rw [← Option.some.inj hz] at hzy
        rcases Option.bind_eq_some_iff.mp hzy with ⟨w, hw, hwy⟩
        rw [hw]
        exact hwy
      rcases alone_of_chunk q ch y hok hlast (List.eq_nil_of_length_eq_zero hu) with ⟨hone, hstart⟩
      refine ⟨y.parser, ?_, ?_, ?_⟩
      · rw [bytewise_append httpParserInit q data [ch] 0 hq]
        simp only [bytewise, hone, Option.map_some, Nat.add_zero]
      · exact (alone_accepted q y.parser ch 0 hone).2.parser ▸ (alone_accepted q _ ch 0 hone).2.ok
      · rw [← hstart]
        exact hy

theorem start_begins : (Exec.start httpParserInit ([] : List HttpParser)).Begins :=
  ⟨rfl, rfl, rfl, rfl⟩

/-- A parser that accepts a stream has not counted too many bytes. -/
theorem bytewise_bound (q q' : HttpParser) (data : Bytes) (k : Nat)
    (hq : q.nread ≤ httpMaxHeaderSize) (h : bytewise q data = some (q', k)) :
    q'.nread ≤ httpMaxHeaderSize := by
  refine bytewise_keeps (fun p _ => p.nread ≤ httpMaxHeaderSize) (fun p p' ch _ k hone hp => ?_)
    q q' data 0 k h hq
  rcases alone_cases p p' ch k hp hone with ⟨_, _, m, _, ⟨_, _, _, hn⟩ | ⟨_, _, _, hinit, _⟩⟩
  · exact hn
  · rw [hinit]
    exact Nat.zero_le _

/-- A byte that reports a message completes it. -/
theorem completes_of_more (q : HttpParser) (ch : Byte) (hq : q.nread ≤ httpMaxHeaderSize)
    (h : More [] ((Exec.start q []).byte collect ch).user) :
    countByte q none ≤ httpMaxHeaderSize ∧
      ∃ exit, (byteStep q none ch).verdict = .complete exit := by
  have hn : countByte q none ≤ httpMaxHeaderSize := by
    by_contra hc
    -- The byte is not even read.
    have hheader : (Exec.start q ([] : List HttpParser)).locals.span.isNone &&
        q.state.parsingHeader := by
      unfold countByte at hc
      split_ifs at hc with hp
      · exact hp
      · omega
    have hcount : ((Exec.start q ([] : List HttpParser)).count 1).returned = some 0 ∧
        ((Exec.start q ([] : List HttpParser)).count 1).user = [] := by
      unfold countByte at hc
      unfold Exec.count
      rw [if_pos (by change q.nread + 1 > _; split_ifs at hc <;> omega)]
      exact ⟨rfl, rfl⟩
    have hbyte : ((Exec.start q []).byte collect ch).user = [] := by
      unfold Exec.byte
      rw [if_neg (by exact Bool.false_ne_true)]
      have hif : (if (Exec.start q ([] : List HttpParser)).locals.span.isNone &&
          (Exec.start q ([] : List HttpParser)).parser.state.parsingHeader then
          (Exec.start q ([] : List HttpParser)).count 1 else Exec.start q []) =
            (Exec.start q []).count 1 := if_pos hheader
      dsimp only
      rw [hif, if_pos (by rw [hcount.1]; rfl)]
      exact hcount.2
    rw [hbyte] at h
    exact absurd h (by exact Nat.zero_ne_one)
  refine ⟨hn, ?_⟩
  rcases countsOnce_alone _ _ (byteStep_frugal q ch).once hn with ⟨m, hm, _⟩
  rcases byte_reading collect (fun done => done = []) (collect_data []) ch (Exec.start q []) q
    none 0 m ⟨rfl, rfl, rfl, rfl, rfl⟩ hn hm with ⟨z, hz, hbyte⟩
  rw [hbyte] at h
  change More [] (z.finish collect ch q.state (byteStep q none ch)).user at h
  cases hv : (byteStep q none ch).verdict with
  | complete exit => exact ⟨exit, rfl⟩
  | fail e =>
      -- A byte that is refused reports nothing, nor does one that leads on.
      have huser : (z.finish collect ch q.state (byteStep q none ch)).user = [] := by
        unfold Exec.finish
        rw [hv]
        exact hz.user
      rw [huser] at h
      exact absurd h (by exact Nat.zero_ne_one)
  | next =>
      have huser := (finish_next collect _ ch q.state _ z _ none 0 hz hv).1.user
      rw [huser] at h
      exact absurd h (by exact Nat.zero_ne_one)

/-- A text is reported once, by its last byte, exactly if it is when it comes
    one byte at a time. -/
theorem delivers_iff (data : Bytes) (ch : Byte) :
    Delivers collect Same More (data ++ [ch]) ↔ CompletedBy data ch := by
  refine ⟨fun h => ?_, delivers_of_completed data ch⟩
  -- Among the splits are those into single bytes.
  have hparts : ∀ a b, a ++ b = data → ∃ y,
      (Exec.start httpParserInit []).chunks collect (singles a) = some y ∧ Same [] y.user := by
    intro a b hab
    rcases h _ start_begins (singles a) (b ++ [ch]) (singles_ne a) (by simp) (by
      rw [singles_flatten, ← List.append_assoc, hab]) with ⟨y, hy, hsame, _⟩
    exact ⟨y, hy, hsame⟩
  rcases bytewise_of_singles data hparts with ⟨q, hq, _, hchunks⟩
  rcases h _ start_begins (singles data) [ch] (singles_ne data) (List.cons_ne_nil ch [])
    (by rw [singles_flatten]) with ⟨y, hy, _, hmore⟩
  rw [hchunks, Option.some.injEq] at hy
  rw [← hy] at hmore
  rcases completes_of_more q ch (bytewise_bound _ q data 0 (Nat.zero_le _) hq) hmore with
    ⟨hn, exit, hv⟩
  exact ⟨q, exit, hq, hn, hv⟩

/-- Messages are only ever added. -/
theorem chunks_user (x y : Exec (List HttpParser)) (parts : List Bytes)
    (h : x.chunks collect parts = some y) : ∃ u, y.user = u ++ x.user := by
  have hm : Matches collect collect (fun u v => v = u ++ x.user) := by
    refine ⟨fun m d u v huv => ?_, fun _ _ _ => rfl, fun q u v huv => congrArg (q :: ·) huv⟩
    rw [collect_data v m d v rfl, collect_data u m d u rfl]
    exact huv
  rcases chunks_alike collect collect _ hm parts { x with user := [] } x y
    ⟨rfl, rfl, rfl, rfl, rfl⟩ h with ⟨x', _, hx'⟩
  exact ⟨x'.user, hx'.user⟩

/-- A text is reported once, by the end of the stream, exactly if the parser
    comes to wait for that. -/
theorem deliversAtEnd_iff (text : Bytes) :
    DeliversAtEnd collect Same More text ↔ ∃ q, UntilClose text q := by
  refine ⟨fun h => ?_, fun ⟨q, hq⟩ => deliversAtEnd_of_untilClose text q hq⟩
  rcases h _ start_begins (singles text) (singles_ne text) (singles_flatten text) with
    ⟨y, hy, hsame, hmore⟩
  have hnil : y.user = [] := List.eq_nil_of_length_eq_zero hsame
  have hparts : ∀ a b, a ++ b = text → ∃ y,
      (Exec.start httpParserInit []).chunks collect (singles a) = some y ∧ Same [] y.user := by
    intro a b hab
    rw [← hab, show singles (a ++ b) = singles a ++ singles b from List.map_append,
      chunks_append] at hy
    rcases Option.bind_eq_some_iff.mp hy with ⟨z, hz, hzy⟩
    -- What had completed by then would still be there at the end.
    rcases chunks_user z y _ hzy with ⟨u, hu⟩
    rw [hnil] at hu
    refine ⟨z, hz, ?_⟩
    rw [(List.append_eq_nil_iff.mp hu.symm).2]
    rfl
  rcases bytewise_of_singles text hparts with ⟨q, hq, hok, hchunks⟩
  rw [hchunks, Option.some.injEq] at hy
  rw [← hy] at hmore
  refine ⟨q, hq, ?_⟩
  have hexec : More [] (execute collect q [] []).2.1 := hmore
  unfold execute at hexec
  rw [if_neg (not_not.mpr hok), if_pos rfl] at hexec
  revert hexec
  cases q.state with
  | bodyIdentityEof => exact fun _ => rfl
  | _ => exact fun hexec => absurd hexec (by exact Nat.zero_ne_one)

end HttpParser

end Wrk
