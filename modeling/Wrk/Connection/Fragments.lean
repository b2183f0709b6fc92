import Wrk.Connection.Responses

/-!
# Headers in Pieces

The header callbacks as an encoder. The parser may report a name or a value in
any number of pieces, which may be empty, and the zero byte that ends a string
is stored by the next callback of the other kind, or when the response
completes. What is stored is then read back by a loop that looks for the zero
bytes.

However the headers of a response are cut, the loop reads them back as they
were, reads nothing past the cursor and stops at it. The buffers are empty
then, and the state is that for a name, so that the same holds of the next
response.

## Main definitions

* `FragmentedHeader`, `FragmentedResponse`: A response in pieces.
* `feedResponse`: The callbacks it causes.
* `Vacant`: A connection that has collected nothing.
* `ReadsExactly`: The loop of `script_response` on a buffer.
* `Exact`: Every response of a sequence is read exactly.

## Theorems

* `feedHeader_gathers`, `feedHeaders_gathers`: The callbacks of headers.
* `feedResponse_exact`: One response.
* `fragments_exact`: Any number of responses.
-/

namespace Wrk

open HttpParser

/-- A header as it is reported: the pieces of the name, those of the value,
    and whatever is reported of the body before the next header. -/
structure FragmentedHeader where
  names : List Bytes
  values : List Bytes
  bodies : List Bytes
  named : names ≠ []
  valued : values ≠ []

/-- The header itself. -/
def FragmentedHeader.pair (f : FragmentedHeader) : Bytes × Bytes :=
  (f.names.flatten, f.values.flatten)

/-- A complete response: its headers, and the parser when it completes, after
    which the connection is kept. -/
structure FragmentedResponse where
  headers : List FragmentedHeader
  parser : HttpParser
  headed : headers ≠ []
  kept : httpShouldKeepAlive parser = true

namespace FragmentedResponse

/-- The headers of the response, and its body. -/
def pairs (r : FragmentedResponse) : List (Bytes × Bytes) := r.headers.map FragmentedHeader.pair

def body (r : FragmentedResponse) : Bytes := r.headers.flatMap (fun f => f.bodies.flatten)

/-- What the script is to be told. -/
def told (r : FragmentedResponse) : Response :=
  ⟨r.parser.statusCode, some (headerTable r.pairs), r.body⟩

end FragmentedResponse

/-- The callbacks of one header. -/
def feedHeader (env : Env) (w : World) (f : FragmentedHeader) : World :=
  f.bodies.foldl (fun w data => responseBody env data w)
    (f.values.foldl (fun w data => headerValue env data w)
      (f.names.foldl (fun w data => headerField env data w) w))

/-- Those of all headers, and of the whole response. -/
def feedHeaders (env : Env) (w : World) (r : FragmentedResponse) : World :=
  r.headers.foldl (feedHeader env) w

def feedResponse (cfg : Config) (env : Env) (w : World) (r : FragmentedResponse) : World :=
  (responseComplete cfg env r.parser (feedHeaders env w r)).2

/-- The connection is ready for the headers of a response. -/
structure Vacant (c : Conn) : Prop where
  state : c.state = .field
  headers : c.headers.cursor = 0
  body : c.body.cursor = 0
  headersSound : c.headers.Sound
  bodySound : c.body.Sound

/-- The loop of `script_response` reads some headers from a buffer: it stops
    at the cursor, and reads the same when there is nothing behind it. -/
structure ReadsExactly (b : Buffer) (pairs : List (Bytes × Bytes)) : Prop where
  read : decodeEnd b.mem b.cursor b.cursor 0 = some (pairs, b.cursor)
  inside : decodeEnd b.content b.cursor b.cursor 0 = some (pairs, b.cursor)

/-- Every response of a sequence finds the connection vacant, is read exactly,
    and is what the script is told. -/
def Exact (cfg : Config) (env : Env) (w : World) : List FragmentedResponse → Prop
  | [] => Vacant w.c
  | r :: rs =>
      Vacant w.c ∧ ReadsExactly (pushNul (feedHeaders env w r).c.headers) r.pairs ∧
        responses (feedResponse cfg env w r).c.log = responses w.c.log ++ [r.told] ∧
          Exact cfg env (feedResponse cfg env w r) rs

/-! ### Pieces -/

/-- The buffers hold a message, of which something has been reported if it is
    not fresh. -/
structure Gathers (c : Conn) (m : Message) : Prop where
  headers : c.headers.Sound
  body : c.body.Sound
  some : m.phase ≠ .fresh → c.headers.mem ≠ []
  clean : Clean c m

theorem vacant_gathers (c : Conn) (h : Vacant c) : Gathers c .empty := by
  refine ⟨h.headersSound, h.bodySound, fun hne => absurd rfl hne, ?_, ?_, ?_⟩
  · rw [h.state]
    exact ⟨fun hs => FieldState.noConfusion hs, fun hs => Phase.noConfusion hs⟩
  · rw [Buffer.content, h.headers]
    rfl
  · rw [Buffer.content, h.body]
    rfl

theorem gathers_some (c : Conn) (m : Message) (h : Gathers c m) (hs : c.state = .value) :
    c.headers.mem ≠ [] := by
  refine h.some ?_
  rw [h.clean.state.mp hs]
  exact Phase.noConfusion

theorem headerField_gathers (env : Env) (data : Bytes) (w : World) (m : Message)
    (h : Gathers w.c m) : Gathers (headerField env data w).c (m.addName data) := by
  rcases headerField_clean env data w m h.headers (gathers_some w.c m h) with
    ⟨⟨hsound, hmem⟩, hclean⟩
  exact ⟨hsound, h.body, fun _ => hmem, hclean h.clean⟩

theorem headerValue_gathers (env : Env) (data : Bytes) (w : World) (m : Message)
    (hph : m.phase ≠ .fresh) (h : Gathers w.c m) :
    Gathers (headerValue env data w).c (m.addValue data) := by
  rcases headerValue_clean env data w m h.headers (h.some hph) hph with
    ⟨⟨hsound, hmem⟩, hclean⟩
  exact ⟨hsound, h.body, fun _ => hmem, hclean h.clean⟩

theorem responseBody_gathers (env : Env) (data : Bytes) (w : World) (m : Message)
    (h : Gathers w.c m) : Gathers (responseBody env data w).c (m.addBody data) := by
  rcases responseBody_clean env data w m h.body with ⟨hsound, hclean⟩
  exact ⟨h.headers, hsound, h.some, hclean h.clean⟩

/-- The pieces of a name, after at least one. -/
theorem names_gathers (env : Env) (names : List Bytes) (w : World) (m : Message)
    (hph : m.phase = .name) (h : Gathers w.c m) :
    Gathers (names.foldl (fun w data => headerField env data w) w).c
      { m with name := m.name ++ names.flatten } := by
  induction names generalizing w m with
  | nil =>
      rw [List.flatten_nil, List.append_nil]
      exact h
  | cons data names ih =>
      -- Inside a name a further piece is appended, and empty ones change nothing.
      have hadd : m.addName data = { m with name := m.name ++ data } := by
        unfold Message.addName
        rw [hph]
      have hone := headerField_gathers env data w m h
      rw [hadd] at hone
      rw [List.foldl_cons, List.flatten_cons, ← List.append_assoc]
      exact ih _ { m with name := m.name ++ data } hph hone

/-- Those of a value. -/
theorem values_gathers (env : Env) (values : List Bytes) (w : World) (m : Message)
    (hph : m.phase = .value) (h : Gathers w.c m) :
    Gathers (values.foldl (fun w data => headerValue env data w) w).c
      { m with value := m.value ++ values.flatten } := by
  induction values generalizing w m with
  | nil =>
      rw [List.flatten_nil, List.append_nil]
      exact h
  | cons data values ih =>
      have hadd : m.addValue data = { m with value := m.value ++ data } := by
        unfold Message.addValue
        rw [hph]
      have hone := headerValue_gathers env data w m (by rw [hph]; exact Phase.noConfusion) h
      rw [hadd] at hone
      rw [List.foldl_cons, List.flatten_cons, ← List.append_assoc]
      exact ih _ { m with value := m.value ++ data } hph hone

/-- Those of a body. -/
theorem bodies_gathers (env : Env) (bodies : List Bytes) (w : World) (m : Message)
    (h : Gathers w.c m) :
    Gathers (bodies.foldl (fun w data => responseBody env data w) w).c
      { m with body := m.body ++ bodies.flatten } := by
  induction bodies generalizing w m with
  | nil =>
      rw [List.flatten_nil, List.append_nil]
      exact h
  | cons data bodies ih =>
      have hone := responseBody_gathers env data w m h
      rw [List.foldl_cons, List.flatten_cons, ← List.append_assoc]
      exact ih _ (m.addBody data) hone

/-! ### Headers -/

/-- A message with one more header, and more of the body. -/
def Message.addHeader (m : Message) (f : FragmentedHeader) : Message :=
  ⟨.value, m.headers, f.names.flatten, f.values.flatten, m.body ++ f.bodies.flatten⟩

theorem addHeader_headers (m : Message) (f : FragmentedHeader) :
    (m.addHeader f).headers = m.headers ++ [f.pair] := rfl

/-- The callbacks of one header, at the start of a response or after another
    header. -/
theorem feedHeader_gathers (env : Env) (f : FragmentedHeader) (w : World) (m : Message)
    (hph : m.phase ≠ .name) (h : Gathers w.c m) :
    Gathers (feedHeader env w f).c (m.addHeader f) := by
  cases hn : f.names with
  | nil => exact absurd hn f.named
  | cons name names =>
      cases hv : f.values with
      | nil => exact absurd hv f.valued
      | cons value values =>
          -- The first piece of the name begins the header, whatever was before it.
          have hadd : ∃ old, m.addName name = ⟨.name, m.headers, name, old, m.body⟩ := by
            unfold Message.addName Message.headers
            cases hm : m.phase with
            | fresh => exact ⟨m.value, rfl⟩
            | name => exact absurd hm hph
            | value => exact ⟨[], rfl⟩
          rcases hadd with ⟨old, hadd⟩
          have h1 := headerField_gathers env name w m h
          rw [hadd] at h1
          have h2 := names_gathers env names _ _ rfl h1
          -- The first piece of the value ends the name with its zero byte.
          have h3 := headerValue_gathers env value _ _ Phase.noConfusion h2
          have h4 := values_gathers env values _
            ⟨.value, m.headers, name ++ names.flatten, value, m.body⟩ rfl h3
          have h5 := bodies_gathers env f.bodies _ _ h4
          unfold feedHeader Message.addHeader
          rw [hn, hv]
          exact h5

/-- The headers of a response, one after the other. -/
theorem feedHeaders_gathers (env : Env) (headers : List FragmentedHeader) (w : World)
    (m : Message) (hph : m.phase ≠ .name) (h : Gathers w.c m) :
    ∃ m', Gathers (headers.foldl (feedHeader env) w).c m' ∧
      m'.headers = m.headers ++ headers.map FragmentedHeader.pair ∧
        m'.body = m.body ++ headers.flatMap (fun f => f.bodies.flatten) ∧
          (m.phase = .value ∨ headers ≠ [] → m'.phase = .value) := by
  induction headers generalizing w m with
  | nil =>
      refine ⟨m, h, (List.append_nil _).symm, (List.append_nil _).symm, fun hv => ?_⟩
      rcases hv with hv | hv
      · exact hv
      · exact absurd rfl hv
  | cons f headers ih =>
      rcases ih (feedHeader env w f) (m.addHeader f) Phase.noConfusion
        (feedHeader_gathers env f w m hph h) with ⟨m', hm', hheaders, hbody, hphase⟩
      -- What is gathered of the rest is gathered on top of this header.
      refine ⟨m', hm', ?_, ?_, fun _ => hphase (Or.inl rfl)⟩
      · rw [hheaders, addHeader_headers, List.append_assoc]
        rfl
      · rw [hbody, List.flatMap_cons, ← List.append_assoc]
        rfl

/-! ### Responses -/

/-- Handlers that leave responses alone tell the script nothing, and leave the
    connection vacant if it is. -/
theorem responses_aside (c d : Conn) (ha : Aside c d) : responses d.log = responses c.log := by
  rcases ha with ⟨_, pre, hpre, hlog⟩
  rw [hlog]
  clear hlog
  induction pre with
  | nil => rfl
  | cons o pre ih =>
      have ho := hpre o List.mem_cons_self
      have hrest := ih (fun p hp => hpre p (List.mem_cons_of_mem _ hp))
      cases o with
      | response => exact absurd ho Bool.false_ne_true
      | _ => exact hrest

theorem vacant_aside (c d : Conn) (ha : Aside c d) (h : Vacant c) : Vacant d := by
  rcases ha with ⟨⟨hs, hh, hb⟩, _⟩
  refine ⟨hs.trans h.state, ?_, ?_, ?_, ?_⟩
  · rw [hh]
    exact h.headers
  · rw [hb]
    exact h.body
  · rw [hh]
    exact h.headersSound
  · rw [hb]
    exact h.bodySound

/-- A callback for each piece tells the script nothing if one tells it
    nothing. -/
theorem pieces_responses (g : World → Bytes → World)
    (hg : ∀ w data, responses (g w data).c.log = responses w.c.log) (pieces : List Bytes)
    (w : World) : responses (pieces.foldl g w).c.log = responses w.c.log := by
  induction pieces generalizing w with
  | nil => rfl
  | cons data pieces ih => exact (ih (g w data)).trans (hg w data)

theorem feedHeaders_responses (env : Env) (headers : List FragmentedHeader) (w : World) :
    responses (headers.foldl (feedHeader env) w).c.log = responses w.c.log := by
  induction headers generalizing w with
  | nil => rfl
  | cons f headers ih =>
      refine (ih (feedHeader env w f)).trans ?_
      unfold feedHeader
      rw [pieces_responses (fun w data => responseBody env data w) (fun _ _ => rfl),
        pieces_responses (fun w data => headerValue env data w) (fun _ _ => rfl),
        pieces_responses (fun w data => headerField env data w) (fun _ _ => rfl)]

theorem reset_sound (b : Buffer) (h : b.Sound) : (bufferReset b).Sound := by
  rcases h with ⟨hnil, _⟩ | hroom
  · exact Or.inl ⟨hnil, rfl⟩
  · refine Or.inr ?_
    change 0 + 1 < b.mem.length
    omega

/-- Telling the script of a response whose headers are all there. -/
theorem tellScript_exact (status : Nat) (w : World) (m : Message) (h : Gathers w.c m)
    (hph : m.phase = .value) (hnul : NulFree m.headers) :
    ReadsExactly (pushNul w.c.headers) m.headers ∧
      Vacant (tellScript status w).c ∧
        responses (tellScript status w).c.log =
          responses w.c.log ++ [⟨status, some (headerTable m.headers), m.body⟩] := by
  have hmem : w.c.headers.mem ≠ [] := h.some (by rw [hph]; exact Phase.noConfusion)
  have hlt := sound_lt w.c.headers h.headers hmem
  rcases pushNul_spec w.c.headers hlt with ⟨hcontent, hle⟩
  -- With the zero byte of the last value the buffer is the whole encoding.
  have henc : (pushNul w.c.headers).content = encode m.headers := by
    rw [hcontent, h.clean.headers, layout_end m hph]
  have hread := decodeEnd_encode _ m.headers hnul hle henc
  have htell : tellScript status w =
      scriptResponse status
        { w with c := { w.c with headers := pushNul w.c.headers, state := .field } } := by
    unfold tellScript
    rw [if_pos ((isSome_iff _).mpr hmem)]
  refine ⟨⟨?_, ?_⟩, ?_, ?_⟩
  · -- Behind the cursor may stand what a longer response has left.
    have hall := hread ((pushNul w.c.headers).mem.drop (pushNul w.c.headers).cursor)
    rw [Buffer.content, List.take_append_drop] at hall
    exact hall
  · have hall := hread []
    rw [List.append_nil] at hall
    exact hall
  · rw [htell]
    refine ⟨rfl, rfl, rfl, Or.inr ?_, reset_sound _ h.body⟩
    -- The buffer has room for two bytes at the cursor, so also at its start.
    change 0 + 1 < (w.c.headers.mem.set w.c.headers.cursor 0).length
    rw [List.length_set]
    rcases h.headers with ⟨hnil, _⟩ | hroom
    · exact absurd hnil hmem
    · omega
  · rw [htell]
    have hheaders := decode_encode _ m.headers hnul hle henc
    change responses w.c.log ++
      [⟨status, (pushNul w.c.headers).headers.map headerTable, w.c.body.content⟩] = _
    rw [hheaders, h.clean.body]
    rfl

/-- A complete response on a vacant connection is read exactly, and leaves
    the connection vacant. -/
theorem feedResponse_exact (cfg : Config) (env : Env) (r : FragmentedResponse) (w : World)
    (h : Vacant w.c) (hnul : NulFree r.pairs) :
    ReadsExactly (pushNul (feedHeaders env w r).c.headers) r.pairs ∧
      Vacant (feedResponse cfg env w r).c ∧
        responses (feedResponse cfg env w r).c.log = responses w.c.log ++ [r.told] := by
  rcases feedHeaders_gathers env r.headers w .empty Phase.noConfusion (vacant_gathers w.c h) with
    ⟨m, hm, hheaders, hbody, hphase⟩
  have hpairs : m.headers = r.pairs := hheaders
  have htext : m.body = r.body := hbody
  rw [← hpairs] at hnul
  -- The counters, and what follows the script, leave the connection alone.
  have hcount : Gathers (countComplete r.parser.statusCode
      (timeUs env (feedHeaders env w r)).2).c m :=
    ⟨hm.headers, hm.body, hm.some, ⟨hm.clean.state, hm.clean.headers, hm.clean.body⟩⟩
  rcases tellScript_exact r.parser.statusCode _ m hcount (hphase (Or.inr r.headed)) hnul with
    ⟨hread, hvacant, htold⟩
  have hc : (feedResponse cfg env w r).c =
      (countResponse cfg env r.parser.statusCode (feedHeaders env w r)).c := by
    unfold feedResponse responseComplete
    rw [r.kept]
    rfl
  -- The request that may follow is none of the header buffers' business.
  have haside : Aside
      (tellScript r.parser.statusCode
        (countComplete r.parser.statusCode (timeUs env (feedHeaders env w r)).2)).c
      (feedResponse cfg env w r).c := by
    rw [hc]
    refine aside_trans _ _ _ ?_ (lastResponse_aside cfg _ _)
    exact aside_same _ _ rfl rfl rfl rfl
  refine ⟨?_, vacant_aside _ _ haside hvacant, ?_⟩
  · rw [← hpairs]
    exact hread
  · rw [responses_aside _ _ haside, htold, hpairs, htext]
    exact congrArg (· ++ [r.told]) (feedHeaders_responses env r.headers w)

/-- Any number of responses on one connection, however their headers are cut:
    each is read back exactly as it was, and the connection is vacant for the
    next. -/
theorem fragments_exact (cfg : Config) (env : Env) (rs : List FragmentedResponse) (w : World)
    (h : Vacant w.c) (hnul : ∀ r ∈ rs, NulFree r.pairs) : Exact cfg env w rs := by
  induction rs generalizing w with
  | nil => exact h
  | cons r rs ih =>
      rcases feedResponse_exact cfg env r w h (hnul r List.mem_cons_self) with
        ⟨hread, hvacant, htold⟩
      have hrest := ih (feedResponse cfg env w r) hvacant
        (fun s hs => hnul s (List.mem_cons_of_mem _ hs))
      exact ⟨h, hread, htold, hrest⟩

theorem vacant_zero (cfg : Config) : Vacant (Conn.zero cfg) :=
  ⟨rfl, rfl, rfl, sound_empty, sound_empty⟩

/-- A header cut in the middle of its name, with an empty piece and an empty
    value. -/
def cutHeader : FragmentedHeader where
  names := [bytes "X-", [], bytes "A"]
  values := [[]]
  bodies := []
  named := List.cons_ne_nil _ _
  valued := List.cons_ne_nil _ _

/-- Two of it in one response, the second time with a value in two pieces. -/
def cutResponse : FragmentedResponse where
  headers :=
    [cutHeader,
      { cutHeader with
        values := [bytes "1", bytes "2"]
        valued := List.cons_ne_nil _ _ }]
  parser := { httpParserInit with httpMajor := 1, httpMinor := 1, statusCode := 204 }
  headed := List.cons_ne_nil _ _
  kept := by decide +kernel

theorem fragments_exact_cut :
    cutResponse.pairs = [(bytes "X-A", []), (bytes "X-A", bytes "12")] ∧
      Exact .plain .plain { thread := .zero 10, c := Conn.zero .plain }
        [cutResponse, cutResponse] := by
  -- No zero byte stands in the two headers.
  have hnul : NulFree cutResponse.pairs := by
    intro p hp
    have hall : cutResponse.pairs.all (fun p => !p.1.contains 0 && !p.2.contains 0) = true := by
      decide +kernel
    have hone := List.all_eq_true.mp hall p hp
    simpa using hone
  refine ⟨by decide +kernel, fragments_exact .plain .plain _ _ (vacant_zero .plain) ?_⟩
  intro r hr
  rcases List.mem_cons.mp hr with rfl | hr
  · exact hnul
  · rw [List.mem_singleton.mp hr]
    exact hnul

end Wrk
