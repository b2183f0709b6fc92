import Wrk.Connection.Events
import Wrk.Connection.Record

/-!
# Collecting Responses

The callbacks of the parser report a response in pieces. What they have
reported of the current one is a `Message`, which is read off the record; the
connection keeps the same in its two buffers and a state. The two agree as
long as the connection was empty when the message began. It is not when the
descriptor before it was closed in the middle of another, or when a response
without headers has left its body behind.

`Fit` says of a record that the message it ends in began empty. A response
with headers that completes then is handed to the script exactly as it was
reported, and `Told` says that of all of them.

## Main definitions

* `Message`: What the callbacks have reported of a response.
* `reading`: The message a record ends in.
* `Fit`: The message began with nothing collected.
* `Told`: Responses are handed to the script as they were reported.
* `Collected`, `Waiting`: The invariant, in the two modes.

## Theorems

* `headerField_collected`, `headerValue_collected`, `responseBody_collected`,
  `countResponse_collected`: The parser's callbacks.
* `keeps_collected`: Every handler keeps the invariant.
-/

namespace Wrk

open HttpParser

/-- What the callbacks have reported of a response: its complete headers, the
    header that is being reported, and its body. -/
structure Message where
  phase : Phase
  done : List (Bytes × Bytes)
  name : Bytes
  value : Bytes
  body : Bytes

namespace Message

def empty : Message := ⟨.fresh, [], [], [], []⟩

/-- A piece of a name. After a value it begins another header. -/
def addName (data : Bytes) (m : Message) : Message :=
  match m.phase with
  | .fresh => { m with phase := .name, name := data }
  | .name => { m with name := m.name ++ data }
  | .value =>
      { m with
        phase := .name
        done := m.done ++ [(m.name, m.value)]
        name := data
        value := [] }

/-- A piece of a value. -/
def addValue (data : Bytes) (m : Message) : Message :=
  match m.phase with
  | .value => { m with value := m.value ++ data }
  | _ => { m with phase := .value, value := data }

def addBody (data : Bytes) (m : Message) : Message := { m with body := m.body ++ data }

@[simp] theorem addName_phase (data : Bytes) (m : Message) : (m.addName data).phase = .name := by
  unfold addName
  split
  · rfl
  · next h => exact h
  · rfl

@[simp] theorem addName_body (data : Bytes) (m : Message) : (m.addName data).body = m.body := by
  unfold addName
  split <;> rfl

@[simp] theorem addValue_phase (data : Bytes) (m : Message) :
    (m.addValue data).phase = .value := by
  unfold addValue
  split
  · next h => exact h
  · rfl

@[simp] theorem addValue_body (data : Bytes) (m : Message) : (m.addValue data).body = m.body := by
  unfold addValue
  split <;> rfl

/-- The headers that have a value. -/
def headers (m : Message) : List (Bytes × Bytes) :=
  match m.phase with
  | .value => m.done ++ [(m.name, m.value)]
  | _ => m.done

/-- How the headers are laid out so far. -/
def layout (m : Message) : Bytes :=
  encode m.done ++
    match m.phase with
    | .fresh => []
    | .name => m.name
    | .value => m.name ++ 0 :: m.value

end Message

/-- The message a record ends in. -/
def reading : List Obs → Message
  | [] => .empty
  | .connected _ :: _ => .empty
  | .complete _ _ _ _ :: _ => .empty
  | .headerField data :: log => (reading log).addName data
  | .headerValue data :: log => (reading log).addValue data
  | .body data :: log => (reading log).addBody data
  | _ :: log => reading log

/-- Nothing had been collected when the message began: no descriptor was
    closed in the middle of a response, and every response since then had
    headers. -/
def Fit : List Obs → Prop
  | [] => True
  | .closed _ _ state headers body :: _ => state = .field ∧ headers = 0 ∧ body = 0
  | .complete _ _ _ _ :: log => Fit log ∧ (reading log).headers ≠ []
  | _ :: log => Fit log

/-- No header contains a zero byte. -/
def NulFree (headers : List (Bytes × Bytes)) : Prop :=
  ∀ p ∈ headers, (0 : Byte) ∉ p.1 ∧ (0 : Byte) ∉ p.2

/-- The message a record ends in can be handed over as it is. -/
def Due (log : List Obs) : Prop :=
  Fit log ∧ (reading log).headers ≠ [] ∧ NulFree (reading log).headers

/-- The script is told of a response when it completes and at no other time,
    and of one that can be handed over as it is, exactly that. -/
def Told : List Obs → Prop
  | [] => True
  | .response status headers body :: .complete _ st _ _ :: log =>
      (Due log →
        status = st ∧ headers = some (headerTable (reading log).headers) ∧
          body = (reading log).body) ∧
        Told log
  | .response _ _ _ :: _ => False
  | .complete _ _ _ _ :: log => ¬ Due log ∧ Told log
  | _ :: log => Told log

/-- Entries that have nothing to do with responses. -/
def Obs.aside : Obs → Bool
  | .sslSetOptions => true
  | .opened _ => true
  | .batch _ _ => true
  | .accepted _ _ _ => true
  | .finished _ _ _ => true
  | .delayed _ => true
  | .recorded _ _ => true
  | _ => false

theorem reading_aside (o : Obs) (log : List Obs) (ho : o.aside = true) :
    reading (o :: log) = reading log := by
  cases o <;> first | rfl | exact absurd ho Bool.false_ne_true

theorem fit_aside (o : Obs) (log : List Obs) (ho : o.aside = true) : Fit (o :: log) = Fit log := by
  cases o <;> first | rfl | exact absurd ho Bool.false_ne_true

theorem told_aside (o : Obs) (log : List Obs) (ho : o.aside = true) :
    Told (o :: log) = Told log := by
  cases o <;> first | rfl | exact absurd ho Bool.false_ne_true

/-! ### Laying headers out -/

theorem layout_addName (data : Bytes) (m : Message) :
    (m.addName data).layout =
      (if m.phase = .value then m.layout ++ [0] else m.layout) ++ data := by
  unfold Message.addName Message.layout
  cases hph : m.phase with
  | fresh =>
      simp only [reduceCtorEq, if_false, List.append_nil]
  | name =>
      simp only [reduceCtorEq, if_false, List.append_assoc]
  | value =>
      simp only [if_true, encode_append, List.append_assoc]
      simp only [encode, List.flatMap_cons, List.flatMap_nil, List.append_assoc, List.cons_append,
        List.nil_append]

theorem layout_addValue (data : Bytes) (m : Message) (h : m.phase ≠ .fresh) :
    (m.addValue data).layout =
      (if m.phase = .value then m.layout else m.layout ++ [0]) ++ data := by
  unfold Message.addValue Message.layout
  cases hph : m.phase with
  | fresh => exact absurd hph h
  | name =>
      simp only [reduceCtorEq, if_false, List.append_assoc, List.cons_append, List.nil_append]
  | value =>
      simp only [if_true, List.append_assoc, List.cons_append]

/-- With the last zero byte, the layout is that of all the headers. -/
theorem layout_end (m : Message) (h : m.phase = .value) :
    m.layout ++ [0] = encode m.headers := by
  unfold Message.layout Message.headers
  simp only [h, encode_append, List.append_assoc]
  simp only [encode, List.flatMap_cons, List.flatMap_nil, List.append_assoc, List.cons_append,
    List.nil_append]

/-- Before the first name there are no headers. -/
theorem reading_fresh (log : List Obs) (h : (reading log).phase = .fresh) :
    (reading log).done = [] := by
  induction log with
  | nil => rfl
  | cons o log ih =>
      cases o with
      | headerField data =>
          rw [reading, Message.addName_phase] at h
          exact Phase.noConfusion h
      | headerValue data =>
          rw [reading, Message.addValue_phase] at h
          exact Phase.noConfusion h
      | connected => rfl
      | complete => rfl
      | _ => exact ih h

/-- A message with headers that is not inside a name ends in a value. -/
theorem headers_value (log : List Obs) (hname : (reading log).phase ≠ .name)
    (hh : (reading log).headers ≠ []) : (reading log).phase = .value := by
  cases hph : (reading log).phase with
  | fresh =>
      refine absurd ?_ hh
      simp only [Message.headers, hph]
      exact reading_fresh log hph
  | name => exact absurd hph hname
  | value => rfl

/-! ### What the connection keeps -/

/-- The buffers and the state hold the message. -/
structure Clean (c : Conn) (m : Message) : Prop where
  state : c.state = .value ↔ m.phase = .value
  headers : c.headers.content = m.layout
  body : c.body.content = m.body

/-- What holds while the connection is up. -/
structure Collected (ph : Phase) (c : Conn) : Prop where
  headers : c.headers.Sound
  body : c.body.Sound
  some : ph ≠ .fresh ∨ c.state = .value → c.headers.mem ≠ []
  phase : (reading c.log).phase = ph
  clean : Fit c.log → Clean c (reading c.log)
  told : Told c.log

/-- What holds while it is not. -/
structure Waiting (c : Conn) : Prop where
  headers : c.headers.Sound
  body : c.body.Sound
  some : c.state = .value → c.headers.mem ≠ []
  clean : Fit c.log → c.state = .field ∧ c.headers.cursor = 0 ∧ c.body.cursor = 0
  told : Told c.log

/-- A buffer that has been allocated has room at the cursor. -/
theorem sound_lt (b : Buffer) (h : b.Sound) (hmem : b.mem ≠ []) : b.cursor < b.mem.length := by
  rcases h with ⟨h, _⟩ | h
  · exact absurd h hmem
  · omega

/-- Storing a zero byte first, or not, and then appending. -/
theorem append_after (junk : Nat → Byte) (b : Buffer) (data : Bytes) (p : Prop) [Decidable p]
    (h : b.Sound) (hmem : p → b.mem ≠ []) :
    (bufferAppend junk (if p then pushNul b else b) data).content =
        (if p then b.content ++ [0] else b.content) ++ data ∧
      (bufferAppend junk (if p then pushNul b else b) data).Sound ∧
        (bufferAppend junk (if p then pushNul b else b) data).mem ≠ [] := by
  -- The zero byte goes where the cursor is, for which there is room.
  have hstart : (if p then pushNul b else b).cursor ≤ (if p then pushNul b else b).mem.length ∧
      (if p then pushNul b else b).content = if p then b.content ++ [0] else b.content := by
    by_cases hp : p
    · rw [if_pos hp, if_pos hp]
      rcases pushNul_spec b (sound_lt b h (hmem hp)) with ⟨hc, hle⟩
      exact ⟨hle, hc⟩
    · rw [if_neg hp, if_neg hp]
      exact ⟨sound_le b h, rfl⟩
  rcases bufferAppend_spec junk _ data hstart.1 with ⟨hcontent, hroom⟩
  refine ⟨by rw [hcontent, hstart.2], Or.inr hroom, fun hnil => ?_⟩
  rw [hnil, List.length_nil] at hroom
  exact absurd hroom (Nat.not_lt_zero _)

/-- A piece of a name goes into the buffer as it goes into the message. -/
theorem headerField_clean (env : Env) (data : Bytes) (w : World) (m : Message)
    (hsound : w.c.headers.Sound) (hsome : w.c.state = .value → w.c.headers.mem ≠ []) :
    ((headerField env data w).c.headers.Sound ∧ (headerField env data w).c.headers.mem ≠ []) ∧
      (Clean w.c m → Clean (headerField env data w).c (m.addName data)) := by
  rcases append_after env.junk w.c.headers data (w.c.state = .value) hsound hsome with
    ⟨hcontent, hsound', hmem⟩
  refine ⟨⟨hsound', hmem⟩, fun hc => ?_⟩
  refine ⟨⟨fun hs => FieldState.noConfusion hs, fun hph => ?_⟩, ?_,
    hc.body.trans (Message.addName_body data _).symm⟩
  · exact Phase.noConfusion ((Message.addName_phase data m).symm.trans hph)
  · have hlayout := layout_addName data m
    rw [← hc.headers] at hlayout
    simp only [← hc.state] at hlayout
    exact hcontent.trans hlayout.symm

/-- A piece of a value, after a name. -/
theorem headerValue_clean (env : Env) (data : Bytes) (w : World) (m : Message)
    (hsound : w.c.headers.Sound) (hsome : w.c.headers.mem ≠ []) (hph : m.phase ≠ .fresh) :
    ((headerValue env data w).c.headers.Sound ∧ (headerValue env data w).c.headers.mem ≠ []) ∧
      (Clean w.c m → Clean (headerValue env data w).c (m.addValue data)) := by
  rcases append_after env.junk w.c.headers data (w.c.state = .field) hsound (fun _ => hsome) with
    ⟨hcontent, hsound', hmem⟩
  refine ⟨⟨hsound', hmem⟩, fun hc => ?_⟩
  refine ⟨⟨fun _ => Message.addValue_phase _ _, fun _ => rfl⟩, ?_,
    hc.body.trans (Message.addValue_body data _).symm⟩
  have hlayout := layout_addValue data m hph
  -- The state is one of two, and so is the choice of the zero byte.
  have hstate : w.c.state = .field ↔ ¬ m.phase = .value := by
    rw [← hc.state]
    cases w.c.state with
    | field => exact ⟨fun _ => FieldState.noConfusion, fun _ => rfl⟩
    | value => exact ⟨fun hs => FieldState.noConfusion hs, fun hs => absurd rfl hs⟩
  have hif : (if w.c.state = .field then w.c.headers.content ++ [0] else w.c.headers.content) =
      if m.phase = .value then w.c.headers.content else w.c.headers.content ++ [0] := by
    simp only [hstate, ite_not]
  rw [← hc.headers] at hlayout
  rw [hif] at hcontent
  exact hcontent.trans hlayout.symm

/-- A piece of a body. -/
theorem responseBody_clean (env : Env) (data : Bytes) (w : World) (m : Message)
    (hsound : w.c.body.Sound) :
    (responseBody env data w).c.body.Sound ∧
      (Clean w.c m → Clean (responseBody env data w).c (m.addBody data)) := by
  rcases bufferAppend_spec env.junk w.c.body data (sound_le _ hsound) with ⟨hcontent, hroom⟩
  refine ⟨Or.inr hroom, fun hc => ⟨hc.state, hc.headers, ?_⟩⟩
  have hbody : (responseBody env data w).c.body.content = w.c.body.content ++ data := hcontent
  rw [hbody, hc.body]
  rfl

theorem headerField_collected (env : Env) (ph : Phase) (data : Bytes) (w : World)
    (h : Collected ph w.c) : Collected .name (headerField env data w).c := by
  rcases headerField_clean env data w (reading w.c.log) h.headers (fun hs => h.some (Or.inr hs)) with
    ⟨⟨hsound, hmem⟩, hclean⟩
  exact ⟨hsound, h.body, fun _ => hmem, Message.addName_phase _ _,
    fun hfit => hclean (h.clean hfit), h.told⟩

theorem headerValue_collected (env : Env) (ph : Phase) (data : Bytes) (w : World)
    (hph : ph ≠ .fresh) (h : Collected ph w.c) :
    Collected .value (headerValue env data w).c := by
  rcases headerValue_clean env data w (reading w.c.log) h.headers (h.some (Or.inl hph))
    (by rw [h.phase]; exact hph) with ⟨⟨hsound, hmem⟩, hclean⟩
  exact ⟨hsound, h.body, fun _ => hmem, Message.addValue_phase _ _,
    fun hfit => hclean (h.clean hfit), h.told⟩

theorem responseBody_collected (env : Env) (ph : Phase) (data : Bytes) (w : World)
    (h : Collected ph w.c) : Collected ph (responseBody env data w).c := by
  rcases responseBody_clean env data w (reading w.c.log) h.body with ⟨hsound, hclean⟩
  exact ⟨h.headers, hsound, h.some, h.phase, fun hfit => hclean (h.clean hfit), h.told⟩

/-! ### A response completes -/

theorem isSome_iff (b : Buffer) : b.isSome = true ↔ b.mem ≠ [] := by
  simp only [Buffer.isSome, Bool.not_eq_true', List.isEmpty_eq_false_iff, ne_eq]

/-- The headers and the body the script is told of a message that is due. -/
theorem collected_due (ph : Phase) (c : Conn) (hph : ph ≠ .name) (h : Collected ph c)
    (hdue : Due c.log) :
    (pushNul c.headers).table = some (headerTable (reading c.log).headers) ∧
      c.body.content = (reading c.log).body := by
  rcases hdue with ⟨hfit, hh, hnul⟩
  have hc := h.clean hfit
  have hv := headers_value c.log (by rw [h.phase]; exact hph) hh
  have hmem : c.headers.mem ≠ [] := h.some (Or.inl (by rw [← h.phase, hv]; exact Phase.noConfusion))
  rcases pushNul_spec c.headers (sound_lt c.headers h.headers hmem) with ⟨hcontent, hle⟩
  have hread := decode_encode (pushNul c.headers) _ hnul hle
    (by rw [hcontent, hc.headers, layout_end _ hv])
  unfold Buffer.table
  rw [hread]
  exact ⟨rfl, hc.body⟩

/-- Telling the script of a response ends the message. -/
theorem tellScript_collected (env : Env) (ph : Phase) (status : Nat) (w : World)
    (hph : ph ≠ .name) (h : Collected ph w.c) :
    Collected .fresh (tellScript status (countComplete status (timeUs env w).2)).c := by
  unfold tellScript
  by_cases hsome : w.c.headers.isSome = true
  · rw [if_pos (by exact hsome)]
    have hmem := (isSome_iff _).mp hsome
    have hlt := sound_lt _ h.headers hmem
    have hroom : 0 + 1 < w.c.headers.mem.length := by
      rcases h.headers with ⟨hnil, _⟩ | hroom
      · exact absurd hnil hmem
      · omega
    refine ⟨Or.inr ?_, ?_, fun _ => ?_, rfl, fun _ => ⟨?_, rfl, rfl⟩, ?_, h.told⟩
    · change 0 + 1 < (w.c.headers.mem.set w.c.headers.cursor 0).length
      rw [List.length_set]
      exact hroom
    · rcases h.body with ⟨hb, _⟩ | hb
      · exact Or.inl ⟨hb, rfl⟩
      · refine Or.inr ?_
        change 0 + 1 < w.c.body.mem.length
        omega
    · change w.c.headers.mem.set w.c.headers.cursor 0 ≠ []
      intro hnil
      have hlen := congrArg List.length hnil
      rw [List.length_set, List.length_nil] at hlen
      omega
    · exact ⟨fun hs => FieldState.noConfusion hs, fun hs => Phase.noConfusion hs⟩
    · intro hdue
      rcases collected_due ph w.c hph h hdue with ⟨hheaders, hbody⟩
      exact ⟨rfl, hheaders, hbody⟩
  · rw [if_neg (by exact hsome)]
    have hnil : w.c.headers.mem = [] := by
      by_contra hmem
      exact hsome ((isSome_iff _).mpr hmem)
    -- Without a buffer no name has been reported, and nothing is due.
    have hfresh : ph = .fresh := by
      by_contra hne
      exact h.some (Or.inl hne) hnil
    have hnone : (reading w.c.log).headers = [] := by
      have hr : (reading w.c.log).phase = .fresh := h.phase.trans hfresh
      simp only [Message.headers, hr]
      exact reading_fresh w.c.log hr
    refine ⟨h.headers, h.body, fun hs => ?_, rfl, fun hfit => absurd hnone hfit.2,
      fun hdue => hdue.2.1 hnone, h.told⟩
    exact h.some (hs.imp_left (fun hs => absurd rfl hs))

/-! ### Handlers that leave responses alone -/

/-- Only entries that have nothing to do with responses are recorded, and the
    buffers are left alone. -/
def Aside (c d : Conn) : Prop :=
  (d.state = c.state ∧ d.headers = c.headers ∧ d.body = c.body) ∧
    ∃ pre, (∀ o ∈ pre, Obs.aside o = true) ∧ d.log = pre ++ c.log

theorem aside_trans (c d e : Conn) (h1 : Aside c d) (h2 : Aside d e) : Aside c e := by
  rcases h1 with ⟨⟨hs1, hh1, hb1⟩, pre1, hp1, hl1⟩
  rcases h2 with ⟨⟨hs2, hh2, hb2⟩, pre2, hp2, hl2⟩
  refine ⟨⟨hs2.trans hs1, hh2.trans hh1, hb2.trans hb1⟩, pre2 ++ pre1, fun o ho => ?_, ?_⟩
  · rcases List.mem_append.mp ho with ho | ho
    · exact hp2 o ho
    · exact hp1 o ho
  · rw [hl2, hl1, List.append_assoc]

/-- The buffers and the record unchanged. -/
theorem aside_same (c d : Conn) (hs : d.state = c.state) (hh : d.headers = c.headers)
    (hb : d.body = c.body) (hl : d.log = c.log) : Aside c d :=
  ⟨⟨hs, hh, hb⟩, [], fun _ h => absurd h List.not_mem_nil, hl⟩

/-- One entry recorded. -/
theorem aside_note (c d : Conn) (o : Obs) (ho : o.aside = true) (hs : d.state = c.state)
    (hh : d.headers = c.headers) (hb : d.body = c.body) (hl : d.log = o :: c.log) :
    Aside c d :=
  ⟨⟨hs, hh, hb⟩, [o], fun p hp => by rw [List.mem_singleton.mp hp, ho], hl⟩

theorem collected_aside (ph : Phase) (c d : Conn) (ha : Aside c d) (h : Collected ph c) :
    Collected ph d := by
  rcases ha with ⟨⟨hs, hh, hb⟩, pre, hpre, hl⟩
  -- No fact about the log depends on what was added to it.
  have hreading : reading d.log = reading c.log := by
    rw [hl]
    exact append_skip reading reading_aside pre c.log hpre
  have hfit : Fit d.log = Fit c.log := by
    rw [hl]
    exact append_skip Fit fit_aside pre c.log hpre
  have htold : Told d.log = Told c.log := by
    rw [hl]
    exact append_skip Told told_aside pre c.log hpre
  refine ⟨by rw [hh]; exact h.headers, by rw [hb]; exact h.body, ?_, by rw [hreading]; exact h.phase,
    fun hf => ?_, by rw [htold]; exact h.told⟩
  · rw [hs, hh]
    exact h.some
  · rw [hfit] at hf
    have hc := h.clean hf
    rw [hreading]
    exact ⟨by rw [hs]; exact hc.state, by rw [hh]; exact hc.headers, by rw [hb]; exact hc.body⟩

theorem waiting_aside (c d : Conn) (ha : Aside c d) (h : Waiting c) : Waiting d := by
  rcases ha with ⟨⟨hs, hh, hb⟩, pre, hpre, hl⟩
  have hfit : Fit d.log = Fit c.log := by
    rw [hl]
    exact append_skip Fit fit_aside pre c.log hpre
  have htold : Told d.log = Told c.log := by
    rw [hl]
    exact append_skip Told told_aside pre c.log hpre
  refine ⟨by rw [hh]; exact h.headers, by rw [hb]; exact h.body, ?_, fun hf => ?_,
    by rw [htold]; exact h.told⟩
  · rw [hs, hh]
    exact h.some
  · rw [hs, hh, hb]
    rw [hfit] at hf
    exact h.clean hf

theorem createWritable_aside (w : World) (p : Proc) : Aside w.c (createWritable w p).c := by
  unfold createWritable
  split_ifs
  · exact aside_same _ _ rfl rfl rfl rfl
  · exact aside_same _ _ rfl rfl rfl rfl

theorem lastResponse_aside (cfg : Config) (now : Nat) (w : World) :
    Aside w.c (lastResponse cfg now w).c := by
  unfold lastResponse
  split_ifs
  · unfold batchDone
    refine aside_trans _ _ _ ?_ (createWritable_aside _ _)
    exact aside_note _ _ (.recorded _ _) rfl rfl rfl rfl rfl
  · exact aside_same _ _ rfl rfl rfl rfl

theorem connectSocket_aside (env : Env) (w : World) : Aside w.c (connectSocket env w).c := by
  rcases connectSocket_cases env w with ⟨_, h⟩ | ⟨_, pre, hpre, h⟩
  · rw [h]
    refine ⟨⟨rfl, rfl, rfl⟩, [.opened w.c.connects, .sslSetOptions], fun o ho => ?_, rfl⟩
    simp only [List.mem_cons, List.not_mem_nil, or_false] at ho
    rcases ho with rfl | rfl <;> rfl
  · rw [h]
    exact ⟨⟨rfl, rfl, rfl⟩, pre, fun o ho => by rw [hpre o ho]; rfl, rfl⟩

theorem offering_aside (cfg : Config) (env : Env) (w : World) :
    Aside w.c (offering cfg env w).c := by
  unfold offering
  by_cases hw : w.c.written = 0
  · rw [if_pos hw]
    unfold startBatch
    by_cases hd : cfg.dynamic = true
    · rw [if_pos hd]
      exact aside_note _ _ _ rfl rfl rfl rfl rfl
    · rw [if_neg hd]
      exact aside_note _ _ _ rfl rfl rfl rfl rfl
  · rw [if_neg hw]
    exact aside_same _ _ rfl rfl rfl rfl

theorem acceptBytes_aside (n : Nat) (w : World) : Aside w.c (acceptBytes n w).c := by
  rcases acceptBytes_cases n w with ⟨_, _, h⟩ | ⟨_, _, h⟩
  · rw [h]
    refine ⟨⟨rfl, rfl, rfl⟩, [.finished _ _ _, .accepted _ _ _], fun o ho => ?_, rfl⟩
    simp only [List.mem_cons, List.not_mem_nil, or_false] at ho
    rcases ho with rfl | rfl <;> rfl
  · rw [h]
    exact aside_note _ _ _ rfl rfl rfl rfl rfl

/-- `socket_writeable` leaves responses alone, or reconnects from a state in
    which it has. -/
theorem socketWriteable_aside (cfg : Config) (env : Env) (r : WriteResult) (w : World) :
    (Aside w.c (socketWriteable cfg env r w).c ∧
        ((socketWriteable cfg env r w).c.up ↔ w.c.up)) ∨
      ∃ v : World, Aside w.c v.c ∧ socketWriteable cfg env r w = reconnectSocket env v := by
  have ho := offering_aside cfg env w
  have hup := up_congr _ _ (offering_registration cfg env w).1
  -- Sleeping, having to wait, an error, and bytes that were taken.
  rcases socketWriteable_cases cfg env r w with ⟨_, h⟩ | ⟨_, ⟨_, h⟩ | ⟨_, h⟩ | ⟨more, _, h⟩⟩
  · rw [h]
    exact Or.inl ⟨aside_note _ _ (.delayed _) rfl rfl rfl rfl rfl, Iff.rfl⟩
  · rw [h]
    exact Or.inl ⟨ho, hup⟩
  · exact Or.inr ⟨writeError (offering cfg env w), ho, h⟩
  · rw [h]
    refine Or.inl ⟨aside_trans _ _ _ ho (acceptBytes_aside _ _), Iff.trans ?_ hup⟩
    rcases acceptBytes_cases _ (offering cfg env w) with ⟨_, _, hc⟩ | ⟨_, _, hc⟩
    · rw [hc]
      exact Iff.rfl
    · rw [hc]
      exact Iff.rfl

/-! ### The rule for events -/

theorem countResponse_collected (cfg : Config) (env : Env) (ph : Phase) (status : Nat) (w : World)
    (hph : ph ≠ .name) (h : Collected ph w.c) :
    Collected .fresh (countResponse cfg env status w).c := by
  have htell := tellScript_collected env ph status w hph h
  unfold countResponse
  refine collected_aside .fresh _ _ ?_ htell
  refine aside_trans _ _ _ ?_ (lastResponse_aside cfg _ _)
  exact aside_same _ _ rfl rfl rfl rfl

/-- After a reconnect, whatever was collected is still there. The record says
    whether that was nothing. -/
theorem reconnectSocket_waiting (env : Env) (w : World) (hh : w.c.headers.Sound)
    (hb : w.c.body.Sound) (hs : w.c.state = .value → w.c.headers.mem ≠ []) (ht : Told w.c.log) :
    Waiting (reconnectSocket env w).c := by
  unfold reconnectSocket
  refine waiting_aside _ _ (connectSocket_aside env (closeSocket w)) ?_
  exact ⟨hh, hb, hs, fun hfit => hfit, ht⟩

theorem collected_waiting (env : Env) (ph : Phase) (w : World) (h : Collected ph w.c) :
    Waiting (reconnectSocket env w).c :=
  reconnectSocket_waiting env w h.headers h.body (fun hs => h.some (Or.inr hs)) h.told

theorem waiting_waiting (env : Env) (w : World) (h : Waiting w.c) :
    Waiting (reconnectSocket env w).c :=
  reconnectSocket_waiting env w h.headers h.body h.some h.told

/-- Establishing the connection begins a message. -/
theorem socketConnected_collected (env : Env) (w : World) (h : Waiting w.c) :
    Collected .fresh (socketConnected env .ok w).c := by
  have hc : (socketConnected env .ok w).c.state = w.c.state ∧
      (socketConnected env .ok w).c.headers = w.c.headers ∧
      (socketConnected env .ok w).c.body = w.c.body ∧
      (socketConnected env .ok w).c.log = .connected w.c.fd :: w.c.log := by
    unfold socketConnected createReadable createWritable
    by_cases hopen : w.c.fdOpen = true
    · simp only [World.setParser, World.note, hopen, if_true, and_self]
    · simp only [World.setParser, World.note, hopen, if_false, Bool.false_eq_true, and_self]
  -- What was collected before the connection was lost has been thrown away.
  rcases hc with ⟨hs, hh, hb, hl⟩
  refine ⟨by rw [hh]; exact h.headers, by rw [hb]; exact h.body, ?_, by rw [hl]; rfl,
    fun hfit => ?_, by rw [hl]; exact h.told⟩
  · rw [hs, hh]
    exact fun ho => h.some (ho.resolve_left (fun hne => hne rfl))
  · rw [hl] at hfit
    rcases h.clean hfit with ⟨hstate, hhead, hbody⟩
    rw [hl]
    refine ⟨?_, ?_, ?_⟩
    · rw [hs, hstate]
      exact ⟨fun hv => FieldState.noConfusion hv, fun hv => Phase.noConfusion hv⟩
    · rw [hh, Buffer.content, hhead, List.take_zero]
      rfl
    · rw [hb, Buffer.content, hbody, List.take_zero]
      rfl

/-- Every handler keeps what has been collected. -/
theorem keeps_collected (cfg : Config) (env : Env) :
    Keeps cfg env (fun ph w => Collected ph w.c) (fun w => Waiting w.c) where
  counters _ _ _ _ _ h := h
  countersDown _ _ _ _ h := h
  parser ph w q h := collected_aside ph w.c _ (aside_same _ _ rfl rfl rfl rfl) h
  parserDown w q h := waiting_aside w.c _ (aside_same _ _ rfl rfl rfl rfl) h
  field ph d w h := headerField_collected env ph d w h
  value ph d w hph h := headerValue_collected env ph d w hph h
  body ph d w h := responseBody_collected env ph d w h
  complete ph status w hph _ _ h := countResponse_collected cfg env ph status w hph h
  close ph status w hph _ _ h :=
    collected_waiting env .fresh _ (countResponse_collected cfg env ph status w hph h)
  reconnect ph w _ h := collected_waiting env ph w h
  reconnectDown w _ h := waiting_waiting env w h
  connect w _ _ h := socketConnected_collected env w h
  write ph r w _ _ _ h hu := by
    rcases socketWriteable_aside cfg env r w with ⟨ha, _⟩ | ⟨v, _, hv⟩
    · exact collected_aside ph w.c _ ha h
    · rw [hv] at hu
      exact absurd hu (reconnectSocket_down env v).2
  writeError ph r w hup _ _ h hd := by
    rcases socketWriteable_aside cfg env r w with ⟨_, hiff⟩ | ⟨v, ha, hv⟩
    · exact absurd (hiff.mpr hup) hd
    · rw [hv]
      exact collected_waiting env ph v (collected_aside ph w.c v.c ha h)
  writeDown r w _ _ _ h := by
    rcases socketWriteable_aside cfg env r w with ⟨ha, _⟩ | ⟨v, ha, hv⟩
    · exact waiting_aside w.c _ ha h
    · rw [hv]
      exact waiting_waiting env v (waiting_aside w.c v.c ha h)
  timer ph i w _ _ _ h :=
    collected_aside ph w.c _
      (aside_trans _ _ _ (aside_same _ _ rfl rfl rfl rfl) (createWritable_aside _ _)) h
  timerDown i w _ _ _ h :=
    waiting_aside w.c _
      (aside_trans _ _ _ (aside_same _ _ rfl rfl rfl rfl) (createWritable_aside _ _)) h

end Wrk
