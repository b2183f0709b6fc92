import Wrk.Connection.World
import Wrk.Core.Transition
import Wrk.HttpParser.Rule

/-!
# A Rule for Events

What every event of a connection keeps, from what each handler keeps. A
connection is up while `socket_readable` is registered, which is from the
success of `socket_connected` to the next `reconnect_socket`. The rule has a
predicate for each mode: `J ph` while the connection is up, where `ph` is the
last header callback of the message being read, and `K` while it is not.

The handlers only ever register themselves in a few combinations, so that the
event loop calls `socket_readable` only on a connection that is up and
`socket_connected` only on one that is not. `socket_writeable` can run in
both modes, because a timer may register it at any time.

Within one call of `socket_readable` the connection can be closed and opened
again by a response that allows no other. The parser is then dead, or the
stream has ended; the rule needs nothing more of the callbacks.

## Main definitions

* `Conn.up`: The connection has been established.
* `Registered`: The combinations of registered handlers.
* `Keeps`, `ReadKeeps`: What each handler keeps, and what reading needs of it.
* `Holds`: What the rule concludes at an event boundary.

## Theorems

* `reconnectSocket_down`: After a reconnect the connection is not up.
* `socketReadable_holds`, `socketWriteable_holds`: The rule for one handler.
* `step_holds`: The rule for one event.
* `run_holds`: The rule for a run.
-/

namespace Wrk

open HttpParser

/-- The connection has been established on its current descriptor. -/
def Conn.up (c : Conn) : Prop := c.readable = some .socketReadable

instance (c : Conn) : Decidable c.up := inferInstanceAs (Decidable (_ = _))

/-- The combinations of handlers that are ever registered. -/
structure Registered (c : Conn) : Prop where
  fdOpen : c.readable ≠ none ∨ c.writable ≠ none → c.fdOpen = true
  readable : c.readable ≠ some .socketWriteable
  writable : c.writable ≠ some .socketReadable
  connected : c.up → c.writable ≠ some .socketConnected

/-- What the event loop holds for the descriptor of a connection. -/
def Conn.registration (c : Conn) : Bool × Option Proc × Option Proc :=
  (c.fdOpen, c.readable, c.writable)

theorem up_congr (c d : Conn) (h : d.registration = c.registration) : d.up ↔ c.up := by
  simp only [Conn.registration, Prod.mk.injEq] at h
  unfold Conn.up
  rw [h.2.1]

theorem registered_congr (c d : Conn) (h : d.registration = c.registration)
    (hc : Registered c) : Registered d := by
  have hup := up_congr c d h
  simp only [Conn.registration, Prod.mk.injEq] at h
  rcases h with ⟨h1, h2, h3⟩
  refine ⟨?_, ?_, ?_, fun hd => ?_⟩
  · rw [h1, h2, h3]
    exact hc.fdOpen
  · rw [h2]
    exact hc.readable
  · rw [h3]
    exact hc.writable
  · rw [h3]
    exact hc.connected (hup.mp hd)

/-! ### What handlers do to the registration -/

theorem headerField_registration (env : Env) (d : Bytes) (w : World) :
    (headerField env d w).c.registration = w.c.registration := by
  simp only [headerField, World.note, Conn.registration]

theorem headerValue_registration (env : Env) (d : Bytes) (w : World) :
    (headerValue env d w).c.registration = w.c.registration := by
  simp only [headerValue, World.note, Conn.registration]

theorem responseBody_registration (env : Env) (d : Bytes) (w : World) :
    (responseBody env d w).c.registration = w.c.registration := by
  simp only [responseBody, World.note, Conn.registration]

/-- What does not depend on the handler for writing is kept when that is
    armed. -/
theorem createWritable_frame {β : Type} (f : World → β) (w : World) (p : Proc)
    (hf : f { w with c := { w.c with writable := some p } } = f w) :
    f (createWritable w p) = f w := by
  unfold createWritable
  split_ifs
  · exact hf
  · rfl

/-- What does not depend on the buffers nor on the script's calls is kept when
    the script is told of a response. -/
theorem tellScript_frame {β : Type} (f : World → β) (status : Nat) (w : World)
    (hf : f (scriptResponse status
      { w with c := { w.c with headers := pushNul w.c.headers, state := .field } }) = f w) :
    f (tellScript status w) = f w := by
  unfold tellScript
  split_ifs
  · exact hf
  · rfl

theorem tellScript_registration (status : Nat) (w : World) :
    (tellScript status w).c.registration = w.c.registration :=
  tellScript_frame (fun v => v.c.registration) status w rfl

theorem startBatch_registration (cfg : Config) (env : Env) (w : World) :
    (startBatch cfg env w).c.registration = w.c.registration := by
  unfold startBatch
  by_cases h : cfg.dynamic = true
  · simp only [h, if_true, timeUs, World.note, Conn.registration]
  · simp only [h, Bool.false_eq_true, if_false, timeUs, World.note, Conn.registration]

theorem countComplete_registration (status : Nat) (w : World) :
    (countComplete status w).c.registration = w.c.registration := by
  simp only [countComplete, World.note, Conn.registration]

theorem dropPending_registration (w : World) :
    (dropPending w).c.registration = w.c.registration := by
  simp only [dropPending, Conn.registration]

theorem timeUs_registration (env : Env) (w : World) :
    (timeUs env w).2.c.registration = w.c.registration := by
  simp only [timeUs, Conn.registration]

theorem createWritable_registered (w : World) (hw : Registered w.c) :
    Registered (createWritable w .socketWriteable).c ∧
      ((createWritable w .socketWriteable).c.up ↔ w.c.up) := by
  unfold createWritable
  split_ifs with hopen
  · refine ⟨⟨fun _ => hopen, hw.readable, ?_, fun _ => ?_⟩, Iff.rfl⟩
    · exact fun h => Proc.noConfusion (Option.some.inj h)
    · exact fun h => Proc.noConfusion (Option.some.inj h)
  · exact ⟨hw, Iff.rfl⟩

theorem batchDone_registered (cfg : Config) (now : Nat) (w : World) (hw : Registered w.c) :
    Registered (batchDone cfg now w).c ∧ ((batchDone cfg now w).c.up ↔ w.c.up) := by
  unfold batchDone
  exact createWritable_registered _ (registered_congr w.c _ rfl hw)

theorem lastResponse_registered (cfg : Config) (now : Nat) (w : World) (hw : Registered w.c) :
    Registered (lastResponse cfg now w).c ∧ ((lastResponse cfg now w).c.up ↔ w.c.up) := by
  unfold lastResponse
  by_cases h : w.c.pending = 0
  · rw [if_pos h]
    exact batchDone_registered cfg now w hw
  · rw [if_neg h]
    exact ⟨hw, Iff.rfl⟩

/-- Completing a response registers at most `socket_writeable`. -/
theorem countResponse_registered (cfg : Config) (env : Env) (status : Nat) (w : World)
    (hw : Registered w.c) :
    Registered (countResponse cfg env status w).c ∧
      ((countResponse cfg env status w).c.up ↔ w.c.up) := by
  have hsame : (dropPending (tellScript status
      (countComplete status (timeUs env w).2))).c.registration = w.c.registration := by
    rw [dropPending_registration, tellScript_registration, countComplete_registration,
      timeUs_registration]
  unfold countResponse
  rcases lastResponse_registered cfg (timeUs env w).1 _ (registered_congr w.c _ hsame hw) with
    ⟨hreg, hup⟩
  exact ⟨hreg, hup.trans (up_congr w.c _ hsame)⟩

/-- An attempt to connect opens and registers a new descriptor, or changes
    nothing but the number of attempts. -/
theorem connectSocket_cases (env : Env) (w : World) :
    (env.connect w.c.connects = .ok ∧
        (connectSocket env w).c =
          { w.c with
            fd := w.c.connects
            fdOpen := true
            readable := some .socketConnected
            writable := some .socketConnected
            connects := w.c.connects + 1
            log := .opened w.c.connects :: .sslSetOptions :: w.c.log }) ∨
      (env.connect w.c.connects ≠ .ok ∧
        ∃ pre, (∀ o ∈ pre, o = Obs.sslSetOptions) ∧
          (connectSocket env w).c =
            { w.c with connects := w.c.connects + 1, log := pre ++ w.c.log }) := by
  unfold connectSocket
  dsimp only
  cases h : env.connect w.c.connects with
  | ok => exact Or.inl ⟨rfl, rfl⟩
  | refused =>
      refine Or.inr ⟨fun h => ConnectResult.noConfusion h, [], fun o ho => ?_, rfl⟩
      exact absurd ho List.not_mem_nil
  | unregistered =>
      exact Or.inr ⟨fun h => ConnectResult.noConfusion h, [.sslSetOptions],
        fun o ho => List.mem_singleton.mp ho, rfl⟩

theorem registered_of_fresh (c : Conn)
    (h : c.registration = (true, some .socketConnected, some .socketConnected) ∨
      c.registration = (false, none, none)) : Registered c ∧ ¬ c.up := by
  simp only [Conn.registration, Prod.mk.injEq] at h
  unfold Conn.up
  rcases h with ⟨hopen, hr, hw⟩ | ⟨hopen, hr, hw⟩
  · have hdown : c.readable ≠ some .socketReadable := by simp only [hr, ne_eq, Option.some.injEq,
      reduceCtorEq, not_false_eq_true]
    refine ⟨⟨fun _ => hopen, ?_, ?_, fun hup => absurd hup hdown⟩, hdown⟩
    · simp only [hr, ne_eq, Option.some.injEq, reduceCtorEq, not_false_eq_true]
    · simp only [hw, ne_eq, Option.some.injEq, reduceCtorEq, not_false_eq_true]
  · have hdown : c.readable ≠ some .socketReadable := by simp only [hr, ne_eq, reduceCtorEq,
      not_false_eq_true]
    refine ⟨⟨fun hc => ?_, ?_, ?_, fun hup => absurd hup hdown⟩, hdown⟩
    · exact hc.elim (fun hc => absurd hr hc) (fun hc => absurd hw hc)
    · simp only [hr, ne_eq, reduceCtorEq, not_false_eq_true]
    · simp only [hw, ne_eq, reduceCtorEq, not_false_eq_true]

/-- After a reconnect the connection is not up. -/
theorem reconnectSocket_down (env : Env) (w : World) :
    Registered (reconnectSocket env w).c ∧ ¬ (reconnectSocket env w).c.up := by
  refine registered_of_fresh _ ?_
  unfold reconnectSocket
  rcases connectSocket_cases env (closeSocket w) with ⟨_, h⟩ | ⟨_, pre, _, h⟩
  · rw [h]
    exact Or.inl rfl
  · rw [h]
    exact Or.inr rfl

/-! ### The rule -/

/-- What each handler keeps: `J` while the connection is up, `K` while it is
    not. The bytes of the thread, its errors but for timeouts, and the parser
    itself are free to change. -/
structure Keeps (cfg : Config) (env : Env) (J : Phase → World → Prop) (K : World → Prop) :
    Prop where
  counters : ∀ ph w errors bytes, errors.timeout = w.thread.errors.timeout → J ph w →
    J ph { w with thread := { w.thread with errors := errors, bytes := bytes } }
  countersDown : ∀ w errors bytes, errors.timeout = w.thread.errors.timeout → K w →
    K { w with thread := { w.thread with errors := errors, bytes := bytes } }
  parser : ∀ ph w q, J ph w → J ph (w.setParser q)
  parserDown : ∀ w q, K w → K (w.setParser q)
  field : ∀ ph d w, J ph w → J .name (headerField env d w)
  value : ∀ ph d w, ph ≠ .fresh → J ph w → J .value (headerValue env d w)
  body : ∀ ph d w, J ph w → J ph (responseBody env d w)
  complete : ∀ ph status w, ph ≠ .name → w.c.up → Registered w.c → J ph w →
    J .fresh (countResponse cfg env status w)
  close : ∀ ph status w, ph ≠ .name → w.c.up → Registered w.c → J ph w →
    K (reconnectSocket env (countResponse cfg env status w))
  reconnect : ∀ ph w, w.c.up → J ph w → K (reconnectSocket env w)
  reconnectDown : ∀ w, ¬ w.c.up → K w → K (reconnectSocket env w)
  connect : ∀ w, ¬ w.c.up → w.c.fdOpen = true → K w → J .fresh (socketConnected env .ok w)
  write : ∀ ph r w, w.c.up → Registered w.c → w.c.writable = some .socketWriteable →
    J ph w → (socketWriteable cfg env r w).c.up → J ph (socketWriteable cfg env r w)
  writeError : ∀ ph r w, w.c.up → Registered w.c → w.c.writable = some .socketWriteable →
    J ph w → ¬ (socketWriteable cfg env r w).c.up → K (socketWriteable cfg env r w)
  writeDown : ∀ r w, ¬ w.c.up → Registered w.c → w.c.writable = some .socketWriteable →
    K w → K (socketWriteable cfg env r w)
  timer : ∀ ph i w, w.c.up → Registered w.c → i < w.c.timers.length → J ph w →
    J ph (delayRequest w i)
  timerDown : ∀ i w, ¬ w.c.up → Registered w.c → i < w.c.timers.length → K w →
    K (delayRequest w i)

/-- The part of it that reading needs. -/
structure ReadKeeps (cfg : Config) (env : Env) (J : Phase → World → Prop) (K : World → Prop) :
    Prop where
  counters : ∀ ph w errors bytes, errors.timeout = w.thread.errors.timeout → J ph w →
    J ph { w with thread := { w.thread with errors := errors, bytes := bytes } }
  countersDown : ∀ w errors bytes, errors.timeout = w.thread.errors.timeout → K w →
    K { w with thread := { w.thread with errors := errors, bytes := bytes } }
  parser : ∀ ph w q, J ph w → J ph (w.setParser q)
  parserDown : ∀ w q, K w → K (w.setParser q)
  field : ∀ ph d w, J ph w → J .name (headerField env d w)
  value : ∀ ph d w, ph ≠ .fresh → J ph w → J .value (headerValue env d w)
  body : ∀ ph d w, J ph w → J ph (responseBody env d w)
  complete : ∀ ph status w, ph ≠ .name → w.c.up → Registered w.c → J ph w →
    J .fresh (countResponse cfg env status w)
  close : ∀ ph status w, ph ≠ .name → w.c.up → Registered w.c → J ph w →
    K (reconnectSocket env (countResponse cfg env status w))
  reconnect : ∀ ph w, w.c.up → J ph w → K (reconnectSocket env w)
  reconnectDown : ∀ w, ¬ w.c.up → K w → K (reconnectSocket env w)

theorem Keeps.reads {cfg : Config} {env : Env} {J : Phase → World → Prop} {K : World → Prop}
    (hk : Keeps cfg env J K) : ReadKeeps cfg env J K :=
  ⟨hk.counters, hk.countersDown, hk.parser, hk.parserDown, hk.field, hk.value, hk.body,
    hk.complete, hk.close, hk.reconnect, hk.reconnectDown⟩

/-- What is kept while the connection is up. Without the data callbacks
    nothing is ever reported. -/
def Reported (cfg : Config) (J : Phase → World → Prop) (ph : Phase) (w : World) : Prop :=
  J (if cfg.wantResponse then ph else .fresh) w

/-- What holds at an event boundary. -/
structure Holds (cfg : Config) (J : Phase → World → Prop) (K : World → Prop) (w : World) :
    Prop where
  registered : Registered w.c
  up : w.c.up → ∃ ph, Agrees w.c.parser ph ∧ Reported cfg J ph w
  down : ¬ w.c.up → K w

theorem holds_down (cfg : Config) (J : Phase → World → Prop) (K : World → Prop) (w : World)
    (hw : Registered w.c ∧ ¬ w.c.up) (hK : K w) : Holds cfg J K w :=
  ⟨hw.1, fun h => absurd h hw.2, fun _ => hK⟩

theorem parserSettings_lawful (cfg : Config) (env : Env) : (parserSettings cfg env).Lawful := by
  refine ⟨fun q w h => ?_, fun q w h => ?_⟩
  · simp only [parserSettings, responseComplete, h, Bool.not_true, Bool.false_eq_true, if_false]
  · simp only [parserSettings, responseComplete, h, Bool.not_false, if_true]

/-- The two modes as the parser's callbacks see them. -/
def UpMode (cfg : Config) (J : Phase → World → Prop) (ph : Phase) (w : World) : Prop :=
  w.c.up ∧ Registered w.c ∧ Reported cfg J ph w

def DownMode (K : World → Prop) (w : World) : Prop := Registered w.c ∧ ¬ w.c.up ∧ K w

/-- A data callback, which is left out if the script has no use for responses. -/
theorem upMode_data (cfg : Config) (J : Phase → World → Prop) (callback : Bytes → World → World)
    (ph ph' : Phase) (d : Bytes) (w : World)
    (hsame : (callback d w).c.registration = w.c.registration)
    (hcallback : J ph w → J ph' (callback d w)) (h : UpMode cfg J ph w) :
    UpMode cfg J ph' ((if cfg.wantResponse then callback else fun _ w => w) d w) := by
  rcases h with ⟨hup, hreg, hJ⟩
  unfold UpMode Reported at *
  by_cases hwant : cfg.wantResponse = true
  · simp only [hwant, if_true] at hJ ⊢
    exact ⟨(up_congr _ _ hsame).mpr hup, registered_congr _ _ hsame hreg, hcallback hJ⟩
  · simp only [hwant, Bool.false_eq_true, if_false] at hJ ⊢
    exact ⟨hup, hreg, hJ⟩

/-- What a connection keeps while it is up, the parser's callbacks keep. -/
theorem reports_of_keeps (cfg : Config) (env : Env) (J : Phase → World → Prop) (K : World → Prop)
    (hk : ReadKeeps cfg env J K) :
    Reports (parserSettings cfg env) (UpMode cfg J) (DownMode K) := by
  have hvalued : ∀ ph : Phase, ph ≠ .name → (if cfg.wantResponse then ph else .fresh) ≠ .name := by
    intro ph hph
    split_ifs
    · exact hph
    · exact Phase.noConfusion
  constructor
  · exact fun ph d w => upMode_data cfg J (headerField env) ph .name d w
      (headerField_registration env d w) (hk.field ph d w)
  · exact fun ph d w hph => upMode_data cfg J (headerValue env) ph .value d w
      (headerValue_registration env d w) (hk.value ph d w hph)
  · exact fun ph d w => upMode_data cfg J (responseBody env) ph ph d w
      (responseBody_registration env d w) (hk.body ph d w)
  · -- A message after which the connection is kept.
    rintro ph q w hka hph ⟨hup, hreg, hJ⟩
    simp only [parserSettings, responseComplete, hka, Bool.not_true, Bool.false_eq_true, if_false]
    rcases countResponse_registered cfg env q.statusCode w hreg with ⟨hreg', hup'⟩
    have hJ' := hk.complete _ q.statusCode w (hvalued ph hph) hup hreg hJ
    refine ⟨hup'.mpr hup, hreg', ?_⟩
    unfold Reported
    rwa [ite_self]
  · rintro ph q w hka hph ⟨hup, hreg, hJ⟩
    simp only [parserSettings, responseComplete, hka, Bool.not_false, if_true]
    rcases reconnectSocket_down env (countResponse cfg env q.statusCode w) with ⟨hreg', hdown⟩
    exact ⟨hreg', hdown, hk.close _ _ w (hvalued ph hph) hup hreg hJ⟩

/-- Counting a read error and reconnecting, from either mode. -/
theorem readError_holds (cfg : Config) (env : Env) (J : Phase → World → Prop) (K : World → Prop)
    (hk : ReadKeeps cfg env J K) (w : World)
    (h : (w.c.up ∧ ∃ n, J n w) ∨ (¬ w.c.up ∧ K w)) :
    Holds cfg J K (reconnectSocket env (readError w)) := by
  refine holds_down cfg J K _ (reconnectSocket_down env _) ?_
  rcases h with ⟨hup, n, hJ⟩ | ⟨hdown, hK⟩
  · exact hk.reconnect n (readError w) hup (hk.counters n w _ _ rfl hJ)
  · exact hk.reconnectDown (readError w) hdown (hk.countersDown w _ _ rfl hK)

/-- The modes between two reads of one event: the connection is up, or it
    has been replaced by a response that allows no other and its parser is
    dead. -/
def Reading (cfg : Config) (J : Phase → World → Prop) (K : World → Prop) (w : World) : Prop :=
  (∃ ph, Agrees w.c.parser ph ∧ UpMode cfg J ph w) ∨
    (w.c.parser.state = .dead ∧ DownMode K w)

theorem holds_of_reading (cfg : Config) (J : Phase → World → Prop) (K : World → Prop) (w : World)
    (h : Reading cfg J K w) : Holds cfg J K w := by
  rcases h with ⟨ph, hagrees, hup, hreg, hrep⟩ | ⟨_, hreg, hdown, hK⟩
  · exact ⟨hreg, fun _ => ⟨ph, hagrees, hrep⟩, fun hdown => absurd hup hdown⟩
  · exact holds_down cfg J K w ⟨hreg, hdown⟩ hK

theorem setParser_registered (w : World) (q : HttpParser) (h : Registered w.c) :
    Registered (w.setParser q).c :=
  registered_congr w.c (w.setParser q).c rfl h

/-- A chunk ends in one of the modes, or it was the end of the stream. -/
theorem readChunk_reading (cfg : Config) (env : Env) (J : Phase → World → Prop)
    (K : World → Prop) (hk : ReadKeeps cfg env J K) (data : Bytes) (w : World)
    (h : Reading cfg J K w) :
    Reading cfg J K (readChunk cfg env data w).1 ∨
      (data = [] ∧ (readChunk cfg env data w).1.c.parser.state = .bodyIdentityEof ∧
        DownMode K (readChunk cfg env data w).1) := by
  unfold readChunk
  dsimp only
  rcases h with ⟨ph, hagrees, hmode⟩ | ⟨hdead, hmode⟩
  · rcases execute_rule _ (parserSettings_lawful cfg env) _ _ (reports_of_keeps cfg env J K hk)
      w.c.parser w ph hmode hagrees data with
      ⟨ph', ⟨hup, hreg, hJ⟩, hagrees'⟩ | ⟨⟨hreg, hdown, hK⟩, hs⟩
    · exact Or.inl (Or.inl ⟨ph', hagrees', hup, setParser_registered _ _ hreg,
        hk.parser _ _ _ hJ⟩)
    · have hdown' : DownMode K ((execute (parserSettings cfg env) w.c.parser w data).2.1.setParser
          (execute (parserSettings cfg env) w.c.parser w data).1) :=
        ⟨setParser_registered _ _ hreg, hdown, hk.parserDown _ _ hK⟩
      rcases hs with hs | ⟨hdata, hs⟩
      · exact Or.inl (Or.inr ⟨hs, hdown'⟩)
      · exact Or.inr ⟨hdata, hs, hdown'⟩
  · rcases execute_dead (parserSettings cfg env) w.c.parser w data hdead with ⟨hu, hs⟩
    rw [hu]
    exact Or.inl (Or.inr ⟨hs, setParser_registered _ _ hmode.1, hmode.2.1,
      hk.parserDown _ _ hmode.2.2⟩)

theorem countBytes_reading (cfg : Config) (env : Env) (J : Phase → World → Prop)
    (K : World → Prop) (hk : ReadKeeps cfg env J K) (n : Nat) (w : World) (h : Reading cfg J K w) :
    Reading cfg J K (countBytes n w) := by
  rcases h with ⟨ph, hagrees, hup, hreg, hJ⟩ | ⟨hdead, hreg, hdown, hK⟩
  · exact Or.inl ⟨ph, hagrees, hup, hreg, hk.counters _ w _ _ rfl hJ⟩
  · exact Or.inr ⟨hdead, hreg, hdown, hk.countersDown w _ _ rfl hK⟩

/-- The loop of `socket_readable`. -/
theorem socketReadable_holds (cfg : Config) (env : Env) (J : Phase → World → Prop)
    (K : World → Prop) (hk : ReadKeeps cfg env J K) (reads : List ReadStep) (w : World)
    (h : Reading cfg J K w) : Holds cfg J K (socketReadable cfg env reads w) := by
  -- An error in any of the modes, the end of the stream included.
  have herror : ∀ v : World, (Reading cfg J K v ∨ DownMode K v) →
      Holds cfg J K (reconnectSocket env (readError v)) := by
    rintro v ((⟨_, _, hup, _, hJ⟩ | ⟨_, _, hdown, hK⟩) | ⟨_, hdown, hK⟩)
    · exact readError_holds cfg env J K hk v (Or.inl ⟨hup, _, hJ⟩)
    · exact readError_holds cfg env J K hk v (Or.inr ⟨hdown, hK⟩)
    · exact readError_holds cfg env J K hk v (Or.inr ⟨hdown, hK⟩)
  induction reads generalizing w with
  | nil => exact holds_of_reading cfg J K w h
  | cons r reads ih =>
      unfold socketReadable
      cases r.result with
      | retry => exact holds_of_reading cfg J K w h
      | error => exact herror w (Or.inl h)
      | ok data =>
          dsimp only
          have hchunk := readChunk_reading cfg env J K hk (data.take recvBuf) w h
          generalize readChunk cfg env (data.take recvBuf) w = x at hchunk
          have hmode : Reading cfg J K x.1 ∨ DownMode K x.1 :=
            hchunk.imp_right (fun h => h.2.2)
          by_cases hlen : x.2 ≠ (data.take recvBuf).length
          · rw [if_pos hlen]
            exact herror x.1 hmode
          rw [if_neg hlen]
          by_cases heof : (decide (data.take recvBuf = []) && !httpBodyIsFinal x.1.c.parser) = true
          · rw [if_pos heof]
            exact herror x.1 hmode
          rw [if_neg heof]
          -- The end of the stream is never final, so it was caught above.
          have hread : Reading cfg J K x.1 := by
            rcases hchunk with hread | ⟨hdata, hs, _⟩
            · exact hread
            · refine absurd ?_ heof
              simp only [hdata, decide_true, httpBodyIsFinal, hs, reduceCtorEq, decide_false,
                Bool.not_false, Bool.and_self]
          have hcount := countBytes_reading cfg env J K hk (data.take recvBuf).length x.1 hread
          by_cases hmore : (decide ((data.take recvBuf).length = recvBuf) && r.more) = true
          · rw [if_pos hmore]
            exact ih _ hcount
          · rw [if_neg hmore]
            exact holds_of_reading cfg J K _ hcount

theorem connectError_holds (cfg : Config) (env : Env) (J : Phase → World → Prop)
    (K : World → Prop) (hk : Keeps cfg env J K) (w : World) (hdown : ¬ w.c.up) (hK : K w) :
    Holds cfg J K (reconnectSocket env (connectError w)) :=
  holds_down cfg J K _ (reconnectSocket_down env _)
    (hk.reconnectDown (connectError w) hdown (hk.countersDown w _ _ rfl hK))

theorem socketConnected_holds (cfg : Config) (env : Env) (J : Phase → World → Prop)
    (K : World → Prop) (hk : Keeps cfg env J K) (r : SockStatus) (w : World)
    (hopen : w.c.fdOpen = true) (hreg : Registered w.c) (hdown : ¬ w.c.up) (hK : K w) :
    Holds cfg J K (socketConnected env r w) := by
  cases r with
  | retry => exact holds_down cfg J K w ⟨hreg, hdown⟩ hK
  | error => exact connectError_holds cfg env J K hk w hdown hK
  | ok =>
      have hJ := hk.connect w hdown hopen hK
      -- The descriptor is open, so both handlers are registered.
      have hc : (socketConnected env .ok w).c.registration
          = (true, some .socketReadable, some .socketWriteable) := by
        simp only [socketConnected, createReadable, createWritable, World.setParser, World.note,
          hopen, if_true, Conn.registration]
      have hparser : (socketConnected env .ok w).c.parser = httpParserInit := by
        simp only [socketConnected, createReadable, createWritable, World.setParser, World.note,
          hopen, if_true]
      simp only [Conn.registration, Prod.mk.injEq] at hc
      rcases hc with ⟨ho, hr, hw⟩
      refine ⟨⟨fun _ => ho, ?_, ?_, fun _ => ?_⟩, fun _ => ⟨.fresh, fun _ => ?_, ?_⟩,
        fun h => absurd hr h⟩
      · rw [hr]
        exact fun h => Proc.noConfusion (Option.some.inj h)
      · rw [hw]
        exact fun h => Proc.noConfusion (Option.some.inj h)
      · rw [hw]
        exact fun h => Proc.noConfusion (Option.some.inj h)
      · rw [hparser]
        exact ⟨fun h => absurd h Bool.false_ne_true, fun h => Phase.noConfusion h⟩
      · unfold Reported
        rwa [ite_self]

/-- The state in which `socket_writeable` offers bytes. -/
def offering (cfg : Config) (env : Env) (w : World) : World :=
  if w.c.written = 0 then startBatch cfg env w else w

theorem offering_registration (cfg : Config) (env : Env) (w : World) :
    (offering cfg env w).c.registration = w.c.registration ∧
      (offering cfg env w).c.parser = w.c.parser := by
  unfold offering
  by_cases h : w.c.written = 0
  · rw [if_pos h]
    refine ⟨startBatch_registration cfg env w, ?_⟩
    unfold startBatch
    by_cases hd : cfg.dynamic = true
    · simp only [hd, if_true, timeUs, World.note]
    · simp only [hd, Bool.false_eq_true, if_false, timeUs, World.note]
  · rw [if_neg h]
    exact ⟨rfl, rfl⟩

/-- What `socket_writeable` can do. -/
theorem socketWriteable_cases (cfg : Config) (env : Env) (r : WriteResult) (w : World) :
    (w.c.delayed = true ∧ socketWriteable cfg env r w = createDelay env w) ∨
      (w.c.delayed = false ∧
        ((r = .retry ∧ socketWriteable cfg env r w = offering cfg env w) ∨
          (r = .error ∧
            socketWriteable cfg env r w = reconnectSocket env (writeError (offering cfg env w))) ∨
          ∃ more, r = .ok more ∧ socketWriteable cfg env r w =
            acceptBytes
              (min (more + 1)
                ((offering cfg env w).c.request.length - (offering cfg env w).c.written))
              (offering cfg env w))) := by
  unfold socketWriteable
  cases hd : w.c.delayed with
  | true => exact Or.inl ⟨rfl, rfl⟩
  | false =>
      refine Or.inr ⟨rfl, ?_⟩
      cases r with
      | retry => exact Or.inl ⟨rfl, rfl⟩
      | error => exact Or.inr (Or.inl ⟨rfl, rfl⟩)
      | ok more => exact Or.inr (Or.inr ⟨more, rfl, rfl⟩)

/-- Unregistering the writing handler keeps the combinations. -/
theorem registered_of_unwritable (c d : Conn) (hc : Registered c) (hopen : d.fdOpen = c.fdOpen)
    (hr : d.readable = c.readable) (hw : d.writable = none ∨ d.writable = c.writable) :
    Registered d := by
  refine ⟨fun h => ?_, ?_, ?_, fun hup => ?_⟩
  · rw [hopen]
    refine hc.fdOpen (h.imp (fun h => by rwa [hr] at h) (fun h => ?_))
    rcases hw with hw | hw
    · exact absurd hw h
    · rwa [hw] at h
  · rw [hr]
    exact hc.readable
  · rcases hw with hw | hw
    · rw [hw]
      exact (Option.some_ne_none _).symm
    · rw [hw]
      exact hc.writable
  · unfold Conn.up at hup
    rw [hr] at hup
    rcases hw with hw | hw
    · rw [hw]
      exact (Option.some_ne_none _).symm
    · rw [hw]
      exact hc.connected hup

/-- Accepting bytes of a batch: the whole batch, or part of it. -/
theorem acceptBytes_cases (n : Nat) (w : World) :
    (w.c.written + n = w.c.request.length ∧ (acceptBytes n w).thread = w.thread ∧
        (acceptBytes n w).c =
          { w.c with
            written := 0
            writable := none
            log :=
              .finished w.c.fd w.c.pending w.c.timers.length ::
                .accepted w.c.fd w.c.written ((w.c.request.drop w.c.written).take n) ::
                  w.c.log }) ∨
      (w.c.written + n ≠ w.c.request.length ∧ (acceptBytes n w).thread = w.thread ∧
        (acceptBytes n w).c =
          { w.c with
            written := w.c.written + n
            log :=
              .accepted w.c.fd w.c.written ((w.c.request.drop w.c.written).take n) ::
                w.c.log }) := by
  unfold acceptBytes
  dsimp only [World.note]
  by_cases h : w.c.written + n = w.c.request.length
  · rw [if_pos h]
    exact Or.inl ⟨h, rfl, rfl⟩
  · rw [if_neg h]
    exact Or.inr ⟨h, rfl, rfl⟩

/-- What `socket_writeable` leaves registered. -/
theorem socketWriteable_registered (cfg : Config) (env : Env) (r : WriteResult) (w : World)
    (hreg : Registered w.c) :
    Registered (socketWriteable cfg env r w).c ∧
      ((socketWriteable cfg env r w).c.up →
        w.c.up ∧ (socketWriteable cfg env r w).c.parser = w.c.parser) := by
  rcases offering_registration cfg env w with ⟨hsame, hparser⟩
  have hreg' := registered_congr _ _ hsame hreg
  have hup' := up_congr _ _ hsame
  rcases socketWriteable_cases cfg env r w with ⟨_, h⟩ | ⟨_, ⟨_, h⟩ | ⟨_, h⟩ | ⟨more, _, h⟩⟩
  · rw [h]
    exact ⟨registered_of_unwritable w.c _ hreg rfl rfl (Or.inl rfl), fun hup => ⟨hup, rfl⟩⟩
  · rw [h]
    exact ⟨hreg', fun hup => ⟨hup'.mp hup, hparser⟩⟩
  · rw [h]
    rcases reconnectSocket_down env (writeError (offering cfg env w)) with ⟨hr, hdown⟩
    exact ⟨hr, fun hup => absurd hup hdown⟩
  · rw [h]
    rcases acceptBytes_cases _ (offering cfg env w) with ⟨_, _, hc⟩ | ⟨_, _, hc⟩
    · rw [hc]
      exact ⟨registered_of_unwritable _ _ hreg' rfl rfl (Or.inl rfl),
        fun hup => ⟨hup'.mp hup, hparser⟩⟩
    · rw [hc]
      exact ⟨registered_of_unwritable _ _ hreg' rfl rfl (Or.inr rfl),
        fun hup => ⟨hup'.mp hup, hparser⟩⟩

/-- `socket_writeable`, in either mode. -/
theorem socketWriteable_holds (cfg : Config) (env : Env) (J : Phase → World → Prop)
    (K : World → Prop) (hk : Keeps cfg env J K) (r : WriteResult) (w : World)
    (hw : w.c.writable = some .socketWriteable) (h : Holds cfg J K w) :
    Holds cfg J K (socketWriteable cfg env r w) := by
  rcases socketWriteable_registered cfg env r w h.registered with ⟨hreg, hback⟩
  refine ⟨hreg, fun hu => ?_, fun hd => ?_⟩
  · rcases hback hu with ⟨hup, hparser⟩
    rcases h.up hup with ⟨ph, hagrees, hJ⟩
    refine ⟨ph, ?_, hk.write _ r w hup h.registered hw hJ hu⟩
    rw [hparser]
    exact hagrees
  · by_cases hup : w.c.up
    · rcases h.up hup with ⟨_, _, hJ⟩
      exact hk.writeError _ r w hup h.registered hw hJ hd
    · exact hk.writeDown r w hup h.registered hw (h.down hup)

/-- A timer, in either mode. -/
theorem delayRequest_holds (cfg : Config) (env : Env) (J : Phase → World → Prop)
    (K : World → Prop) (hk : Keeps cfg env J K) (i : Nat) (w : World)
    (hi : i < w.c.timers.length) (h : Holds cfg J K w) : Holds cfg J K (delayRequest w i) := by
  have hreg : Registered (delayRequest w i).c ∧ ((delayRequest w i).c.up ↔ w.c.up) := by
    unfold delayRequest
    exact createWritable_registered
      { w with c := { w.c with delayed := false, timers := w.c.timers.eraseIdx i } }
      (registered_congr w.c _ rfl h.registered)
  have hparser : (delayRequest w i).c.parser = w.c.parser := by
    unfold delayRequest createWritable
    by_cases hopen : w.c.fdOpen = true
    · simp only [hopen, if_true]
    · simp only [hopen, Bool.false_eq_true, if_false]
  refine ⟨hreg.1, fun hu => ?_, fun hd => ?_⟩
  · rcases h.up (hreg.2.mp hu) with ⟨ph, hagrees, hJ⟩
    refine ⟨ph, ?_, hk.timer _ i w (hreg.2.mp hu) h.registered hi hJ⟩
    rw [hparser]
    exact hagrees
  · have hwd : ¬ w.c.up := fun hu => hd (hreg.2.mpr hu)
    exact hk.timerDown i w hwd h.registered hi (h.down hwd)

/-- One event keeps what the handlers keep. -/
theorem step_holds (cfg : Config) (env : Env) (J : Phase → World → Prop) (K : World → Prop)
    (hk : Keeps cfg env J K) (w w' : World) (a : Act) (h : Holds cfg J K w)
    (hs : step cfg env w a = some w') : Holds cfg J K w' := by
  -- `socket_connected` is registered only while the connection is not up.
  have hconnected : ∀ (p : Option Proc), p = some .socketConnected →
      (p = w.c.readable ∨ p = w.c.writable) → ¬ w.c.up ∧ w.c.fdOpen = true := by
    rintro p hp (hr | hw)
    · rw [hp] at hr
      refine ⟨fun hup => ?_, h.registered.fdOpen (Or.inl (by rw [← hr]; exact Option.some_ne_none _))⟩
      unfold Conn.up at hup
      rw [← hr] at hup
      exact absurd hup (by decide)
    · rw [hp] at hw
      exact ⟨fun hup => h.registered.connected hup hw.symm,
        h.registered.fdOpen (Or.inr (by rw [← hw]; exact Option.some_ne_none _))⟩
  cases a with
  | readable io =>
      simp only [step, Option.map_eq_some_iff] at hs
      rcases hs with ⟨p, hp, rfl⟩
      cases p with
      | socketConnected =>
          rcases hconnected _ rfl (Or.inl hp.symm) with ⟨hdown, hopen⟩
          exact socketConnected_holds cfg env J K hk io.connect w hopen h.registered hdown
            (h.down hdown)
      | socketWriteable => exact absurd hp h.registered.readable
      | socketReadable =>
          rcases h.up hp with ⟨ph, hagrees, hrep⟩
          exact socketReadable_holds cfg env J K hk.reads io.reads w
            (Or.inl ⟨ph, hagrees, hp, h.registered, hrep⟩)
  | writable io =>
      simp only [step, Option.map_eq_some_iff] at hs
      rcases hs with ⟨p, hp, rfl⟩
      cases p with
      | socketConnected =>
          rcases hconnected _ rfl (Or.inr hp.symm) with ⟨hdown, hopen⟩
          exact socketConnected_holds cfg env J K hk io.connect w hopen h.registered hdown
            (h.down hdown)
      | socketWriteable => exact socketWriteable_holds cfg env J K hk io.write w hp h
      | socketReadable => exact absurd hp h.registered.writable
  | timer i =>
      simp only [step] at hs
      by_cases hi : i < w.c.timers.length
      · rw [if_pos hi, Option.some.injEq] at hs
        rw [← hs]
        exact delayRequest_holds cfg env J K hk i w hi h
      · rw [if_neg hi] at hs
        exact absurd hs (by simp only [reduceCtorEq, not_false_eq_true])

/-! ### Runs -/

/-- The connection after its first attempt to connect. -/
theorem threadMain_holds (cfg : Config) (env : Env) (J : Phase → World → Prop)
    (K : World → Prop) (t : Thread) (hK : K (threadMain cfg env t)) :
    Holds cfg J K (threadMain cfg env t) := by
  refine holds_down cfg J K _ (registered_of_fresh _ ?_) hK
  unfold threadMain
  rcases connectSocket_cases env { thread := t, c := Conn.zero cfg } with ⟨_, h⟩ | ⟨_, pre, _, h⟩
  · rw [h]
    exact Or.inl rfl
  · rw [h]
    exact Or.inr rfl

/-- What the handlers keep, every run keeps. -/
theorem run_holds (cfg : Config) (env : Env) (J : Phase → World → Prop) (K : World → Prop)
    (hk : Keeps cfg env J K) (t : Thread) (hK : K (threadMain cfg env t)) (as : List Act)
    (w : World) (hrun : Transition.run (step cfg env) (threadMain cfg env t) as = some w) :
    Holds cfg J K w :=
  Transition.run_invariant (step cfg env) (Holds cfg J K)
    (fun v a v' hv hs => step_holds cfg env J K hk v v' a hv hs) _ w as
    (threadMain_holds cfg env J K t hK) hrun

end Wrk
