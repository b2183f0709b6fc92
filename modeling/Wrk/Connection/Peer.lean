import Wrk.Connection.Events
import Wrk.Connection.Record
import Wrk.HttpParser.Split

/-!
# A Connection and its Peer

A connection and a server, with a stream of bytes in flight each way. The
server takes bytes off its stream one by one. It can tell when what it has is
a complete request, and then owes a response to it. When it owes one it may
send one, at once or later, and it sends nothing else. Both streams arrive in
order, split in any way, and the transport never fails.

What the server sends for a request is one final response after which the
connection is kept. It counts as sent when its first byte is; the connection
can still read it in any number of pieces.

## Main definitions

* `requestsIn`: The requests that complete in a stream of bytes.
* `Net`: The connection, the server and the two streams.
* `served`, `delivered`: Reads that do not fail, and what they take.
* `Net.step`: A step of either party.

## Theorems

* `requestsIn_append`: A stream is taken in parts.
* `requestsIn_pos`: A stream that ends with a request has one.
* `requestsIn_flatten`: Requests one after another are as many.
* `socketReadable_completes`: What the callbacks keep while a stream is read.
-/

namespace Wrk

open HttpParser

/-- The requests that complete in a stream of bytes, and what is left of the
    next, when the server already has some of the first. -/
def requestsIn (whole : Bytes → Bool) (asked : Bytes) : Bytes → Bytes × Nat
  | [] => (asked, 0)
  | ch :: data =>
      if whole (asked ++ [ch]) then
        ((requestsIn whole [] data).1, (requestsIn whole [] data).2 + 1)
      else requestsIn whole (asked ++ [ch]) data

/-- The connection, the two streams, and the server: what it has of the next
    request, the responses it owes and those it has sent. -/
structure Net where
  client : World
  outgoing : Bytes
  asked : Bytes
  owed : Nat
  answered : Nat
  incoming : Bytes

/-- An event of the connection, or a step of the server: it takes a byte, or
    sends a response. -/
inductive NetAct where
  | client (a : Act)
  | hear
  | answer (text : Bytes)

/-- Another read follows this one. -/
def ReadStep.again (r : ReadStep) (data : Bytes) : Bool :=
  decide ((data.take recvBuf).length = recvBuf) && r.more

/-- No read fails, or finds the end of the stream. -/
def served : List ReadStep → Bool
  | [] => true
  | r :: rs =>
      match r.result with
      | .ok data => decide (data ≠ []) && (!r.again data || served rs)
      | .error => false
      | .retry => true

/-- The bytes that reads take. -/
def delivered : List ReadStep → Bytes
  | [] => []
  | r :: rs =>
      match r.result with
      | .ok data => data.take recvBuf ++ if r.again data then delivered rs else []
      | _ => []

/-- The reads of an event, on a connection that is up. -/
def reads (w : World) : Act → List ReadStep
  | .readable io => if w.c.up then io.reads else []
  | _ => []

/-- Nothing fails during an event. -/
def faultless (w : World) (a : Act) : Bool :=
  served (reads w a) &&
    match a with
    | .readable io => decide (io.connect ≠ .error)
    | .writable io => decide (io.connect ≠ .error) && decide (io.write ≠ .error)
    | .timer _ => true

/-- The bytes that the transport has accepted between two states. -/
def sentSince (w w' : World) : Bytes :=
  (wire w'.c.fd w'.c.log).drop (wire w'.c.fd w.c.log).length

/-- One step, if it can occur. -/
def Net.step (cfg : Config) (env : Env) (whole : Bytes → Bool) (s : Net) : NetAct → Option Net
  | .client a =>
      let got := delivered (reads s.client a)
      if faultless s.client a && got.isPrefixOf s.incoming then
        (Wrk.step cfg env s.client a).map (fun w =>
          { s with
            client := w
            outgoing := s.outgoing ++ sentSince s.client w
            incoming := s.incoming.drop got.length })
      else none
  | .hear =>
      match s.outgoing with
      | [] => none
      | ch :: data =>
          some
            { s with
              outgoing := data
              asked := (requestsIn whole s.asked [ch]).1
              owed := s.owed + (requestsIn whole s.asked [ch]).2 }
  | .answer text =>
      if decide (0 < s.owed) && isResponse text then
        some
          { s with
            owed := s.owed - 1
            answered := s.answered + 1
            incoming := s.incoming ++ text }
      else none

/-- The connection as `thread_main` leaves it, and an idle server. -/
def Net.start (cfg : Config) (env : Env) (t : Thread) : Net :=
  { client := threadMain cfg env t
    outgoing := []
    asked := []
    owed := 0
    answered := 0
    incoming := [] }

/-! ### Requests in a stream -/

theorem requestsIn_append (whole : Bytes → Bool) (asked data data' : Bytes) :
    requestsIn whole asked (data ++ data') =
      ((requestsIn whole (requestsIn whole asked data).1 data').1,
        (requestsIn whole asked data).2 +
          (requestsIn whole (requestsIn whole asked data).1 data').2) := by
  induction data generalizing asked with
  | nil => simp only [List.nil_append, requestsIn, Nat.zero_add, Prod.mk.eta]
  | cons ch data ih =>
      simp only [List.cons_append, requestsIn]
      by_cases hwhole : whole (asked ++ [ch]) = true
      · simp only [hwhole, if_true, ih []]
        rw [Nat.add_right_comm]
      · simp only [hwhole, if_false, Bool.false_eq_true]
        exact ih (asked ++ [ch])

/-- A stream that is not empty and leaves nothing completes a request. -/
theorem requestsIn_pos (whole : Bytes → Bool) (asked data : Bytes) (hne : data ≠ [])
    (h : (requestsIn whole asked data).1 = []) : 0 < (requestsIn whole asked data).2 := by
  induction data generalizing asked with
  | nil => exact absurd rfl hne
  | cons ch data ih =>
      simp only [requestsIn] at h ⊢
      by_cases hwhole : whole (asked ++ [ch]) = true
      · simp only [hwhole, if_true]
        exact Nat.succ_pos _
      · simp only [hwhole, if_false, Bool.false_eq_true] at h ⊢
        refine ih (asked ++ [ch]) (fun hnil => ?_) h
        rw [hnil, requestsIn] at h
        exact List.append_ne_nil_of_right_ne_nil asked (List.cons_ne_nil ch []) h

/-- Nothing is under way when nothing is left and nothing completes. -/
theorem requestsIn_zero (whole : Bytes → Bool) (asked data : Bytes)
    (h : requestsIn whole asked data = ([], 0)) : asked = [] ∧ data = [] := by
  have hnil : data = [] := by
    by_contra hne
    have hpos := requestsIn_pos whole asked data hne (congrArg Prod.fst h)
    rw [h] at hpos
    exact Nat.lt_irrefl 0 hpos
  rw [hnil, requestsIn] at h
  exact ⟨congrArg Prod.fst h, hnil⟩

theorem requestsIn_flatten (whole : Bytes → Bool) (requests : List Bytes)
    (h : ∀ text ∈ requests, requestsIn whole [] text = ([], 1)) :
    requestsIn whole [] requests.flatten = ([], requests.length) := by
  induction requests with
  | nil => rfl
  | cons text requests ih =>
      have hrest := ih (fun r hr => h r (List.mem_cons_of_mem text hr))
      rw [List.flatten_cons, requestsIn_append, h text List.mem_cons_self, hrest,
        List.length_cons, Nat.add_comm]

/-! ### Reading a stream -/

/-- The loop of `socket_readable` on a stream that the parser accepts one byte
    at a time, for what its callbacks keep. -/
theorem socketReadable_completes (cfg : Config) (env : Env) (P : Nat → World → Prop)
    (hs : Completes (parserSettings cfg env) P) (hparser : ∀ n w q, P n w → P n (w.setParser q))
    (hbytes : ∀ n m w, P n w → P n (countBytes m w)) (rs : List ReadStep) (q q' : HttpParser)
    (k n : Nat) (w : World) (hserved : served rs = true) (htrails : Trails w.c.parser q)
    (hdata : bytewise q (delivered rs) = some (q', k)) (h : P (k + n) w) :
    Trails (socketReadable cfg env rs w).c.parser q' ∧ P n (socketReadable cfg env rs w) := by
  induction rs generalizing q k w with
  | nil =>
      simp only [delivered, bytewise, Option.some.injEq, Prod.mk.injEq] at hdata
      rcases hdata with ⟨rfl, rfl⟩
      rw [Nat.zero_add] at h
      exact ⟨htrails, h⟩
  | cons r rs ih =>
      unfold socketReadable
      unfold served at hserved
      unfold delivered at hdata
      cases hr : r.result with
      | error =>
          rw [hr] at hserved
          exact absurd hserved Bool.false_ne_true
      | retry =>
          simp only [hr, bytewise, Option.some.injEq, Prod.mk.injEq] at hdata
          rcases hdata with ⟨rfl, rfl⟩
          rw [Nat.zero_add] at h
          exact ⟨htrails, h⟩
      | ok data =>
          simp only [hr, Bool.and_eq_true, decide_eq_true_eq, Bool.or_eq_true,
            Bool.not_eq_true'] at hserved hdata
          dsimp only
          have hne : data.take recvBuf ≠ [] := by
            intro hnil
            rw [List.take_eq_nil_iff] at hnil
            exact hnil.elim (fun hz => absurd hz (by decide)) hserved.1
          -- What one read delivers, and what the loop still has to read.
          rcases bytewise_split q q' _ _ k hdata with ⟨mid, i, j, hi, hj, rfl⟩
          rw [Nat.add_assoc] at h
          rcases execute_bytewise (parserSettings cfg env) (parserSettings_lawful cfg env) P hs
            w.c.parser q mid w (data.take recvBuf) i (j + n) hne htrails hi h with
            ⟨htrails', hP, hlen⟩
          have hchunk : (readChunk cfg env (data.take recvBuf) w).2 = (data.take recvBuf).length :=
            hlen
          have htrails1 : Trails (readChunk cfg env (data.take recvBuf) w).1.c.parser mid :=
            htrails'
          have hP1 : P (j + n) (readChunk cfg env (data.take recvBuf) w).1 := hparser (j + n) _ _ hP
          rw [if_neg (not_not.mpr hchunk)]
          simp only [hne, decide_false, Bool.false_and, Bool.false_eq_true, if_false]
          have hcount := hbytes (j + n) (data.take recvBuf).length _ hP1
          -- The loop goes on only if the transport says that more can be read.
          by_cases hagain : r.again data = true
          · rw [if_pos (by exact hagain)]
            rw [if_pos hagain] at hj
            have hrest : served rs = true := by
              rcases hserved.2 with hno | hrest
              · exact absurd (hagain.symm.trans hno) Bool.false_ne_true.symm
              · exact hrest
            exact ih mid j _ hrest htrails1 hj hcount
          · rw [if_neg (by exact hagain)]
            rw [if_neg hagain] at hj
            rcases bytewise_nil mid q' j hj with ⟨rfl, rfl⟩
            rw [Nat.zero_add] at hcount
            exact ⟨htrails1, hcount⟩

end Wrk
