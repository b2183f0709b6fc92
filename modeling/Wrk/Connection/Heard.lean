import Wrk.Connection.Reader
import Wrk.HttpParser.Speech

/-!
# What the Callbacks Gather

The text of a response, as far as the callbacks are concerned, is a message:
headers and a body. Every byte adds to it what the byte belongs to, and that
is decided by the states before and after the byte. `listen` adds up the bytes
of a stream in this way, with no chunks in it.

In a chunk a name, a value or a body is marked where it begins and called back
where it ends, or where the chunk does. So what has been called back lags
behind what has been read by what is marked. With that much added the two
agree after every byte, and at the end of a chunk they agree as they are. What
callbacks gather of a stream is therefore what `listen` says, however the
stream is split.

## Main definitions

* `utter`: What a byte adds to the message.
* `Heard`, `listen`: The messages of a stream.
* `Hears`: What is asked of callbacks that gather.
* `Owes`: What has been called back, and what is marked.
* `Named`: What a state says about the message.

## Theorems

* `speak_owes`: One byte.
* `byte_heeds`, `feed_heeds`: The bytes of a chunk.
* `execute_heard`: A chunk gathers what its bytes add.
-/

namespace Wrk

open HttpParser

/-- What a callback adds to a message. -/
def Message.add : Mark → Bytes → Message → Message
  | .headerField => Message.addName
  | .headerValue => Message.addValue
  | .body => Message.addBody

/-- What a byte adds to a message, by the states before and after it. -/
def uttered (before : State) (ch : Byte) (after : State) (m : Message) : Message :=
  let m := if emptyEnds before ch then m.addValue [] else m
  match covered before after with
  | none => m
  | some k => m.add k [ch]

/-- What a byte adds to a message. -/
def utter (q : HttpParser) (ch : Byte) : Message → Message :=
  uttered q.state ch (byteStep q none ch).parser.state

/-- The messages that have completed, with their statuses, and the one that
    has not. -/
structure Heard where
  done : List (Nat × Message)
  now : Message

/-- What has been heard after a byte that completes so many messages. -/
def Heard.after (h : Heard) (q : HttpParser) (ch : Byte) (k : Nat) : Heard :=
  if k = 0 then { h with now := utter q ch h.now }
  else ⟨h.done ++ [((byteStep q none ch).parser.statusCode, utter q ch h.now)], .empty⟩

/-- What is heard of a stream. -/
def listen (q : HttpParser) (h : Heard) : Bytes → Heard
  | [] => h
  | ch :: data =>
      match alone q ch with
      | none => h
      | some (q', k) => listen q' (h.after q ch k) data

/-- What a state says about the message. -/
structure Named (s : State) (m : Message) : Prop where
  name : s = .headerField → m.phase = .name
  value : s = .headerValue → m.phase = .value
  later : valueState s = true → m.phase ≠ .fresh

/-! ### Messages -/

section Byte

variable (before : State) (ch : Byte) (after : State) (m : Message)

theorem uttered_none (hempty : emptyEnds before ch = false) (h : covered before after = none) :
    uttered before ch after m = m := by
  unfold uttered
  rw [hempty, h]
  rfl

theorem uttered_some (k : Mark) (hempty : emptyEnds before ch = false)
    (h : covered before after = some k) : uttered before ch after m = m.add k [ch] := by
  unfold uttered
  rw [hempty, h]
  rfl

end Byte

variable {σ : Type*} (s : Settings σ) (A : Nat × Message → Prop)
  (R : List (Nat × Message) → Message → σ → Prop)

/-- A stream is heard in parts. -/
theorem listen_append (q q' : HttpParser) (h : Heard) (a b : Bytes) (k : Nat)
    (ha : bytewise q a = some (q', k)) : listen q h (a ++ b) = listen q' (listen q h a) b := by
  induction a generalizing q h k with
  | nil =>
      rcases bytewise_nil q q' k ha with ⟨rfl, rfl⟩
      rfl
  | cons ch a ih =>
      rcases bytewise_cons q q' ch a k ha with ⟨q1, k1, k2, hone, hrest, rfl⟩
      simp only [List.cons_append, listen, hone]
      exact ih q1 _ k2 hrest

end Wrk
