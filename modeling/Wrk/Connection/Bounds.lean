import Wrk.Connection.World
import Wrk.Core.Loop
import Wrk.Core.Word
import Mathlib.Data.List.TakeWhile

/-!
# The Memory of the Buffers

The header and body buffers of a connection at the level of memory: a pointer
that may be null, a 64-bit length that the program believes in, a cursor, and
a log of what the operations do to memory. Storing through a null pointer or
past the end of a block is possible and leaves its trace in the log.

Blocks come from `realloc`, which may fail. `buffer_append` does not look: it
takes the null pointer for the new block and goes on. Until then everything it
stores is in bounds. The callbacks store a zero byte without asking for room;
the room is what `buffer_append` has left, which no callback takes twice
without appending.

## Main definitions

* `Allocator`: What `realloc` answers.
* `Buf`, `Heap`: A buffer, and the log.
* `append`: `buffer_append`.
* `Op`, `runOp`: The callbacks and a reconnection.
* `Event.Good`: Nothing is stored out of bounds or lost.
* `Slack`: The cursor leaves room for two bytes.

## Theorems

* `append_spec`: What appending leaves, unless it has failed.
* `append_refines`: Unless it has failed, it is the append of the buffers.
* `runOps_inBounds`: The buffers stay in bounds until an allocation fails.
* `runOps_outOfBounds`: After one has failed they do not.
-/

namespace Wrk

namespace Bounds

open HttpParser Loop

/-- What `realloc` answers: for its call number so many and a size, either the
    null pointer, or the bytes of the new block by position, where it is
    longer than the old. No block is of `PTRDIFF_MAX` bytes or more. -/
structure Allocator where
  answer : Nat → Nat → Option (Nat → Byte)
  bounded : ∀ i n, (answer i n).isSome → n < 2 ^ 63

/-- What happens to memory: a store of so many bytes at an offset of a block
    of so many bytes, or of the null pointer; a block moved to a new one; a
    call of `realloc` that fails. -/
inductive Event where
  | store (offset size : Nat) (block : Option Nat)
  | grown (old new : Bytes)
  | failed (size : Nat)
  deriving DecidableEq, Repr

/-- What is stored is inside a block, and what is in a block survives its
    growth. -/
def Event.Good : Event → Prop
  | .store offset size block => ∃ n, block = some n ∧ offset + size ≤ n
  | .grown old new => old <+: new
  | .failed _ => False

def Event.isFailure : Event → Bool
  | .failed _ => true
  | _ => false

/-- A `buffer`. The cursor counts from the pointer. -/
structure Buf where
  block : Option Bytes
  length : Nat
  cursor : Nat
  deriving DecidableEq, Repr

/-- How often `realloc` has been called, and the log. -/
structure Heap where
  calls : Nat
  log : List Event
  deriving DecidableEq, Repr

/-- `realloc`. -/
def realloc (alloc : Allocator) (block : Option Bytes) (n : Nat) (m : Heap) :
    Option Bytes × Heap :=
  match alloc.answer m.calls n with
  | none => (none, { calls := m.calls + 1, log := m.log ++ [.failed n] })
  | some junk =>
      let old := block.getD []
      let new := old.take n ++ (List.range (n - old.length)).map (fun i => junk (old.length + i))
      (some new, { calls := m.calls + 1, log := m.log ++ [.grown old new] })

/-- Store bytes at an offset. What is stored out of bounds is only in the
    log. -/
def store (block : Option Bytes) (offset : Nat) (data : Bytes) (m : Heap) : Option Bytes × Heap :=
  (block.map fun mem =>
      if offset + data.length ≤ mem.length then Buffer.store mem offset data else mem,
    { m with log := m.log ++ [.store offset data.length (block.map List.length)] })

/-- The condition of the loop of `buffer_append`. -/
def appendGuard (need : Nat) (x : Buf × Heap) : Bool := need ≥ x.1.length

/-- The body of the loop. -/
def appendBody (alloc : Allocator) (x : Buf × Heap) : Buf × Heap :=
  let length := wrap64 (x.1.length + 1024)
  let r := realloc alloc x.1.block length x.2
  ({ block := r.1, length := length, cursor := x.1.cursor }, r.2)

/-- `buffer_append`, with a bound on the iterations. -/
def append (alloc : Allocator) (fuel : Nat) (data : Bytes) (x : Buf × Heap) :
    Option (Buf × Heap) :=
  let used := x.1.cursor
  (whileLoop (appendGuard (wrap64 (used + data.length + 1))) (appendBody alloc) fuel x).map fun x =>
    let r := store x.1.block x.1.cursor data x.2
    ({ x.1 with block := r.1, cursor := wrap64 (x.1.cursor + data.length) }, r.2)

/-- `*cursor++ = '\0'`. -/
def pushNul (x : Buf × Heap) : Buf × Heap :=
  let r := store x.1.block x.1.cursor [0] x.2
  ({ x.1 with block := r.1, cursor := wrap64 (x.1.cursor + 1) }, r.2)

/-- `buffer_reset`. -/
def bufferReset (b : Buf) : Buf := { b with cursor := 0 }

/-- The fields of a connection that the callbacks use. -/
structure Conn where
  state : FieldState
  headers : Buf
  body : Buf
  heap : Heap
  deriving DecidableEq, Repr

/-- `header_field` and `header_value`: a zero byte ends a part of the other
    kind. -/
def headerPart (alloc : Allocator) (fuel : Nat) (own : FieldState) (data : Bytes) (c : Conn) :
    Option Conn :=
  let x := if c.state ≠ own then pushNul (c.headers, c.heap) else (c.headers, c.heap)
  (append alloc fuel data x).map fun x =>
    { c with state := own, headers := x.1, heap := x.2 }

def headerField (alloc : Allocator) (fuel : Nat) : Bytes → Conn → Option Conn :=
  headerPart alloc fuel .field

def headerValue (alloc : Allocator) (fuel : Nat) : Bytes → Conn → Option Conn :=
  headerPart alloc fuel .value

/-- `response_body`. -/
def responseBody (alloc : Allocator) (fuel : Nat) (data : Bytes) (c : Conn) : Option Conn :=
  (append alloc fuel data (c.body, c.heap)).map fun x => { c with body := x.1, heap := x.2 }

/-- What `response_complete` does to the buffers, by way of
    `script_response`. -/
def responseComplete (c : Conn) : Conn :=
  if c.headers.block.isSome then
    let x := pushNul (c.headers, c.heap)
    { state := .field, headers := bufferReset x.1, body := bufferReset c.body, heap := x.2 }
  else c

/-- A call of a callback, or a reconnection, which leaves the buffers as they
    are. -/
inductive Op where
  | headerField (data : Bytes)
  | headerValue (data : Bytes)
  | responseBody (data : Bytes)
  | responseComplete
  | reconnect
  deriving DecidableEq, Repr

def runOp (alloc : Allocator) (fuel : Nat) (c : Conn) : Op → Option Conn
  | .headerField data => headerField alloc fuel data c
  | .headerValue data => headerValue alloc fuel data c
  | .responseBody data => responseBody alloc fuel data c
  | .responseComplete => some (responseComplete c)
  | .reconnect => some c

def runOps (alloc : Allocator) (fuel : Nat) (ops : List Op) (c : Conn) : Option Conn :=
  ops.foldlM (runOp alloc fuel) c

/-- A zeroed connection. -/
def zeroed : Conn :=
  { state := .field, headers := ⟨none, 0, 0⟩, body := ⟨none, 0, 0⟩, heap := ⟨0, []⟩ }

/-! ### What holds -/

/-- A buffer that is not null has two bytes past its cursor. -/
def Slack (b : Buf) : Prop :=
  ∀ mem, b.block = some mem → mem.length = b.length ∧ b.cursor + 1 < b.length

/-- The block of a buffer has the length, and the cursor is not past its
    end. -/
def Fits (b : Buf) : Prop :=
  match b.block with
  | none => b.length = 0 ∧ b.cursor = 0
  | some mem => mem.length = b.length ∧ b.cursor ≤ b.length ∧ b.length < 2 ^ 63

/-- The null buffer, or one with two bytes past its cursor. -/
def Sound (b : Buf) : Prop := Fits b ∧ Slack b

/-- Up to the first failure all is good. -/
def GoodSoFar (log : List Event) : Prop :=
  ∀ e ∈ log.takeWhile (fun e => !e.isFailure), e.Good

/-- No call of `realloc` has failed. -/
def NoFailure (log : List Event) : Prop := ∀ e ∈ log, e.isFailure = false

/-- An allocation has failed, until which all was good. -/
def FailedLate (log : List Event) : Prop := ¬ NoFailure log ∧ GoodSoFar log

/-- Nothing has failed, and all is good. -/
def Clean (log : List Event) : Prop := NoFailure log ∧ ∀ e ∈ log, e.Good

/-- Either nothing has failed and a property holds, or something has failed. -/
def Unless (P : Prop) (log : List Event) : Prop := Clean log ∧ P ∨ FailedLate log

/-! ### The log -/

theorem clean_append (log : List Event) (e : Event) (h : Clean log) (hfail : e.isFailure = false)
    (hgood : e.Good) : Clean (log ++ [e]) := by
  constructor
  · intro f hf
    rcases List.mem_append.mp hf with hf | hf
    · exact h.1 f hf
    · rw [List.mem_singleton.mp hf]
      exact hfail
  · intro f hf
    rcases List.mem_append.mp hf with hf | hf
    · exact h.2 f hf
    · rw [List.mem_singleton.mp hf]
      exact hgood

/-- The first failure. -/
theorem failedLate_first (log : List Event) (n : Nat) (h : Clean log) :
    FailedLate (log ++ [.failed n]) := by
  constructor
  · intro hno
    exact Bool.false_ne_true (hno _ (List.mem_append_right log List.mem_cons_self)).symm
  · intro e he
    have hall : ∀ f ∈ log, (!f.isFailure) = true := fun f hf => by rw [h.1 f hf]; rfl
    rw [List.takeWhile_append_of_pos hall] at he
    rcases List.mem_append.mp he with he | he
    · exact h.2 e he
    · exact absurd he List.not_mem_nil

/-- What happens later is not counted. -/
theorem failedLate_append (log more : List Event) (h : FailedLate log) :
    FailedLate (log ++ more) := by
  refine ⟨fun hno => h.1 fun e he => hno e (List.mem_append_left more he), fun e he => ?_⟩
  have hcut : ¬ (log.takeWhile fun e => !e.isFailure).length = log.length := by
    intro hlen
    have hwhole := (List.takeWhile_prefix (l := log) fun e => !e.isFailure).eq_of_length hlen
    refine h.1 fun f hf => ?_
    rw [← hwhole] at hf
    exact (Bool.not_eq_true' _).mp (List.mem_takeWhile_imp (p := fun e : Event => !e.isFailure) hf)
  rw [List.takeWhile_append, if_neg hcut] at he
  exact h.2 e he

theorem clean_goodSoFar (log : List Event) (h : Clean log) : GoodSoFar log :=
  fun e he => h.2 e (List.takeWhile_subset _ he)

/-! ### One operation on memory -/

theorem store_length (mem data : Bytes) (offset : Nat) (h : offset + data.length ≤ mem.length) :
    (Buffer.store mem offset data).length = mem.length := by
  unfold Buffer.store
  rw [List.length_append, List.length_append, List.length_take, List.length_drop]
  omega

/-- The length is that of the memory, where the null pointer has none. -/
theorem fits_length (b : Buf) (h : Fits b) :
    (b.block.getD []).length = b.length ∧ b.cursor ≤ b.length ∧ b.length < 2 ^ 63 := by
  unfold Fits at h
  cases hb : b.block with
  | none =>
      rw [hb] at h
      rw [h.1, h.2]
      exact ⟨rfl, le_refl 0, by decide⟩
  | some mem =>
      rw [hb] at h
      exact h

/-- A store inside a block. -/
theorem store_spec (mem data : Bytes) (offset : Nat) (m : Heap)
    (h : offset + data.length ≤ mem.length) (hm : Clean m.log) :
    (store (some mem) offset data m).1 = some (Buffer.store mem offset data) ∧
      Clean (store (some mem) offset data m).2.log := by
  constructor
  · unfold store
    rw [Option.map_some, if_pos h]
  · exact clean_append _ _ hm rfl ⟨mem.length, rfl, h⟩

/-- An iteration of the loop makes the block longer, or fails. -/
theorem appendBody_spec (alloc : Allocator) (used : Nat) (Q : Prop) (x : Buf × Heap)
    (h : Unless (Fits x.1 ∧ x.1.cursor = used ∧ Q) x.2.log) :
    Unless (Fits (appendBody alloc x).1 ∧ (appendBody alloc x).1.cursor = used ∧ Q)
      (appendBody alloc x).2.log := by
  unfold appendBody realloc
  dsimp only
  cases ha : alloc.answer x.2.calls (wrap64 (x.1.length + 1024)) with
  | none =>
      refine Or.inr ?_
      rcases h with ⟨hclean, _⟩ | hfailed
      · exact failedLate_first _ _ hclean
      · exact failedLate_append _ _ hfailed
  | some junk =>
      dsimp only
      rcases h with ⟨hclean, hfits, hcursor, hq⟩ | hfailed
      · have hbound := alloc.bounded x.2.calls (wrap64 (x.1.length + 1024)) (by rw [ha]; rfl)
        rcases fits_length x.1 hfits with ⟨hlen, hle, hsmall⟩
        rw [wrap64_of_lt _ (by omega)] at hbound ⊢
        refine Or.inl ⟨clean_append _ _ hclean rfl ?_, ?_, hcursor, hq⟩
        · -- The new block is longer, so it begins with the old one.
          rw [List.take_of_length_le (by omega)]
          exact List.prefix_append _ _
        · refine ⟨?_, Nat.le_trans hle (Nat.le_add_right _ _), hbound⟩
          dsimp only
          rw [List.length_append, List.length_take, List.length_map, List.length_range, hlen]
          omega
      · exact Or.inr (failedLate_append _ _ hfailed)

/-- A buffer that has been appended to has room for two bytes more, unless an
    allocation has failed. What holds of anything else goes on to hold. -/
theorem append_spec (alloc : Allocator) (fuel : Nat) (data : Bytes) (Q : Prop) (x y : Buf × Heap)
    (hdata : data.length < 2 ^ 63) (hx : Unless (Fits x.1 ∧ Q) x.2.log)
    (h : append alloc fuel data x = some y) :
    Unless (Sound y.1 ∧ y.1.block.isSome ∧ Q) y.2.log := by
  unfold append at h
  dsimp only at h
  rw [Option.map_eq_some_iff] at h
  rcases h with ⟨z, hz, rfl⟩
  have hstart : Unless (Fits x.1 ∧ x.1.cursor = x.1.cursor ∧ Q) x.2.log :=
    hx.imp_left fun hclean => ⟨hclean.1, hclean.2.1, rfl, hclean.2.2⟩
  rcases halts_invariant _ _ (fun z : Buf × Heap =>
    Unless (Fits z.1 ∧ z.1.cursor = x.1.cursor ∧ Q) z.2.log)
    (fun z hz _ => appendBody_spec alloc x.1.cursor Q z hz) x z hstart ⟨fuel, hz⟩ with
    ⟨hend, hexit⟩
  have hroom : wrap64 (x.1.cursor + data.length + 1) < z.1.length := by
    unfold appendGuard at hexit
    exact Nat.lt_of_not_le (of_decide_eq_false hexit)
  rcases hend with ⟨hclean, hfits, hcursor, hq⟩ | hfailed
  · unfold Fits at hfits
    cases hb : z.1.block with
    | none =>
        rw [hb] at hfits
        rw [hfits.1] at hroom
        exact absurd hroom (Nat.not_lt_zero _)
    | some mem =>
        rw [hb] at hfits
        rcases hfits with ⟨hlen, hle, hsmall⟩
        -- The sum is one of 64 bits.
        rw [wrap64_of_lt _ (by omega)] at hroom
        rcases store_spec mem data z.1.cursor z.2 (by omega) hclean with ⟨hblock, hlog⟩
        refine Or.inl ⟨hlog, ⟨?_, ?_⟩, ?_, hq⟩
        · unfold Fits
          dsimp only
          rw [hblock]
          dsimp only
          rw [store_length mem data _ (by omega), wrap64_of_lt _ (by omega)]
          exact ⟨hlen, by omega, hsmall⟩
        · intro mem' hmem'
          dsimp only at hmem' ⊢
          rw [hblock, Option.some.injEq] at hmem'
          rw [← hmem', store_length mem data _ (by omega), wrap64_of_lt _ (by omega)]
          exact ⟨hlen, by omega⟩
        · dsimp only
          rw [hblock]
          rfl
  · exact Or.inr (failedLate_append _ _ hfailed)

/-- A zero byte goes where there is room for two. -/
theorem pushNul_spec (Q : Prop) (x : Buf × Heap)
    (hx : Unless (Sound x.1 ∧ x.1.block.isSome ∧ Q) x.2.log) :
    Unless (Fits (pushNul x).1 ∧ (pushNul x).1.length = x.1.length ∧ 1 < x.1.length ∧ Q)
      (pushNul x).2.log := by
  unfold pushNul
  rcases hx with ⟨hclean, ⟨hfits, hslack⟩, hsome, hq⟩ | hfailed
  · rcases Option.isSome_iff_exists.mp hsome with ⟨mem, hmem⟩
    rcases hslack mem hmem with ⟨hlen, hroom⟩
    unfold Fits at hfits
    rw [hmem] at hfits ⊢
    -- One of the two bytes is taken.
    have hfit : x.1.cursor + ([0] : Bytes).length ≤ mem.length := by
      rw [List.length_singleton]
      omega
    rcases store_spec mem [0] x.1.cursor x.2 hfit hclean with ⟨hblock, hlog⟩
    refine Or.inl ⟨hlog, ?_, rfl, by omega, hq⟩
    unfold Fits
    dsimp only
    rw [hblock]
    dsimp only
    rw [store_length mem _ _ hfit, wrap64_of_lt _ (by omega)]
    exact ⟨hlen, by omega, hfits.2.2⟩
  · exact Or.inr (failedLate_append _ _ hfailed)

/-- The loop ends, whatever is answered, since the length grows. -/
theorem append_returns (alloc : Allocator) (data : Bytes) (x : Buf × Heap)
    (h : x.1.cursor + data.length + 1 + 1024 < 2 ^ 64) :
    ∃ fuel y, append alloc fuel data x = some y := by
  -- The length passes what is needed after as many steps as are missing.
  have hloop : ∀ (d need : Nat) (z : Buf × Heap), need + 1024 < 2 ^ 64 →
      need < z.1.length + d → ∃ w, Halts (appendGuard need) (appendBody alloc) z w := by
    intro d need
    induction d with
    | zero =>
        intro z _ hlt
        exact ⟨z, halts_exit _ _ z (decide_eq_false (by omega))⟩
    | succ d ih =>
        intro z hneed hlt
        by_cases hguard : need ≥ z.1.length
        · have hlength : (appendBody alloc z).1.length = z.1.length + 1024 :=
            wrap64_of_lt _ (by omega)
          rcases ih (appendBody alloc z) hneed (by rw [hlength]; omega) with ⟨w, hw⟩
          exact ⟨w, halts_step _ _ z w (decide_eq_true hguard) hw⟩
        · exact ⟨z, halts_exit _ _ z (decide_eq_false hguard)⟩
  have hneed : wrap64 (x.1.cursor + data.length + 1) = x.1.cursor + data.length + 1 :=
    wrap64_of_lt _ (by omega)
  rcases hloop (x.1.cursor + data.length + 2) (x.1.cursor + data.length + 1) x h (by omega) with
    ⟨w, fuel, hw⟩
  refine ⟨fuel, ?_⟩
  unfold append
  dsimp only
  rw [hneed, hw, Option.map_some]
  exact ⟨_, rfl⟩

/-- The buffer as the handlers see it. -/
def Buf.toBuffer (b : Buf) : Buffer := { mem := b.block.getD [], cursor := b.cursor }

theorem noFailure_left (log more : List Event) (h : NoFailure (log ++ more)) : NoFailure log :=
  fun e he => h e (List.mem_append_left more he)

/-- An iteration that does not fail adds so many bytes to the block. -/
theorem appendBody_block (alloc : Allocator) (junk : Nat → Byte)
    (hjunk : ∀ i n f, alloc.answer i n = some f → f = junk) (x : Buf × Heap)
    (hlen : (x.1.block.getD []).length = x.1.length) (hsmall : x.1.length < 2 ^ 63)
    (hno : NoFailure (appendBody alloc x).2.log) :
    ((appendBody alloc x).1.block.getD [] = x.1.block.getD [] ++
        (List.range 1024).map (fun i => junk ((x.1.block.getD []).length + i))) ∧
      (appendBody alloc x).1.length = x.1.length + 1024 ∧ x.1.length + 1024 < 2 ^ 63 := by
  have hword : wrap64 (x.1.length + 1024) = x.1.length + 1024 := wrap64_of_lt _ (by omega)
  unfold appendBody realloc at hno ⊢
  dsimp only at hno ⊢
  rw [hword] at hno ⊢
  cases ha : alloc.answer x.2.calls (x.1.length + 1024) with
  | none =>
      rw [ha] at hno
      exact absurd (hno _ (List.mem_append_right _ List.mem_cons_self)) Bool.false_ne_true.symm
  | some f =>
      have hbound := alloc.bounded _ _ (by rw [ha]; rfl)
      -- The old block is copied whole, and the rest is what the allocator gives.
      rw [hjunk _ _ f ha, ← hlen]
      refine ⟨?_, rfl, by rw [hlen]; exact hbound⟩
      dsimp only
      rw [Option.getD_some, List.take_of_length_le (Nat.le_add_right _ _), Nat.add_sub_cancel_left]

/-- The log only grows. -/
theorem appendLoop_log (alloc : Allocator) (need fuel : Nat) (x y : Buf × Heap)
    (h : whileLoop (appendGuard need) (appendBody alloc) fuel x = some y) :
    ∃ later, y.2.log = x.2.log ++ later := by
  refine (halts_invariant (appendGuard need) (appendBody alloc)
    (fun z : Buf × Heap => ∃ later, z.2.log = x.2.log ++ later) ?_ x y
    ⟨[], (List.append_nil _).symm⟩ ⟨fuel, h⟩).1
  rintro z ⟨later, hlater⟩ _
  unfold appendBody realloc
  dsimp only
  cases alloc.answer z.2.calls (wrap64 (z.1.length + 1024)) with
  | none => exact ⟨later ++ [_], by dsimp only; rw [hlater, List.append_assoc]⟩
  | some junk => exact ⟨later ++ [_], by dsimp only; rw [hlater, List.append_assoc]⟩

theorem grow_done (junk : Nat → Byte) (need more : Nat) (mem : Bytes) (h : need < mem.length) :
    Buffer.grow junk need more mem = mem := by
  cases more with
  | zero => rfl
  | succ more => rw [Buffer.grow, if_neg (by omega)]

/-- The loop grows the memory as the buffers of the handlers do. -/
theorem appendLoop_refines (alloc : Allocator) (junk : Nat → Byte)
    (hjunk : ∀ i n f, alloc.answer i n = some f → f = junk) (need fuel more : Nat)
    (x y : Buf × Heap) (hlen : (x.1.block.getD []).length = x.1.length)
    (hsmall : x.1.length < 2 ^ 63) (hmore : need < x.1.length + more)
    (hno : NoFailure y.2.log)
    (h : whileLoop (appendGuard need) (appendBody alloc) fuel x = some y) :
    y.1.block.getD [] = Buffer.grow junk need more (x.1.block.getD []) ∧
      y.1.cursor = x.1.cursor ∧ (y.1.block.getD []).length = y.1.length := by
  -- A loop that is over leaves the block, on either side.
  have hover : ∀ (z w : Buf × Heap) (m : Nat), (z.1.block.getD []).length = z.1.length →
      appendGuard need z = false → z = w →
        w.1.block.getD [] = Buffer.grow junk need m (z.1.block.getD []) ∧
          w.1.cursor = z.1.cursor ∧ (w.1.block.getD []).length = w.1.length := by
    rintro z _ m hz hguard rfl
    have hlt : need < z.1.length := Nat.lt_of_not_le (of_decide_eq_false hguard)
    exact ⟨(grow_done junk need m _ (by omega)).symm, rfl, hz⟩
  induction fuel generalizing x more with
  | zero =>
      rw [whileLoop] at h
      cases hguard : appendGuard need x with
      | true =>
          rw [hguard, if_pos rfl] at h
          cases h
      | false =>
          rw [hguard, if_neg Bool.false_ne_true] at h
          exact hover x y more hlen hguard (Option.some.inj h)
  | succ fuel ih =>
      rw [whileLoop] at h
      cases hguard : appendGuard need x with
      | true =>
          rw [hguard, if_pos rfl] at h
          have hge : need ≥ x.1.length := of_decide_eq_true hguard
          rcases appendLoop_log alloc need fuel _ y h with ⟨later, hlater⟩
          have hstep : NoFailure (appendBody alloc x).2.log :=
            noFailure_left _ later (by rw [← hlater]; exact hno)
          rcases appendBody_block alloc junk hjunk x hlen hsmall hstep with ⟨hblock, hlength, hlt⟩
          have hnew : ((appendBody alloc x).1.block.getD []).length =
              (appendBody alloc x).1.length := by
            rw [hblock, List.length_append, List.length_map, List.length_range, hlen, hlength]
          cases more with
          | zero => omega
          | succ more =>
              have hrest := ih more (appendBody alloc x) hnew (by rw [hlength]; exact hlt)
                (by rw [hlength]; omega) h
              rw [Buffer.grow, if_pos (by rw [hlen]; exact hge), ← hblock]
              exact hrest
      | false =>
          rw [hguard, if_neg Bool.false_ne_true] at h
          exact hover x y more hlen hguard (Option.some.inj h)

/-- As long as no allocation fails, appending is what the model of the handlers
    says. -/
theorem append_refines (alloc : Allocator) (junk : Nat → Byte)
    (hjunk : ∀ i n f, alloc.answer i n = some f → f = junk) (fuel : Nat) (data : Bytes)
    (x y : Buf × Heap) (hdata : data.length < 2 ^ 63) (hx : Fits x.1)
    (hno : NoFailure y.2.log) (h : append alloc fuel data x = some y) :
    y.1.toBuffer = bufferAppend junk x.1.toBuffer data := by
  rcases fits_length x.1 hx with ⟨hlen, hle, hsmall⟩
  have hneed : wrap64 (x.1.cursor + data.length + 1) = x.1.cursor + data.length + 1 :=
    wrap64_of_lt _ (by omega)
  unfold append at h
  dsimp only at h
  rw [hneed, Option.map_eq_some_iff] at h
  rcases h with ⟨z, hz, rfl⟩
  have hexit := (halts_invariant _ _ (fun _ => True) (fun _ _ _ => trivial) x z trivial
    ⟨fuel, hz⟩).2
  have hroom : x.1.cursor + data.length + 1 < z.1.length :=
    Nat.lt_of_not_le (of_decide_eq_false hexit)
  rcases appendLoop_refines alloc junk hjunk _ fuel (x.1.cursor + data.length + 1 + 1) x z hlen
    hsmall (by omega) (noFailure_left _ _ hno) hz with ⟨hmem, hcursor, hzlen⟩
  -- The block is long enough for what is stored.
  have hstore : (store z.1.block z.1.cursor data z.2).1.getD [] =
      Buffer.store (z.1.block.getD []) z.1.cursor data := by
    unfold store
    cases hb : z.1.block with
    | none =>
        rw [hb] at hzlen
        change 0 = z.1.length at hzlen
        omega
    | some mem =>
        rw [hb] at hzlen
        change mem.length = z.1.length at hzlen
        dsimp only
        rw [Option.map_some, Option.getD_some, Option.getD_some, if_pos (by omega)]
  unfold Buf.toBuffer bufferAppend
  dsimp only
  rw [hstore, hmem, hcursor, wrap64_of_lt _ (by omega)]

/-! ### The callbacks -/

/-- The buffers are sound, and the header buffer is there when a value has
    been read last, or if a name has ever been read. -/
structure Intact (named : Bool) (c : Conn) : Prop where
  headers : Sound c.headers
  body : Sound c.body
  there : c.state = .value ∨ named = true → c.headers.block.isSome

/-- A buffer that is reset has all of its memory before it, which is enough if
    it is not null. -/
theorem sound_reset (b : Buf) (h : Fits b) (hlong : b.block.isSome → 1 < b.length) :
    Sound (bufferReset b) := by
  unfold Fits at h
  unfold bufferReset Sound Fits Slack
  cases hb : b.block with
  | none =>
      rw [hb] at h
      exact ⟨⟨h.1, rfl⟩, fun mem hmem => absurd hmem (Option.some_ne_none mem).symm⟩
  | some mem =>
      rw [hb] at h hlong
      -- The cursor is at the front of a block of more than a byte.
      have hlt := hlong rfl
      refine ⟨⟨h.1, Nat.zero_le _, h.2.2⟩, fun mem' hmem' => ?_⟩
      rw [Option.some.injEq] at hmem'
      rw [← hmem']
      exact ⟨h.1, by dsimp only; omega⟩

/-- A callback for a part of a header. A value needs a name before it. -/
theorem headerPart_spec (alloc : Allocator) (fuel : Nat) (own : FieldState) (named : Bool)
    (data : Bytes) (c c' : Conn) (hdata : data.length < 2 ^ 63)
    (hnamed : own = .value → named = true) (hc : Unless (Intact named c) c.heap.log)
    (h : headerPart alloc fuel own data c = some c') :
    Unless (Intact true c') c'.heap.log := by
  unfold headerPart at h
  dsimp only at h
  rw [Option.map_eq_some_iff] at h
  rcases h with ⟨y, hy, rfl⟩
  -- The zero byte, if there is one, goes into a buffer that is there.
  have hbefore : Unless (Fits (if c.state ≠ own then pushNul (c.headers, c.heap)
      else (c.headers, c.heap)).1 ∧ Sound c.body) (if c.state ≠ own then
        pushNul (c.headers, c.heap) else (c.headers, c.heap)).2.log := by
    by_cases hstate : c.state ≠ own
    · rw [if_pos hstate]
      refine (pushNul_spec (Sound c.body) (c.headers, c.heap) (hc.imp_left ?_)).imp_left
        fun hclean => ⟨hclean.1, hclean.2.1, hclean.2.2.2.2⟩
      rintro ⟨hclean, hintact⟩
      refine ⟨hclean, hintact.headers, hintact.there ?_, hintact.body⟩
      cases own with
      | field =>
          cases hs : c.state with
          | field => exact absurd hs hstate
          | value => exact Or.inl rfl
      | value => exact Or.inr (hnamed rfl)
    · rw [if_neg hstate]
      exact hc.imp_left fun hclean => ⟨hclean.1, hclean.2.headers.1, hclean.2.body⟩
  exact (append_spec alloc fuel data (Sound c.body) _ y hdata hbefore hy).imp_left
    fun hclean => ⟨hclean.1, hclean.2.1, hclean.2.2.2, fun _ => hclean.2.2.1⟩

theorem responseBody_spec (alloc : Allocator) (fuel : Nat) (named : Bool) (data : Bytes)
    (c c' : Conn) (hdata : data.length < 2 ^ 63) (hc : Unless (Intact named c) c.heap.log)
    (h : responseBody alloc fuel data c = some c') : Unless (Intact named c') c'.heap.log := by
  unfold responseBody at h
  rw [Option.map_eq_some_iff] at h
  rcases h with ⟨y, hy, rfl⟩
  have hbefore : Unless (Fits c.body ∧ Intact named c) c.heap.log :=
    hc.imp_left fun hclean => ⟨hclean.1, hclean.2.body.1, hclean.2⟩
  exact (append_spec alloc fuel data (Intact named c) (c.body, c.heap) y hdata hbefore hy).imp_left
    fun hclean => ⟨hclean.1, hclean.2.2.2.headers, hclean.2.1, hclean.2.2.2.there⟩

theorem responseComplete_spec (named : Bool) (c : Conn) (hc : Unless (Intact named c) c.heap.log) :
    Unless (Intact named (responseComplete c)) (responseComplete c).heap.log := by
  unfold responseComplete
  split_ifs with hsome
  · have hbefore : Unless (Sound c.headers ∧ c.headers.block.isSome ∧ Sound c.body) c.heap.log :=
      hc.imp_left fun hclean => ⟨hclean.1, hclean.2.headers, hsome, hclean.2.body⟩
    refine (pushNul_spec (Sound c.body) (c.headers, c.heap) hbefore).imp_left ?_
    rintro ⟨hclean, hfits, hlength, hlong, hbody⟩
    have hblock : (pushNul (c.headers, c.heap)).1.block.isSome := by
      unfold pushNul store
      dsimp only
      rw [Option.isSome_map]
      exact hsome
    refine ⟨hclean, sound_reset _ hfits fun _ => by rw [hlength]; exact hlong,
      sound_reset c.body hbody.1 fun hthere => ?_, fun _ => hblock⟩
    -- The body has not been touched, so it has its room still.
    rcases Option.isSome_iff_exists.mp hthere with ⟨mem, hmem⟩
    have hslack := (hbody.2 mem hmem).2
    omega
  · exact hc

/-! ### Any sequence of calls -/

/-- Every value has some name before it. -/
def Preceded (ops : List Op) : Prop :=
  ∀ before value after, ops = before ++ .headerValue value :: after →
    ∃ name, .headerField name ∈ before

/-- The fragments are shorter than half of the address space. -/
def Short (ops : List Op) : Prop :=
  ∀ op ∈ ops, ∀ data, op = .headerField data ∨ op = .headerValue data ∨ op = .responseBody data →
    data.length < 2 ^ 63

/-- A name has been among the calls. -/
def Named (ops : List Op) : Bool :=
  ops.any fun op => match op with
    | .headerField _ => true
    | _ => false

/-- One call. -/
theorem runOp_spec (alloc : Allocator) (fuel : Nat) (named : Bool) (op : Op) (c c' : Conn)
    (hshort : Short [op]) (hnamed : ∀ value, op = .headerValue value → named = true)
    (hc : Unless (Intact named c) c.heap.log) (h : runOp alloc fuel c op = some c') :
    Unless (Intact (named || Named [op]) c') c'.heap.log := by
  have hdata := hshort op List.mem_cons_self
  -- What is known with a name is known without one.
  have hweaken : ∀ d : Conn, Unless (Intact true d) d.heap.log → ∀ b,
      Unless (Intact b d) d.heap.log := by
    intro d hd b
    exact hd.imp_left fun hclean => ⟨hclean.1, hclean.2.headers, hclean.2.body,
      fun _ => hclean.2.there (Or.inr rfl)⟩
  cases op with
  | headerField data =>
      exact hweaken _ (headerPart_spec alloc fuel .field named data c c' (hdata data (Or.inl rfl))
        (fun hown => by cases hown) hc h) _
  | headerValue data =>
      exact hweaken _ (headerPart_spec alloc fuel .value named data c c'
        (hdata data (Or.inr (Or.inl rfl))) (fun _ => hnamed data rfl) hc h) _
  | responseBody data =>
      have hnone : (named || Named [.responseBody data]) = named := Bool.or_false named
      rw [hnone]
      exact responseBody_spec alloc fuel named data c c' (hdata data (Or.inr (Or.inr rfl))) hc h
  | responseComplete =>
      have hnone : (named || Named [.responseComplete]) = named := Bool.or_false named
      rw [hnone]
      cases h
      exact responseComplete_spec named c hc
  | reconnect =>
      have hnone : (named || Named [.reconnect]) = named := Bool.or_false named
      rw [hnone]
      cases h
      exact hc

/-- A whole run from a zeroed connection. -/
theorem runOps_spec (alloc : Allocator) (fuel : Nat) (ops : List Op) (c : Conn)
    (hshort : Short ops) (hpre : Preceded ops) (h : runOps alloc fuel ops zeroed = some c) :
    Unless (Intact (Named ops) c) c.heap.log := by
  induction ops using List.reverseRecOn generalizing c with
  | nil =>
      cases h
      -- No buffer is there yet.
      have hnull : Sound ⟨none, 0, 0⟩ :=
        ⟨⟨rfl, rfl⟩, fun mem hmem => absurd hmem (Option.some_ne_none mem).symm⟩
      refine Or.inl ⟨⟨fun e he => absurd he List.not_mem_nil,
        fun e he => absurd he List.not_mem_nil⟩, hnull, hnull, ?_⟩
      rintro (hstate | hnamed)
      · cases hstate
      · cases hnamed
  | append_singleton ops op ih =>
      unfold runOps at h
      rw [List.foldlM_append, Option.bind_eq_bind, Option.bind_eq_some_iff] at h
      rcases h with ⟨d, hd, hlast⟩
      rw [List.foldlM_cons, Option.bind_eq_bind, Option.bind_eq_some_iff] at hlast
      rcases hlast with ⟨c', hop, hend⟩
      cases hend
      have hbefore := ih d (fun p hp => hshort p (List.mem_append_left _ hp))
        (fun before value after heq =>
          hpre before value (after ++ [op]) (by rw [heq, List.append_assoc, List.cons_append])) hd
      -- A value comes after some name, which is among the calls before.
      have hnamed : ∀ value, op = .headerValue value → Named ops = true := by
        rintro value rfl
        rcases hpre ops value [] rfl with ⟨name, hname⟩
        exact List.any_eq_true.mpr ⟨_, hname, rfl⟩
      have hstep := runOp_spec alloc fuel (Named ops) op d c
        (fun p hp => hshort p (List.mem_append_right ops hp)) hnamed hbefore hop
      have hany : Named (ops ++ [op]) = (Named ops || Named [op]) := List.any_append
      rw [hany]
      exact hstep

/-- For every sequence of calls on a zeroed connection, what is done to memory
    is good until an allocation fails, and as long as none has, the buffers
    that are not null have two bytes past their cursors. -/
theorem runOps_inBounds (alloc : Allocator) (fuel : Nat) (ops : List Op) (c : Conn)
    (hshort : Short ops) (hpre : Preceded ops) (h : runOps alloc fuel ops zeroed = some c) :
    GoodSoFar c.heap.log ∧
      (NoFailure c.heap.log → (∀ e ∈ c.heap.log, e.Good) ∧ Slack c.headers ∧ Slack c.body) := by
  rcases runOps_spec alloc fuel ops c hshort hpre h with ⟨hclean, hintact⟩ | hfailed
  · exact ⟨clean_goodSoFar _ hclean, fun _ => ⟨hclean.2, hintact.headers.2, hintact.body.2⟩⟩
  · exact ⟨hfailed.2, fun hno => absurd hno hfailed.1⟩

/-- Memory that is always there. -/
def plenty : Allocator :=
  { answer := fun _ n => if n < 2 ^ 63 then some fun _ => 0 else none
    bounded := fun _ n h => by
      by_contra hn
      rw [if_neg hn] at h
      cases h }

/-- A header and its end. -/
theorem runOps_inBounds_header :
    ∃ c, runOps plenty 1 [.headerField [65], .headerValue [98], .responseComplete] zeroed = some c ∧
      (∀ e ∈ c.heap.log, e.Good) ∧ Slack c.headers ∧ Slack c.body := by
  have hsome : ((runOps plenty 1 [.headerField [65], .headerValue [98], .responseComplete]
      zeroed).map fun c => c.heap.log.all fun e => !e.isFailure) = some true := by decide +kernel
  rcases Option.map_eq_some_iff.mp hsome with ⟨c, hc, hno⟩
  refine ⟨c, hc, (runOps_inBounds plenty 1 _ c ?_ ?_ hc).2 fun e he => ?_⟩
  · intro op hop data hdata
    simp only [List.mem_cons, List.not_mem_nil, or_false] at hop
    rcases hop with rfl | rfl | rfl <;> rcases hdata with h | h | h <;> cases h <;> decide
  · intro before value after hsplit
    cases before with
    | nil => cases hsplit
    | cons op before =>
        rw [← (List.cons.inj hsplit).1]
        exact ⟨[65], List.mem_cons_self⟩
  · exact (Bool.not_eq_true' _).mp (List.all_eq_true.mp hno e he)

/-- Memory that has run out. -/
def exhausted : Allocator :=
  { answer := fun _ _ => none
    bounded := fun _ _ h => by cases h }

/-- The first byte of the first name goes to the null pointer. -/
theorem runOps_outOfBounds :
    ∃ c, runOps exhausted 1 [.headerField [65]] zeroed = some c ∧
      .store 0 1 none ∈ c.heap.log ∧ ¬ ∀ e ∈ c.heap.log, e.Good := by
  refine ⟨_, rfl, by decide, fun hall => ?_⟩
  rcases hall (.store 0 1 none) (by decide) with ⟨n, hnone, _⟩
  cases hnone

end Bounds

end Wrk
