import Wrk.HttpParser.Execute

/-!
# Calls with Different Callbacks

The parser does not look at the state its callbacks act on. Two calls with
different callbacks do the same as long as the callbacks treat the parser
alike when a message completes, and whatever relation the callbacks keep
between their states holds throughout.

This is how a statement about the callbacks of a connection is reduced to one
about callbacks that only collect messages.

## Main definitions

* `Matches`: Callbacks that keep a relation and treat the parser alike.
* `Alike`: Calls that differ only in related states.
* `Exec.chunk`, `Exec.chunks`: Chunks that are read to their ends.

## Theorems

* `byte_alike`, `endChunk_alike`: A byte, and the end of a chunk.
* `chunks_alike`: Any number of chunks.
-/

namespace Wrk

namespace HttpParser

variable {σ τ : Type*}

/-- Callbacks that keep a relation between their states and treat the parser
    alike. -/
structure Matches (s : Settings σ) (t : Settings τ) (R : σ → τ → Prop) : Prop where
  data : ∀ m d u v, R u v → R (s.onData m d u) (t.onData m d v)
  parser : ∀ q u v, (s.onMessageComplete q u).1 = (t.onMessageComplete q v).1
  done : ∀ q u v, R u v → R (s.onMessageComplete q u).2 (t.onMessageComplete q v).2

/-- Calls that differ only in related states. -/
structure Alike (R : σ → τ → Prop) (x : Exec σ) (y : Exec τ) : Prop where
  parser : x.parser = y.parser
  locals : x.locals = y.locals
  pos : x.pos = y.pos
  returned : x.returned = y.returned
  user : R x.user y.user

namespace Exec

/-- One chunk, when the parser reads all of it without an error. What is left
    is the call for the next chunk. -/
def chunk (s : Settings σ) (x : Exec σ) (data : Bytes) : Option (Exec σ) :=
  let y := (x.feed s data).endChunk s
  if y.returned = some (x.pos + data.length) ∧ y.parser.httpErrno = .ok then
    some (start y.parser y.user)
  else none

/-- Chunks, one after the other. -/
def chunks (s : Settings σ) (x : Exec σ) : List Bytes → Option (Exec σ)
  | [] => some x
  | data :: rest => (x.chunk s data).bind (fun y => y.chunks s rest)

end Exec

variable (s : Settings σ) (t : Settings τ) (R : σ → τ → Prop)

theorem matches_flip (h : Matches s t R) : Matches t s (fun v u => R u v) :=
  ⟨fun m d v u => h.data m d u v, fun q v u => (h.parser q u v).symm, fun q v u => h.done q u v⟩

/-- The first call is the second with another state. -/
theorem alike_cases (x : Exec σ) (y : Exec τ) (h : Alike R x y) :
    ∃ p l n r u v, x = ⟨p, l, u, n, r⟩ ∧ y = ⟨p, l, v, n, r⟩ ∧ R u v := by
  rcases x with ⟨p, l, u, n, r⟩
  rcases y with ⟨p', l', v, n', r'⟩
  rcases h with ⟨hp, hl, hn, hr, hu⟩
  simp only at hp hl hn hr
  rw [hp, hl, hn, hr]
  exact ⟨p', l', n', r', u, v, rfl, rfl, hu⟩

theorem start_alike (q : HttpParser) (u : σ) (v : τ) (h : R u v) :
    Alike R (Exec.start q u) (Exec.start q v) := ⟨rfl, rfl, rfl, rfl, h⟩

/-! ### Operations -/

theorem count_alike (x : Exec σ) (y : Exec τ) (n : Nat) (h : Alike R x y) :
    Alike R (x.count n) (y.count n) := by
  rcases alike_cases R x y h with ⟨p, l, k, r, u, v, rfl, rfl, hu⟩
  unfold Exec.count
  dsimp only
  split_ifs
  · exact ⟨rfl, rfl, rfl, rfl, hu⟩
  · exact ⟨rfl, rfl, rfl, rfl, hu⟩

theorem callbackData_alike (hm : Matches s t R) (x : Exec σ) (y : Exec τ) (m : Mark)
    (more : Bytes) (h : Alike R x y) :
    Alike R (x.callbackData s m more) (y.callbackData t m more) := by
  rcases alike_cases R x y h with ⟨p, l, k, r, u, v, rfl, rfl, hu⟩
  unfold Exec.callbackData
  cases l.marks m with
  | none => exact ⟨rfl, rfl, rfl, rfl, hu⟩
  | some d => exact ⟨rfl, rfl, rfl, rfl, hm.data m (d ++ more) u v hu⟩

theorem perform_alike (hm : Matches s t R) (ch : Byte) (x : Exec σ) (y : Exec τ) (op : Op)
    (h : Alike R x y) : Alike R (x.perform s ch op) (y.perform t ch op) := by
  have hcount := count_alike R x y (x.locals.span.getD 0) h
  have hdata := fun m more => callbackData_alike s t R hm x y m more h
  rcases alike_cases R x y h with ⟨p, l, k, r, u, v, rfl, rfl, hu⟩
  unfold Exec.perform
  dsimp only
  split_ifs
  · exact ⟨rfl, rfl, rfl, rfl, hu⟩
  · cases op with
    | count => exact hcount
    | resetNread => exact ⟨rfl, rfl, rfl, rfl, hu⟩
    | mark m => exact ⟨rfl, rfl, rfl, rfl, hu⟩
    | emit m => exact hdata m []
    | emitThrough m => exact hdata m [ch]

theorem performs_alike (hm : Matches s t R) (ch : Byte) (ops : List Op) (x : Exec σ)
    (y : Exec τ) (h : Alike R x y) :
    Alike R (ops.foldl (Exec.perform s ch) x) (ops.foldl (Exec.perform t ch) y) := by
  induction ops generalizing x y with
  | nil => exact h
  | cons op ops ih => exact ih _ _ (perform_alike s t R hm ch x y op h)

/-! ### Bytes and chunks -/

theorem finish_alike (hm : Matches s t R) (ch : Byte) (before : State) (o : Out) (x : Exec σ)
    (y : Exec τ) (h : Alike R x y) :
    Alike R (x.finish s ch before o) (y.finish t ch before o) := by
  rcases alike_cases R x y h with ⟨p, l, k, r, u, v, rfl, rfl, hu⟩
  unfold Exec.finish
  cases o.verdict with
  | fail e => exact ⟨rfl, rfl, rfl, rfl, hu⟩
  | next => exact ⟨rfl, rfl, rfl, rfl, hu⟩
  | complete exit =>
      -- Only here do the callbacks touch the parser, and both do the same to it.
      dsimp only
      refine ⟨hm.parser _ u v, rfl, rfl, ?_, hm.done _ u v hu⟩
      rw [hm.parser _ u v]

theorem read_alike (hm : Matches s t R) (ch : Byte) (x : Exec σ) (y : Exec τ)
    (h : Alike R x y) : Alike R (x.read s ch) (y.read t ch) := by
  rcases alike_cases R x y h with ⟨p, l, k, r, u, v, rfl, rfl, hu⟩
  have hops := performs_alike s t R hm ch (byteStep p l.skip ch).ops
    ⟨(byteStep p l.skip ch).parser, l, u, k, r⟩ ⟨(byteStep p l.skip ch).parser, l, v, k, r⟩
    ⟨rfl, rfl, rfl, rfl, hu⟩
  unfold Exec.read
  dsimp only
  rw [hops.returned]
  split_ifs
  · exact hops
  · exact finish_alike s t R hm ch _ _ _ _ hops

theorem byte_alike (hm : Matches s t R) (ch : Byte) (x : Exec σ) (y : Exec τ)
    (h : Alike R x y) : Alike R (x.byte s ch) (y.byte t ch) := by
  unfold Exec.byte
  dsimp only
  rw [h.returned, h.locals, h.parser]
  -- A byte in a header is counted before it is read, and may pass the limit.
  by_cases hc : (y.locals.span.isNone && y.parser.state.parsingHeader) = true
  · have hcount := count_alike R x y 1 h
    rw [if_pos hc, if_pos hc, hcount.returned]
    split_ifs
    · exact h
    · exact hcount
    · exact read_alike s t R hm ch _ _ hcount
  · rw [if_neg hc, if_neg hc, h.returned]
    split_ifs
    · exact h
    · exact read_alike s t R hm ch _ _ h

theorem feed_alike (hm : Matches s t R) (data : Bytes) (x : Exec σ) (y : Exec τ)
    (h : Alike R x y) : Alike R (x.feed s data) (y.feed t data) := by
  induction data generalizing x y with
  | nil => exact h
  | cons ch data ih => exact ih _ _ (byte_alike s t R hm ch x y h)

theorem flush_alike (hm : Matches s t R) (x : Exec σ) (y : Exec τ) (h : Alike R x y) :
    Alike R (x.flush s) (y.flush t) := by
  -- What is still marked is reported in the order of the source.
  have h1 := callbackData_alike s t R hm x y .headerField [] h
  have h2 := callbackData_alike s t R hm _ _ .headerValue [] h1
  have h3 := callbackData_alike s t R hm _ _ .body [] h2
  exact ⟨h3.parser, h3.locals, h3.pos, congrArg some h.pos, h3.user⟩

theorem endChunk_alike (hm : Matches s t R) (x : Exec σ) (y : Exec τ) (h : Alike R x y) :
    Alike R (x.endChunk s) (y.endChunk t) := by
  unfold Exec.endChunk
  rw [h.returned, h.locals]
  split_ifs
  · exact h
  · cases y.locals.span with
    | none =>
        dsimp only
        rw [h.returned]
        split_ifs
        exact flush_alike s t R hm x y h
    | some k =>
        have hcount := count_alike R x y k h
        dsimp only
        rw [hcount.returned]
        split_ifs
        · exact hcount
        · exact flush_alike s t R hm _ _ hcount

/-- If one call reads a chunk, so does the other. -/
theorem chunk_alike (hm : Matches s t R) (data : Bytes) (x : Exec σ) (y y' : Exec τ)
    (h : Alike R x y) (hy : y.chunk t data = some y') :
    ∃ x', x.chunk s data = some x' ∧ Alike R x' y' := by
  have hend := endChunk_alike s t R hm _ _ (feed_alike s t R hm data x y h)
  unfold Exec.chunk at hy ⊢
  dsimp only at hy ⊢
  rw [hend.returned, hend.parser, h.pos]
  split_ifs at hy ⊢ with hread
  rw [Option.some.injEq] at hy
  rw [← hy]
  exact ⟨_, rfl, start_alike R _ _ _ hend.user⟩

/-- If one call reads some chunks, so does the other. -/
theorem chunks_alike (hm : Matches s t R) (data : List Bytes) (x : Exec σ) (y y' : Exec τ)
    (h : Alike R x y) (hy : y.chunks t data = some y') :
    ∃ x', x.chunks s data = some x' ∧ Alike R x' y' := by
  induction data generalizing x y with
  | nil =>
      simp only [Exec.chunks, Option.some.injEq] at hy
      rw [← hy]
      exact ⟨x, rfl, h⟩
  | cons first rest ih =>
      rcases Option.bind_eq_some_iff.mp hy with ⟨y1, hy1, hy2⟩
      rcases chunk_alike s t R hm first x y y1 h hy1 with ⟨x1, hx1, h1⟩
      rcases ih x1 y1 h1 hy2 with ⟨x2, hx2, h2⟩
      refine ⟨x2, ?_, h2⟩
      rw [Exec.chunks, hx1]
      exact hx2

/-- The end of the stream. -/
theorem endOfStream_alike (hm : Matches s t R) (q : HttpParser) (u : σ) (v : τ) (h : R u v) :
    R (execute s q u []).2.1 (execute t q v []).2.1 := by
  unfold execute
  split_ifs
  · exact h
  · cases q.state with
    -- A body without a length ends here, and completes its message.
    | bodyIdentityEof => exact hm.done q u v h
    | _ => exact h
  · rename_i hne
    exact absurd rfl hne

end HttpParser

end Wrk
