import Wrk.HttpParser.Types

/-!
# Growing Buffers

The `buffer` of `script.c` that collects a response's headers, and another
its body, until they are handed to the script. Memory is the list of the
bytes allocated, so its length is the `length` field, and no memory is the
null pointer. The cursor counts from the start of the memory.

Resetting a buffer moves the cursor and clears nothing. Bytes past the cursor
are whatever was there before, or, in memory just allocated, whatever the
allocator left, which `junk` supplies by position.

The headers of a response are laid out as strings, each ended by a zero byte,
names and values in turn. `decode` is the loop that reads them back. It looks
for the ends of strings without regard to the cursor, so it has no result
when a string has no end within the memory.

What is read back becomes a table of Lua. A name that comes twice keeps one
value, the last.

## Main definitions

* `Buffer`: Memory and a cursor.
* `bufferAppend`: Copy bytes to the cursor.
* `pushNul`: Store a zero byte at the cursor.
* `bufferReset`: Move the cursor back.
* `decode`, `decodeEnd`: Read names and values back.
* `rawset`, `headerTable`: The table that they are stored in.
* `Buffer.Sound`: The cursor leaves room for a zero byte.
* `encode`: How headers are laid out.

## Theorems

* `bufferAppend_spec`: Appending keeps what was there, and leaves room.
* `pushNul_spec`: Storing a zero byte keeps what was there.
* `decodeEnd_encode`: The loop stops where the headers end.
* `decode_encode`: Headers without zero bytes are read back as they were.
* `headerTable_lookup`: The last value of a name is the one in the table.
* `headerTable_of_nodup`: Headers with different names are all in the table.
-/

namespace Wrk

open HttpParser

/-- The `buffer` structure. -/
structure Buffer where
  mem : Bytes
  cursor : Nat
  deriving DecidableEq, Repr

namespace Buffer

/-- A zeroed buffer. -/
def empty : Buffer := ⟨[], 0⟩

/-- `buffer != NULL`. -/
def isSome (b : Buffer) : Bool := !b.mem.isEmpty

/-- The bytes before the cursor. -/
def content (b : Buffer) : Bytes := b.mem.take b.cursor

/-- The growth by `1024` at a time, while `need` does not fit. Each iteration
    grows the memory, so `need + 1` of them are enough. -/
def grow (junk : Nat → Byte) (need : Nat) : Nat → Bytes → Bytes
  | 0, mem => mem
  | fuel + 1, mem =>
      if need ≥ mem.length then
        grow junk need fuel (mem ++ (List.range 1024).map (fun i => junk (mem.length + i)))
      else mem

/-- `memcpy` to a position. -/
def store (mem : Bytes) (pos : Nat) (data : Bytes) : Bytes :=
  mem.take pos ++ data ++ mem.drop (pos + data.length)

end Buffer

/-- `buffer_append`. -/
def bufferAppend (junk : Nat → Byte) (b : Buffer) (data : Bytes) : Buffer :=
  let need := b.cursor + data.length + 1
  let mem := Buffer.grow junk need (need + 1) b.mem
  { mem := Buffer.store mem b.cursor data, cursor := b.cursor + data.length }

/-- `*cursor++ = '\0'`. -/
def pushNul (b : Buffer) : Buffer := { mem := b.mem.set b.cursor 0, cursor := b.cursor + 1 }

/-- `buffer_reset`. -/
def bufferReset (b : Buffer) : Buffer := { b with cursor := 0 }

/-- `buffer_pushlstring`: the string at a position and the position after its
    zero byte, or nothing if there is none in the memory. -/
def pushlstring (mem : Bytes) (pos : Nat) : Option (Bytes × Nat) :=
  let rest := mem.drop pos
  let str := rest.takeWhile (· ≠ 0)
  if str.length < rest.length then some (str, pos + str.length + 1) else none

/-- The loop of `script_response`: pairs of strings until the position is at
    or past the cursor. Every string advances the position, so the cursor
    bounds the iterations. -/
def decode (mem : Bytes) (cursor : Nat) : Nat → Nat → Option (List (Bytes × Bytes))
  | 0, pos => if pos < cursor then none else some []
  | fuel + 1, pos =>
      if pos < cursor then
        match pushlstring mem pos with
        | none => none
        | some (name, pos) =>
            match pushlstring mem pos with
            | none => none
            | some (value, pos) => (decode mem cursor fuel pos).map ((name, value) :: ·)
      else some []

/-- The same loop, with the position at which it stops. -/
def decodeEnd (mem : Bytes) (cursor : Nat) : Nat → Nat → Option (List (Bytes × Bytes) × Nat)
  | 0, pos => if pos < cursor then none else some ([], pos)
  | fuel + 1, pos =>
      if pos < cursor then
        match pushlstring mem pos with
        | none => none
        | some (name, pos) =>
            match pushlstring mem pos with
            | none => none
            | some (value, pos) =>
                (decodeEnd mem cursor fuel pos).map (fun x => ((name, value) :: x.1, x.2))
      else some ([], pos)

theorem decodeEnd_fst (mem : Bytes) (cursor fuel pos : Nat) :
    (decodeEnd mem cursor fuel pos).map Prod.fst = decode mem cursor fuel pos := by
  induction fuel generalizing pos with
  | zero =>
      rw [decodeEnd, decode]
      split_ifs <;> rfl
  | succ fuel ih =>
      rw [decodeEnd, decode]
      split_ifs
      · cases pushlstring mem pos with
        | none => rfl
        | some name =>
            dsimp only
            cases pushlstring mem name.2 with
            | none => rfl
            | some value =>
                dsimp only
                rw [← ih, Option.map_map, Option.map_map]
                rfl
      · rfl

/-- The headers a buffer is decoded to. -/
def Buffer.headers (b : Buffer) : Option (List (Bytes × Bytes)) := decode b.mem b.cursor b.cursor 0

/-- `lua_rawset` with a string for a name and for a value. A table is the list
    of its entries, in the order in which their names were first set. -/
def rawset (name value : Bytes) : List (Bytes × Bytes) → List (Bytes × Bytes)
  | [] => [(name, value)]
  | e :: table => if e.1 = name then (name, value) :: table else e :: rawset name value table

/-- The table that headers are stored in, one after another. -/
def headerTable (pairs : List (Bytes × Bytes)) : List (Bytes × Bytes) :=
  pairs.foldl (fun table p => rawset p.1 p.2 table) []

/-- The table that the headers of a buffer are stored in. -/
def Buffer.table (b : Buffer) : Option (List (Bytes × Bytes)) := b.headers.map headerTable

/-- A name that is not in the table is added at its end. -/
theorem rawset_fresh (name value : Bytes) (table : List (Bytes × Bytes))
    (h : name ∉ table.map Prod.fst) : rawset name value table = table ++ [(name, value)] := by
  induction table with
  | nil => rfl
  | cons e table ih =>
      rw [List.map_cons, List.mem_cons, not_or] at h
      rw [rawset, if_neg (fun heq => h.1 heq.symm), ih h.2]
      rfl

theorem rawset_lookup (name value key : Bytes) (table : List (Bytes × Bytes)) :
    (rawset name value table).lookup key =
      if key = name then some value else table.lookup key := by
  induction table with
  | nil =>
      rw [rawset, List.lookup_cons, List.lookup_nil]
      by_cases hkey : key = name
      · rw [if_pos hkey, beq_iff_eq.mpr hkey]
      · rw [if_neg hkey, beq_eq_false_iff_ne.mpr hkey]
  | cons e table ih =>
      rw [rawset]
      split_ifs with he hkey hkey
      · rw [List.lookup_cons, beq_iff_eq.mpr hkey]
      · rw [List.lookup_cons, List.lookup_cons, beq_eq_false_iff_ne.mpr hkey, he,
          beq_eq_false_iff_ne.mpr hkey]
      · rw [List.lookup_cons, ih, if_pos hkey, hkey, beq_eq_false_iff_ne.mpr (Ne.symm he)]
      · rw [List.lookup_cons, List.lookup_cons, ih, if_neg hkey]

/-- The value of a name in the table is the last that it has in the headers. -/
theorem headerTable_lookup (pairs : List (Bytes × Bytes)) (key : Bytes) :
    (headerTable pairs).lookup key = pairs.reverse.lookup key := by
  unfold headerTable
  rw [← List.foldr_reverse]
  induction pairs.reverse with
  | nil => rfl
  | cons p pairs ih =>
      rw [List.foldr_cons, rawset_lookup, ih, List.lookup_cons]
      by_cases hkey : key = p.1
      · rw [if_pos hkey, beq_iff_eq.mpr hkey]
      · rw [if_neg hkey, beq_eq_false_iff_ne.mpr hkey]

/-- Headers with different names are all in the table, in their order. -/
theorem headerTable_of_nodup (pairs : List (Bytes × Bytes)) (h : (pairs.map Prod.fst).Nodup) :
    headerTable pairs = pairs := by
  -- What the loop has stored so far and what is left have different names.
  have hstep : ∀ (table : List (Bytes × Bytes)), ((table ++ pairs).map Prod.fst).Nodup →
      pairs.foldl (fun table p => rawset p.1 p.2 table) table = table ++ pairs := by
    clear h
    induction pairs with
    | nil => exact fun table _ => (List.append_nil table).symm
    | cons p pairs ih =>
        intro table h
        have hp : p.1 ∉ table.map Prod.fst := by
          intro hmem
          rw [List.map_append, List.map_cons] at h
          exact (List.nodup_append.mp h).2.2 p.1 hmem p.1 List.mem_cons_self rfl
        rw [List.foldl_cons, rawset_fresh p.1 p.2 table hp,
          ih (table ++ [p]) (by rw [List.append_assoc]; exact h), List.append_assoc]
        rfl
  exact hstep [] h

/-! ### What the operations do to the content -/

/-- The null buffer, or one with room for a zero byte at the cursor and
    another after it. -/
def Buffer.Sound (b : Buffer) : Prop :=
  (b.mem = [] ∧ b.cursor = 0) ∨ b.cursor + 1 < b.mem.length

theorem sound_empty : Buffer.empty.Sound := Or.inl ⟨rfl, rfl⟩

theorem sound_le (b : Buffer) (h : b.Sound) : b.cursor ≤ b.mem.length := by
  rcases h with ⟨_, h⟩ | h
  · omega
  · omega

theorem content_length (b : Buffer) (h : b.cursor ≤ b.mem.length) :
    b.content.length = b.cursor := by
  rw [Buffer.content, List.length_take]
  omega

/-- Growing keeps the bytes that are there. -/
theorem grow_append (junk : Nat → Byte) (need fuel : Nat) (mem : Bytes) :
    ∃ more, Buffer.grow junk need fuel mem = mem ++ more := by
  induction fuel generalizing mem with
  | zero => exact ⟨[], (List.append_nil mem).symm⟩
  | succ fuel ih =>
      unfold Buffer.grow
      by_cases h : need ≥ mem.length
      · rw [if_pos h]
        rcases ih (mem ++ (List.range 1024).map (fun i => junk (mem.length + i))) with ⟨more, hm⟩
        exact ⟨_, hm.trans (List.append_assoc _ _ _)⟩
      · rw [if_neg h]
        exact ⟨[], (List.append_nil mem).symm⟩

/-- Growing makes room for what is needed, given enough iterations. -/
theorem grow_length (junk : Nat → Byte) (need fuel : Nat) (mem : Bytes)
    (h : need < mem.length + fuel) : need < (Buffer.grow junk need fuel mem).length := by
  induction fuel generalizing mem with
  | zero => exact h
  | succ fuel ih =>
      unfold Buffer.grow
      by_cases hn : need ≥ mem.length
      · rw [if_pos hn]
        refine ih _ ?_
        rw [List.length_append, List.length_map, List.length_range]
        omega
      · rw [if_neg hn]
        omega

/-- Appending adds the bytes to the content and leaves room. -/
theorem bufferAppend_spec (junk : Nat → Byte) (b : Buffer) (data : Bytes)
    (h : b.cursor ≤ b.mem.length) :
    (bufferAppend junk b data).content = b.content ++ data ∧
      (bufferAppend junk b data).cursor + 1 < (bufferAppend junk b data).mem.length := by
  have hlen := grow_length junk (b.cursor + data.length + 1) (b.cursor + data.length + 1 + 1) b.mem
    (by omega)
  rcases grow_append junk (b.cursor + data.length + 1) (b.cursor + data.length + 1 + 1) b.mem with
    ⟨more, hmore⟩
  unfold bufferAppend Buffer.content
  dsimp only
  rw [hmore] at hlen ⊢
  unfold Buffer.store
  have htake : (b.mem ++ more).take b.cursor = b.mem.take b.cursor :=
    List.take_append_of_le_length h
  have hsize : (b.mem.take b.cursor ++ data).length = b.cursor + data.length := by
    rw [List.length_append, List.length_take]
    omega
  rw [htake]
  refine ⟨List.take_left' hsize, ?_⟩
  rw [List.length_append, hsize, List.length_drop]
  omega

/-- Storing a zero byte adds it to the content. -/
theorem pushNul_spec (b : Buffer) (h : b.cursor < b.mem.length) :
    (pushNul b).content = b.content ++ [0] ∧ (pushNul b).cursor ≤ (pushNul b).mem.length := by
  unfold pushNul Buffer.content
  dsimp only
  refine ⟨?_, ?_⟩
  · rw [List.take_set, List.set_eq_take_append_cons_drop, if_pos ?_, List.take_take,
      Nat.min_eq_left (Nat.le_succ _)]
    · rw [List.drop_eq_nil_of_le]
      rw [List.length_take]
      omega
    · rw [List.length_take]
      omega
  · rw [List.length_set]
    omega

/-! ### Reading headers back -/

/-- The strings of the headers, each followed by a zero byte. -/
def encode (pairs : List (Bytes × Bytes)) : Bytes :=
  pairs.flatMap (fun p => p.1 ++ 0 :: (p.2 ++ [0]))

theorem encode_append (ps qs : List (Bytes × Bytes)) :
    encode (ps ++ qs) = encode ps ++ encode qs :=
  List.flatMap_append

theorem length_le_encode (pairs : List (Bytes × Bytes)) :
    pairs.length ≤ (encode pairs).length := by
  induction pairs with
  | nil => exact Nat.zero_le _
  | cons p pairs ih =>
      unfold encode at ih ⊢
      rw [List.flatMap_cons, List.length_append, List.length_append, List.length_cons,
        List.length_cons]
      omega

/-- A string without zero bytes is read up to the one that ends it. -/
theorem pushlstring_eq (mem str rest : Bytes) (pos : Nat) (hmem : mem.drop pos = str ++ 0 :: rest)
    (hstr : (0 : Byte) ∉ str) : pushlstring mem pos = some (str, pos + str.length + 1) := by
  have htake : (str ++ 0 :: rest).takeWhile (· ≠ (0 : Byte)) = str := by
    rw [List.takeWhile_append_of_pos (fun a ha => ?_)]
    · rw [List.takeWhile_cons, if_neg (by simp only [ne_eq, not_true_eq_false, decide_false,
        Bool.false_eq_true, not_false_eq_true]), List.append_nil]
    · have hne : a ≠ 0 := fun h => hstr (h ▸ ha)
      simp only [hne, ne_eq, not_false_eq_true, decide_true]
  unfold pushlstring
  dsimp only
  rw [hmem, htake, if_pos]
  rw [List.length_append, List.length_cons]
  omega

theorem drop_after (mem str rest : Bytes) (pos : Nat) (hmem : mem.drop pos = str ++ 0 :: rest) :
    mem.drop (pos + str.length + 1) = rest := by
  have h : (mem.drop pos).drop (str.length + 1) = rest := by
    rw [hmem, ← List.drop_drop, List.drop_left, List.drop_one, List.tail_cons]
  rw [List.drop_drop] at h
  exact h

/-- Headers without zero bytes are read back from wherever they are laid out,
    and the loop stops where they end. -/
theorem decodeEnd_encode_at (pairs : List (Bytes × Bytes))
    (hnul : ∀ p ∈ pairs, (0 : Byte) ∉ p.1 ∧ (0 : Byte) ∉ p.2) (mem rest : Bytes) (fuel pos : Nat)
    (hmem : mem.drop pos = encode pairs ++ rest) (hfuel : pairs.length ≤ fuel) :
    decodeEnd mem (pos + (encode pairs).length) fuel pos =
      some (pairs, pos + (encode pairs).length) := by
  induction pairs generalizing fuel pos with
  | nil =>
      have hend : ¬ pos < pos + (encode []).length := Nat.lt_irrefl pos
      cases fuel with
      | zero =>
          rw [decodeEnd, if_neg hend]
          rfl
      | succ fuel =>
          rw [decodeEnd, if_neg hend]
          rfl
  | cons p pairs ih =>
      rcases p with ⟨name, value⟩
      rcases hnul (name, value) List.mem_cons_self with ⟨hname, hvalue⟩
      have hcons : encode ((name, value) :: pairs) = name ++ 0 :: (value ++ 0 :: encode pairs) := by
        simp only [encode, List.flatMap_cons, List.append_assoc, List.cons_append,
          List.nil_append]
      rw [hcons] at hmem
      have hmem1 : mem.drop pos = name ++ 0 :: (value ++ 0 :: (encode pairs ++ rest)) := by
        simpa only [List.append_assoc, List.cons_append] using hmem
      -- The name is read first, and the value from behind its terminator.
      have hmem2 := drop_after mem name _ pos hmem1
      have hmem3 := drop_after mem value _ _ hmem2
      cases fuel with
      | zero => exact absurd hfuel (Nat.not_succ_le_zero _)
      | succ fuel =>
          have hmore : pos < pos + (encode ((name, value) :: pairs)).length := by
            rw [hcons, List.length_append, List.length_cons]
            omega
          have hend : pos + (encode ((name, value) :: pairs)).length =
              pos + name.length + 1 + value.length + 1 + (encode pairs).length := by
            rw [hcons, List.length_append, List.length_cons, List.length_append,
              List.length_cons]
            omega
          have hrest := ih (fun q hq => hnul q (List.mem_cons_of_mem _ hq)) fuel _ hmem3
            (Nat.le_of_succ_le_succ hfuel)
          rw [decodeEnd, if_pos hmore, pushlstring_eq mem name _ pos hmem1 hname]
          dsimp only
          rw [pushlstring_eq mem value _ _ hmem2 hvalue]
          dsimp only
          rw [hend, hrest, Option.map_some]

/-- The loop needs no byte past the headers, and stops at their end. -/
theorem decodeEnd_encode (b : Buffer) (pairs : List (Bytes × Bytes))
    (hnul : ∀ p ∈ pairs, (0 : Byte) ∉ p.1 ∧ (0 : Byte) ∉ p.2) (hle : b.cursor ≤ b.mem.length)
    (h : b.content = encode pairs) (more : Bytes) :
    decodeEnd (b.content ++ more) b.cursor b.cursor 0 = some (pairs, b.cursor) := by
  have hcursor : b.cursor = (encode pairs).length := by rw [← h, content_length b hle]
  have hfuel : pairs.length ≤ b.cursor := by
    rw [hcursor]
    exact length_le_encode pairs
  have hmem : (b.content ++ more).drop 0 = encode pairs ++ more := by rw [← h, List.drop_zero]
  have hdec := decodeEnd_encode_at pairs hnul (b.content ++ more) more b.cursor 0 hmem hfuel
  rw [Nat.zero_add, ← hcursor] at hdec
  exact hdec

/-- A buffer that holds nothing but headers without zero bytes is decoded to
    them. -/
theorem decode_encode (b : Buffer) (pairs : List (Bytes × Bytes))
    (hnul : ∀ p ∈ pairs, (0 : Byte) ∉ p.1 ∧ (0 : Byte) ∉ p.2) (hle : b.cursor ≤ b.mem.length)
    (h : b.content = encode pairs) : b.headers = some pairs := by
  have hdec := decodeEnd_encode b pairs hnul hle h (b.mem.drop b.cursor)
  rw [Buffer.content, List.take_append_drop] at hdec
  rw [Buffer.headers, ← decodeEnd_fst, hdec, Option.map_some]

end Wrk
