import Wrk.Script.Lua

/-!
# Transfer of Values between Environments

`script_copy_value` copies an element of one stack to the top of another, a
table entry by entry. It serves `thread:get` and `thread:set`, by which a
script in `setup()` exchanges globals with the environments of the threads.

Strings are handed over as C strings and end at their first NUL. After the
last entry of a table `lua_next` has already popped the key, so that the pop
that follows removes the table itself: the stack of the source is one element
shorter than it was. When the table was a value in another table, what is
popped next is the key from which the traversal was to go on.

## Main definitions

* `scriptCopyValue`, `copyEntries`: The function and its loop.
* `scriptThreadGet`, `scriptThreadSet`: Its callers.
* `Value.scalar`: Neither a table nor a string that contains NUL.
* `Transfers`: A value is transferred as it should be.

## Theorems

* `copy_height`: Copying a table makes the stack of the source shorter.
* `transfers_iff`: Scalars are transferred as they should be, and nothing else
  is.
* `copy_table`: A table of scalars arrives whole, and is lost from the stack
  it came from.
-/

namespace Wrk

namespace Script

open HttpParser (Bytes bytes)

variable {N : Type}

/-- `luaL_typename`. -/
def Foreign.typename : Foreign → String
  | .function => "function"
  | .userdata => "userdata"
  | .lightuserdata => "userdata"
  | .thread => "thread"

mutual

/-- `script_copy_value`. -/
def scriptCopyValue [DecidableEq N] :
    Nat → Lua N → Lua N → Int → Except Failure (Lua N × Lua N)
  | 0, _, _, _ => .error .fuel
  | fuel + 1, src, dst, index =>
      match src.at_ index with
      | some (.boolean b) => .ok (src, dst.push (.boolean b))
      | some .nil => .ok (src, dst.push .nil)
      | some (.number n) => .ok (src, dst.push (.number n))
      | some (.string s) => .ok (src, luaPushstring dst s)
      | some (.table ref entries) => do
          let r ← copyEntries fuel (.table ref entries) (src.push .nil) (luaNewtable dst)
            (index - 1)
          let src ← r.1.pop 1
          .ok (src, r.2)
      | some (.foreign kind _) => .error (.cannotTransfer kind.typename)
      | none => .error (.cannotTransfer "no value")

/-- The loop over the entries. The table that is copied is for the record. -/
def copyEntries [DecidableEq N] :
    Nat → Value N → Lua N → Lua N → Int → Except Failure (Lua N × Lua N)
  | 0, _, _, _, _ => .error .fuel
  | fuel + 1, copied, src, dst, index => do
      let n ← luaNext copied src index
      if n.1 then
        let r ← scriptCopyValue fuel n.2 dst (-2)
        let r ← scriptCopyValue fuel r.1 r.2 (-1)
        let dst ← luaSettable r.2
        let src ← r.1.pop 1
        copyEntries fuel copied src dst index
      else .ok (n.2, dst)

end

/-- `script_thread_get`, for the environment of a thread and the one that
    calls, which has the name on top. -/
def scriptThreadGet [DecidableEq N] [ToString N] (fuel : Nat) (t L : Lua N) :
    Except Failure (Lua N × Lua N) := do
  let key ← luaTostring L (-1)
  let r ← scriptCopyValue fuel (luaGetglobal t key.1) key.2 (-1)
  let t ← r.1.pop 1
  .ok (t, r.2)

/-- `script_thread_set`, with the value on top and the name below it. -/
def scriptThreadSet [DecidableEq N] [ToString N] (fuel : Nat) (t L : Lua N) :
    Except Failure (Lua N × Lua N) := do
  let name ← luaTostring L (-2)
  let r ← scriptCopyValue fuel name.2 t (-1)
  let t ← luaSetglobal r.2 name.1
  .ok (t, r.1)

/-! ### What is asked of a transfer -/

/-- A value that is neither a table nor foreign, and no string with a NUL. -/
def Value.scalar : Value N → Bool
  | .nil => true
  | .boolean _ => true
  | .number _ => true
  | .string s => decide (0 ∉ s)
  | .table _ _ => false
  | .foreign _ _ => false

/-- A step of `lua_next` through the table that is copied, from nil or from
    one of its keys. -/
def ProperStep (s : Value N × Value N × Value N) : Prop :=
  s.2.1 = s.1 ∧ ∃ ref entries, s.1 = .table ref entries ∧
    (s.2.2 = .nil ∨ ∃ v, (s.2.2, v) ∈ entries)

/-- A value arrives on top of one stack and the other is left as it was. -/
structure Copied (src dst src' dst' : Lua N) (v : Value N) : Prop where
  pushed : ∃ v', dst'.stack = v' :: dst.stack ∧ v.Same v'
  kept : src'.stack = src.stack
  globals : src'.globals = src.globals ∧ dst'.globals = dst.globals
  steps : ∃ done, src'.steps = done ++ src.steps ∧ ∀ s ∈ done, ProperStep s

/-- A value is copied as it should be, from any stack to any other, and so are
    globals of this value. -/
structure Transfers [DecidableEq N] [ToString N] (v : Value N) : Prop where
  copy : ∀ (src dst : Lua N) (below : List (Value N)), src.stack = v :: below →
    ∃ fuel src' dst', scriptCopyValue fuel src dst (-1) = .ok (src', dst') ∧
      Copied src dst src' dst' v
  get : ∀ (t L : Lua N) (name : Bytes) (below : List (Value N)),
    L.stack = .string name :: below → t.globals (cString name) = v →
      ∃ fuel t' L', scriptThreadGet fuel t L = .ok (t', L') ∧
        (∃ v', L'.stack = v' :: L.stack ∧ v.Same v') ∧ t'.stack = t.stack ∧
          t'.globals = t.globals
  set : ∀ (t L : Lua N) (name : Bytes) (below : List (Value N)),
    L.stack = v :: .string name :: below →
      ∃ fuel t' L', scriptThreadSet fuel t L = .ok (t', L') ∧
        (∃ v', t'.globals = Function.update t.globals (cString name) v' ∧ v.Same v') ∧
          t'.stack = t.stack ∧ L'.stack = L.stack

/-! ### Scalars -/

theorem at_top (L : Lua N) (v : Value N) (below : List (Value N)) (h : L.stack = v :: below) :
    L.at_ (-1) = some v := by
  unfold Lua.at_
  rw [h]
  rfl

theorem at_second (L : Lua N) (u v : Value N) (below : List (Value N))
    (h : L.stack = u :: v :: below) : L.at_ (-2) = some v := by
  unfold Lua.at_
  rw [h]
  rfl

theorem cString_eq_iff (s : Bytes) : cString s = s ↔ 0 ∉ s := by
  unfold cString
  rw [List.takeWhile_eq_self_iff]
  simp only [decide_eq_true_eq]
  exact ⟨fun h hmem => h 0 hmem rfl, fun h b hb hzero => h (hzero ▸ hb)⟩

/-- A scalar is copied by one push. -/
theorem copy_scalar [DecidableEq N] (fuel : Nat) (src dst : Lua N) (index : Int) (v : Value N)
    (hat : src.at_ index = some v) (hv : v.scalar = true) :
    scriptCopyValue (fuel + 1) src dst index = .ok (src, dst.push v) := by
  unfold scriptCopyValue
  rw [hat]
  cases v with
  | nil => rfl
  | boolean b => rfl
  | number n => rfl
  | string s =>
      have hs := (cString_eq_iff s).mpr (of_decide_eq_true hv)
      simp only [luaPushstring, hs]
  | table ref entries => exact absurd hv Bool.false_ne_true
  | foreign kind ref => exact absurd hv Bool.false_ne_true

theorem same_of_scalar (v : Value N) (hv : v.scalar = true) : v.Same v := by
  cases v with
  | nil => exact .nil
  | boolean b => exact .boolean b
  | number n => exact .number n
  | string s => exact .string s
  | table ref entries => exact absurd hv Bool.false_ne_true
  | foreign kind ref => exact absurd hv Bool.false_ne_true

/-! ### The height of the source -/

/-- No call makes the stack of the source higher, and copying a table makes it
    lower: the table itself is popped, if nothing else is. -/
theorem copy_height [DecidableEq N] (fuel : Nat) :
    (∀ (src dst : Lua N) (index : Int) (r : Lua N × Lua N),
      scriptCopyValue fuel src dst index = .ok r →
        r.1.stack.length ≤ src.stack.length ∧
          ∀ ref entries, src.at_ index = some (.table ref entries) →
            r.1.stack.length < src.stack.length) ∧
    (∀ (copied : Value N) (src dst : Lua N) (index : Int) (r : Lua N × Lua N),
      copyEntries fuel copied src dst index = .ok r →
        r.1.stack.length < src.stack.length) := by
  induction fuel with
  | zero =>
      refine ⟨fun _ _ _ _ h => ?_, fun _ _ _ _ _ h => ?_⟩
      · cases h
      · cases h
  | succ fuel ih =>
      refine ⟨fun src dst index r h => ?_, fun copied src dst index r h => ?_⟩
      · unfold scriptCopyValue at h
        split at h
        case h_5 ref entries hat =>
          -- A table: nil is pushed, the loop pops the last key, and one more is popped.
          rcases bind_eq_ok _ _ _ h with ⟨r', hloop, h⟩
          rcases bind_eq_ok _ _ _ h with ⟨src', hpop, h⟩
          cases h
          have hlower := ih.2 _ _ _ _ _ hloop
          have hheight := pop_height _ _ _ hpop
          simp only [Lua.push, List.length_cons] at hlower
          dsimp only
          exact ⟨by omega, fun _ _ _ => by omega⟩
        case h_6 => cases h
        case h_7 => cases h
        all_goals
          cases h
          refine ⟨Nat.le_refl _, fun ref entries hat => ?_⟩
          simp_all only [Option.some.injEq, reduceCtorEq]
      · unfold copyEntries at h
        rcases bind_eq_ok _ _ _ h with ⟨n, hnext, h⟩
        have hstep := luaNext_height _ _ _ _ hnext
        by_cases hmore : n.1 = true
        · rw [if_pos hmore] at h
          rcases bind_eq_ok _ _ _ h with ⟨r₁, hkey, h⟩
          rcases bind_eq_ok _ _ _ h with ⟨r₂, hvalue, h⟩
          rcases bind_eq_ok _ _ _ h with ⟨dst', _, h⟩
          rcases bind_eq_ok _ _ _ h with ⟨src', hpop, h⟩
          have hk := (ih.1 _ _ _ _ hkey).1
          have hv := (ih.1 _ _ _ _ hvalue).1
          have hp := pop_height _ _ _ hpop
          have hrest := ih.2 _ _ _ _ _ h
          rw [if_pos hmore] at hstep
          omega
        · rw [if_neg hmore] at h hstep
          cases h
          dsimp only
          omega

/-! ### The transfers -/

/-- Scalars are transferred as they should be. -/
theorem transfers_scalar [DecidableEq N] [ToString N] (v : Value N) (hv : v.scalar = true) :
    Transfers v where
  copy := by
    intro src dst below hstack
    refine ⟨1, src, dst.push v, copy_scalar 0 src dst (-1) v (at_top src v below hstack) hv, ?_⟩
    exact ⟨⟨v, rfl, same_of_scalar v hv⟩, rfl, ⟨rfl, rfl⟩, [], rfl,
      fun _ hs => absurd hs List.not_mem_nil⟩
  get := by
    intro t L name below hstack hglobal
    have hname : luaTostring L (-1) = .ok (name, L) := by
      unfold luaTostring
      rw [at_top L (.string name) below hstack]
    have hcopy := copy_scalar 0 (luaGetglobal t name) L (-1) v
      (at_top _ v t.stack (by unfold luaGetglobal Lua.push; rw [hglobal])) hv
    have hpop : (luaGetglobal t name).pop 1 = .ok t := pop_push t _
    refine ⟨1, t, L.push v, ?_, ⟨v, rfl, same_of_scalar v hv⟩, rfl, rfl⟩
    unfold scriptThreadGet
    simp only [hname, ok_bind, hcopy, hpop]
  set := by
    intro t L name below hstack
    have hname : luaTostring L (-2) = .ok (name, L) := by
      unfold luaTostring
      rw [at_second L v (.string name) below hstack]
    have hcopy := copy_scalar 0 L t (-1) v (at_top L v _ hstack) hv
    refine ⟨1, { t with globals := Function.update t.globals (cString name) v }, L, ?_,
      ⟨v, rfl, same_of_scalar v hv⟩, rfl, rfl⟩
    unfold scriptThreadSet
    simp only [hname, ok_bind, hcopy]
    rfl

/-- An environment with one value on its stack. -/
def Lua.holding (v : Value N) : Lua N :=
  { stack := [v], globals := fun _ => .nil, fresh := 0, steps := [] }

/-- Scalars are transferred as they should be, and nothing else is. -/
theorem transfers_iff [DecidableEq N] [ToString N] (v : Value N) :
    Transfers v ↔ v.scalar = true := by
  refine ⟨fun h => ?_, transfers_scalar v⟩
  rcases h.copy (.holding v) (.holding .nil) [] rfl with ⟨fuel, src', dst', hcopy, hcopied⟩
  cases v with
  | nil => rfl
  | boolean b => rfl
  | number n => rfl
  | string s =>
      -- What arrives is the string up to its first NUL.
      cases fuel with
      | zero => cases hcopy
      | succ fuel =>
          have hpushed : dst' = luaPushstring (.holding .nil) s := by
            unfold scriptCopyValue at hcopy
            cases hcopy
            rfl
          rcases hcopied.pushed with ⟨v', hstack, hsame⟩
          rw [hpushed] at hstack
          cases hsame
          have hs : cString s = s := by
            injection hstack with htop _
            injection htop
          exact decide_eq_true ((cString_eq_iff s).mp hs)
  | table ref entries =>
      have hlower := ((copy_height fuel).1 _ _ _ _ hcopy).2 ref entries rfl
      have hkept := congrArg List.length hcopied.kept
      dsimp only at hlower
      omega
  | foreign kind ref =>
      cases fuel with
      | zero => cases hcopy
      | succ fuel =>
          unfold scriptCopyValue at hcopy
          cases hcopy

/-- An empty table is popped from the stack it is copied from. -/
theorem emptyTable_lost : ¬ Transfers (.table 0 [] : Value Int) := by
  intro h
  rcases h.copy (.holding _) (.holding .nil) [] rfl with ⟨fuel, src', dst', hcopy, hcopied⟩
  match fuel with
  | 0 => cases hcopy
  | 1 => cases hcopy
  | fuel + 2 =>
      unfold scriptCopyValue copyEntries at hcopy
      cases hcopy
      exact absurd hcopied.kept (List.cons_ne_nil _ _).symm

/-! ### Tables of scalars -/

/-- Entries as they are in a table of scalars: no key is nil or occurs twice,
    and no value is nil. -/
structure ScalarEntries [DecidableEq N] (es : List (Value N × Value N)) : Prop where
  scalar : ∀ e ∈ es, e.1.scalar = true ∧ e.2.scalar = true
  present : ∀ e ∈ es, rawEqual e.1 .nil = false ∧ rawEqual e.2 .nil = false
  distinct : es.Pairwise (fun e e' => rawEqual e'.1 e.1 = false)

theorem rawEqual_self [DecidableEq N] (v : Value N) : rawEqual v v = true := by
  cases v <;> simp only [rawEqual, decide_true, Bool.and_self]

theorem entriesAfter_append [DecidableEq N] (k v : Value N) (es es' : List (Value N × Value N))
    (h : ∀ e ∈ es, rawEqual k e.1 = false) : entriesAfter k (es ++ (k, v) :: es') = some es' := by
  induction es with
  | nil => exact if_pos (rawEqual_self k)
  | cons e es ih =>
      have he : ¬ rawEqual k e.1 = true := by
        rw [h e List.mem_cons_self]
        exact Bool.false_ne_true
      rw [List.cons_append, entriesAfter, if_neg he]
      exact ih (fun e' he' => h e' (List.mem_cons_of_mem e he'))

theorem setEntry_append [DecidableEq N] (k v : Value N) (es : List (Value N × Value N))
    (hv : rawEqual v .nil = false) (h : ∀ e ∈ es, rawEqual k e.1 = false) :
    setEntry k v es = es ++ [(k, v)] := by
  induction es with
  | nil =>
      rw [setEntry, hv]
      rfl
  | cons e es ih =>
      have he : ¬ rawEqual k e.1 = true := by
        rw [h e List.mem_cons_self]
        exact Bool.false_ne_true
      rw [setEntry, if_neg he, ih (fun e' he' => h e' (List.mem_cons_of_mem e he'))]
      rfl

/-- The loop from a key on. The induction is on the entries that are still to
    be copied. -/
theorem copyEntries_scalars [DecidableEq N] (ref ref' : Nat) (es : List (Value N × Value N))
    (hes : ScalarEntries es) (below rest : List (Value N)) (left : List (Value N × Value N)) :
    ∀ (copied : List (Value N × Value N)) (key : Value N) (src dst : Lua N), es = copied ++ left →
      src.stack = key :: .table ref es :: below → entriesFrom key es = some left →
      dst.stack = .table ref' copied :: rest →
      ∃ src' dst', copyEntries (left.length + 2) (.table ref es) src dst (-2) = .ok (src', dst') ∧
        src'.stack = .table ref es :: below ∧ dst'.stack = .table ref' es :: rest := by
  induction left with
  | nil =>
      intro copied key src dst hsplit hsrc hleft hdst
      let ended : Lua N :=
        { src with
          stack := .table ref es :: below
          steps := (.table ref es, .table ref es, key) :: src.steps }
      have hnext : luaNext (.table ref es) src (-2) = .ok (false, ended) := by
        unfold luaNext
        rw [at_second src key _ below hsrc, hsrc]
        simp only [hleft]
        rfl
      refine ⟨ended, dst, ?_, rfl, ?_⟩
      · unfold copyEntries
        simp only [hnext, ok_bind, Bool.false_eq_true, if_false]
      · rw [hdst, hsplit, List.append_nil]
  | cons e left ih =>
      intro copied key src dst hsplit hsrc hleft hdst
      have hmem : e ∈ es := by
        rw [hsplit]
        exact List.mem_append_right copied List.mem_cons_self
      have hfresh : ∀ e' ∈ copied, rawEqual e.1 e'.1 = false := by
        intro e' he'
        have hpair := hes.distinct
        rw [hsplit, List.pairwise_append] at hpair
        exact hpair.2.2 e' he' e List.mem_cons_self
      rcases hes.scalar e hmem with ⟨hkey, hvalue⟩
      rcases hes.present e hmem with ⟨hsome, hpresent⟩
      let stepped : Lua N :=
        { src with
          stack := e.2 :: e.1 :: .table ref es :: below
          steps := (.table ref es, .table ref es, key) :: src.steps }
      have hnext : luaNext (.table ref es) src (-2) = .ok (true, stepped) := by
        unfold luaNext
        rw [at_second src key _ below hsrc, hsrc]
        simp only [hleft]
        rfl
      have hcopyKey := copy_scalar (left.length + 1) stepped dst (-2) e.1
        (at_second stepped e.2 e.1 _ rfl) hkey
      have hcopyValue := copy_scalar (left.length + 1) stepped (dst.push e.1) (-1) e.2
        (at_top stepped e.2 _ rfl) hvalue
      have hset : luaSettable ((dst.push e.1).push e.2) =
          .ok { dst with stack := .table ref' (copied ++ [e]) :: rest } := by
        unfold luaSettable Lua.push
        simp only [hdst, hsome, Bool.false_eq_true, if_false,
          setEntry_append e.1 e.2 copied hpresent hfresh]
      have hpop : stepped.pop 1 =
          .ok { stepped with stack := e.1 :: .table ref es :: below } :=
        if_pos (Nat.le_add_left 1 _)
      have hfrom : entriesFrom e.1 es = some left := by
        unfold entriesFrom
        rw [hsome, if_neg Bool.false_ne_true, hsplit]
        exact entriesAfter_append e.1 e.2 copied left hfresh
      rcases ih (copied ++ [e]) e.1 { stepped with stack := e.1 :: .table ref es :: below }
        { dst with stack := .table ref' (copied ++ [e]) :: rest }
        (by rw [hsplit, List.append_assoc]; rfl) rfl hfrom rfl with ⟨src', dst', hrest, hends⟩
      refine ⟨src', dst', ?_, hends⟩
      rw [List.length_cons]
      unfold copyEntries
      simp only [hnext, ok_bind, if_true]
      rw [hcopyKey]
      simp only [ok_bind]
      rw [hcopyValue]
      simp only [ok_bind, hset, hpop]
      exact hrest

/-- A table of scalars arrives whole, and is lost from the stack it came
    from. -/
theorem copy_table [DecidableEq N] (ref : Nat) (es : List (Value N × Value N))
    (hes : ScalarEntries es) (src dst : Lua N) (below : List (Value N))
    (hsrc : src.stack = .table ref es :: below) :
    ∃ src' dst', scriptCopyValue (es.length + 3) src dst (-1) = .ok (src', dst') ∧
      src'.stack = below ∧ dst'.stack = .table dst.fresh es :: dst.stack := by
  rcases copyEntries_scalars ref dst.fresh es hes below dst.stack es [] .nil (src.push .nil)
    (luaNewtable dst) rfl (by unfold Lua.push; rw [hsrc]) rfl rfl with
    ⟨src', dst', hloop, hstack, hdst⟩
  refine ⟨{ src' with stack := below }, dst', ?_, rfl, hdst⟩
  have hpop : src'.pop 1 = .ok { src' with stack := below } := by
    unfold Lua.pop
    rw [hstack]
    exact if_pos (Nat.le_add_left 1 _)
  unfold scriptCopyValue
  rw [at_top src _ below hsrc]
  simp only
  rw [show (-1 : Int) - 1 = -2 from rfl, hloop]
  simp only [ok_bind, hpop]

end Script

end Wrk
