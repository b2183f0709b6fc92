import Wrk.HttpParser.Types
import Mathlib.Data.List.TakeWhile

/-!
# Lua Environments

Values of Lua and the part of an environment that C code works on: the stack,
its newest element first, and the globals. An element is addressed by a
negative index, counted from the top. A table is a list of entries in the
order in which `lua_next` visits them, with a reference that tells it from
every other table.

The functions of the C interface check little. Where one would read below the
stack, step through something that is no table or continue from something
that is no key, the result is `misuse`.

## Main definitions

* `Value`, `Value.Same`: A value, and equality up to the references and the
  order of tables.
* `Lua`: An environment.
* `luaNext`, `luaSettable`, `luaTostring`: Functions of the interface.

## Theorems

* `bind_eq_ok`: A computation that succeeds goes through both of its parts.
* `pop_height`, `luaNext_height`: How the height of the stack changes.
-/

namespace Wrk

namespace Script

open HttpParser (Bytes bytes)

/-- The types whose values belong to one environment. -/
inductive Foreign where
  | function
  | userdata
  | lightuserdata
  | thread
  deriving DecidableEq, Repr

/-- A value, over a type of numbers. -/
inductive Value (N : Type) where
  | nil
  | boolean (b : Bool)
  | number (n : N)
  | string (s : Bytes)
  | table (ref : Nat) (entries : List (Value N × Value N))
  | foreign (kind : Foreign) (ref : Nat)

/-- What a function of the interface does not return from. -/
inductive Failure where
  | misuse
  | cannotTransfer (typename : String)
  | fuel
  deriving DecidableEq, Repr

/-- An environment, with a reference for the next table and the uses of
    `lua_next`: the table that is being copied, what was stepped through, and
    from where. -/
structure Lua (N : Type) where
  stack : List (Value N)
  globals : Bytes → Value N
  fresh : Nat
  steps : List (Value N × Value N × Value N)

variable {N : Type}

mutual

/-- Equality of contents. -/
inductive Value.Same : Value N → Value N → Prop
  | nil : Value.Same .nil .nil
  | boolean (b : Bool) : Value.Same (.boolean b) (.boolean b)
  | number (n : N) : Value.Same (.number n) (.number n)
  | string (s : Bytes) : Value.Same (.string s) (.string s)
  | table (ref ref' : Nat) (es order es' : List (Value N × Value N)) :
      SameEntries es order → order.Perm es' → Value.Same (.table ref es) (.table ref' es')

/-- The same for entries, one by one. -/
inductive SameEntries : List (Value N × Value N) → List (Value N × Value N) → Prop
  | nil : SameEntries [] []
  | cons (k k' v v' : Value N) (es es' : List (Value N × Value N)) :
      Value.Same k k' → Value.Same v v' → SameEntries es es' →
        SameEntries ((k, v) :: es) ((k', v') :: es')

end

/-- Equality of keys: tables and what belongs to an environment are compared by
    reference. -/
def rawEqual [DecidableEq N] : Value N → Value N → Bool
  | .nil, .nil => true
  | .boolean a, .boolean b => decide (a = b)
  | .number a, .number b => decide (a = b)
  | .string a, .string b => decide (a = b)
  | .table a _, .table b _ => decide (a = b)
  | .foreign k a, .foreign l b => decide (k = l) && decide (a = b)
  | _, _ => false

/-- A string as C reads it. -/
def cString (s : Bytes) : Bytes := s.takeWhile (fun b => decide (b ≠ 0))

/-- The element at an index. -/
def Lua.at_ (L : Lua N) (index : Int) : Option (Value N) := L.stack[(-index - 1).toNat]?

/-- Push an element. -/
def Lua.push (L : Lua N) (v : Value N) : Lua N := { L with stack := v :: L.stack }

/-- `lua_pop`. -/
def Lua.pop (L : Lua N) (n : Nat) : Except Failure (Lua N) :=
  if n ≤ L.stack.length then .ok { L with stack := L.stack.drop n } else .error .misuse

/-- `lua_pushstring`. -/
def luaPushstring (L : Lua N) (s : Bytes) : Lua N := L.push (.string (cString s))

/-- `lua_newtable`. -/
def luaNewtable (L : Lua N) : Lua N :=
  { L with stack := .table L.fresh [] :: L.stack, fresh := L.fresh + 1 }

/-- The entries that follow a key. -/
def entriesAfter [DecidableEq N] (key : Value N) :
    List (Value N × Value N) → Option (List (Value N × Value N))
  | [] => none
  | e :: es => if rawEqual key e.1 then some es else entriesAfter key es

/-- The entries still to be visited after a key. They all follow nil. -/
def entriesFrom [DecidableEq N] (key : Value N) (entries : List (Value N × Value N)) :
    Option (List (Value N × Value N)) :=
  if rawEqual key .nil then some entries else entriesAfter key entries

/-- `lua_next`: a key is popped, and the entry that follows it in the table is
    pushed, if there is one. -/
def luaNext [DecidableEq N] (copied : Value N) (L : Lua N) (index : Int) :
    Except Failure (Bool × Lua N) :=
  match L.at_ index, L.stack with
  | some (.table ref entries), key :: rest =>
      let L := { L with stack := rest, steps := (copied, .table ref entries, key) :: L.steps }
      match entriesFrom key entries with
      | none => .error .misuse
      | some [] => .ok (false, L)
      | some ((k, v) :: _) => .ok (true, (L.push k).push v)
  | _, _ => .error .misuse

/-- Set a field of a table. -/
def setEntry [DecidableEq N] (k v : Value N) :
    List (Value N × Value N) → List (Value N × Value N)
  | [] => if rawEqual v .nil then [] else [(k, v)]
  | e :: es =>
      if rawEqual k e.1 then if rawEqual v .nil then es else (e.1, v) :: es
      else e :: setEntry k v es

/-- `lua_settable` for the table below a key and a value. -/
def luaSettable [DecidableEq N] (L : Lua N) : Except Failure (Lua N) :=
  match L.stack with
  | v :: k :: .table ref entries :: rest =>
      if rawEqual k .nil then .error .misuse
      else .ok { L with stack := .table ref (setEntry k v entries) :: rest }
  | _ => .error .misuse

/-- `lua_tostring`: a number on the stack becomes a string. -/
def luaTostring [ToString N] (L : Lua N) (index : Int) : Except Failure (Bytes × Lua N) :=
  match L.at_ index with
  | some (.string s) => .ok (s, L)
  | some (.number n) =>
      let s := bytes (toString n)
      .ok (s, { L with stack := L.stack.set (-index - 1).toNat (.string s) })
  | _ => .error .misuse

/-- `lua_getglobal`. -/
def luaGetglobal (L : Lua N) (name : Bytes) : Lua N := L.push (L.globals (cString name))

/-- `lua_setglobal`. -/
def luaSetglobal (L : Lua N) (name : Bytes) : Except Failure (Lua N) :=
  match L.stack with
  | [] => .error .misuse
  | v :: rest =>
      .ok { L with stack := rest, globals := Function.update L.globals (cString name) v }

/-- A computation that succeeds goes through both of its parts. -/
theorem bind_eq_ok {α β : Type} (x : Except Failure α) (f : α → Except Failure β) (b : β)
    (h : (x >>= f) = .ok b) : ∃ a, x = .ok a ∧ f a = .ok b := by
  cases x with
  | error e => cases h
  | ok a => exact ⟨a, rfl, h⟩

theorem ok_bind {α β : Type} (a : α) (f : α → Except Failure β) :
    ((.ok a : Except Failure α) >>= f) = f a := rfl

theorem pop_push (L : Lua N) (v : Value N) : (L.push v).pop 1 = .ok L :=
  if_pos (Nat.le_add_left 1 L.stack.length)

/-! ### The height of the stack -/

theorem pop_height (L L' : Lua N) (n : Nat) (h : L.pop n = .ok L') :
    L'.stack.length + n = L.stack.length := by
  unfold Lua.pop at h
  split_ifs at h with hn
  cases h
  simp only [List.length_drop]
  omega

theorem luaNext_height [DecidableEq N] (copied : Value N) (L : Lua N) (index : Int)
    (r : Bool × Lua N) (h : luaNext copied L index = .ok r) :
    r.2.stack.length + 1 = L.stack.length + if r.1 then 2 else 0 := by
  unfold luaNext at h
  split at h
  · next ref entries key rest _ hstack =>
      dsimp only at h
      split at h
      · cases h
      · cases h
        simp only [hstack, List.length_cons, Bool.false_eq_true, if_false]
      · cases h
        simp only [Lua.push, hstack, List.length_cons, if_true]
  · cases h

end Script

end Wrk
