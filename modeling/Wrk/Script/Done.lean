import Wrk.Connection.World
import Wrk.Core.Process
import Wrk.Core.Word
import Wrk.Http.Response
import Wrk.Script.Target

/-!
# The Summary that `done` Receives

The use of the main Lua state, from its creation to the call of `done`.
`script_summary`, `script_errors` and `script_done` find the summary in slot 1
of the stack. It is there because everything before them pops what it pushes.

The script itself is the exception. `luaL_dofile` leaves the values that its
chunk returns, or the message if it fails, and nobody pops them.

The code of the user, and what the program brings along in Lua, is a parameter:
a global, a field of one of its tables or the result of a call is whatever it
answers, and an error in it ends the process where C code does not catch it.
It does not reach into the stack of the C code that calls it. Of tables that
C code makes, the fields are known.

## Main definitions

* `Value`, `Lua`: The state, with a log of the uses of slot 1.
* `User`: The answers of Lua code.
* `Load`: How the script can load.
* `scriptCreate`, `scriptResolve`, `scriptInit`: What comes before.
* `scriptSummary`, `scriptErrors`, `scriptDone`: The users of slot 1.
* `main`: The part of `main` that uses the state.
* `Delivered`: Slot 1 is the summary, and `done` receives it.

## Theorems

* `untilSummary_above`: What the stack is when `script_summary` is called.
* `finish_delivers`: On an empty stack the summary is delivered.
* `finish_spoils`: On another one it is not.
* `done_receives_iff`: When `done` receives the summary.
* `done_receives_leftover`: A script that returns a table.
-/

namespace Wrk

namespace Done

open HttpParser (Bytes bytes)

open HttpParser.Url (Parts Span scriptParseUrl)

open Script (cString scriptPath)

open Http (COLON SP)

open Process

/-- A value. What comes from Lua code is not looked into. -/
inductive Value where
  | nil
  | string (s : Bytes)
  | integer (n : Int)
  | cfunction (name : String)
  | userdata (metatable : Option String)
  | metatable (name : String)
  | table (ref : Nat)
  | user (n : Nat)
  deriving DecidableEq, Repr

/-- The fields of a table. -/
abbrev Table : Type := String → Value

/-- A call of `done`: the arguments, and the tables at that time. -/
structure DoneCall where
  args : List Value
  tables : Nat → Table

/-- The state: the stack, its newest element first, the tables that C code has
    made, the reference for the next one, and how much Lua code has been asked.
    The uses of slot 1 and the calls of `done` are for the record. -/
structure Lua where
  stack : List Value
  tables : Nat → Table
  fresh : Nat
  asked : Nat
  uses : List Value
  calls : List DoneCall

/-- What runs Lua code. What happens in the state of a thread, and whether it
    ends the process, counts as one. -/
inductive Ask where
  | bundled
  | getGlobal (name : String)
  | getField (target : Value) (name : String)
  | setField (target : Value) (name : String) (v : Value)
  | setTable (target key v : Value)
  | call (f : Value) (args : List Value)
  | environment (thread : Nat)
  deriving DecidableEq, Repr

/-- The answers of Lua code, none if the process ends, and what is known of its
    values. -/
structure User where
  answer : Nat → Ask → Option Nat
  isFunction : Nat → Bool
  objlen : Nat → Nat

/-- How the script loads: there is none, its chunk returns values, there is an
    error, or it ends the process. -/
inductive Load where
  | noFile
  | returned (values : List Nat)
  | failed (message : Nat)
  | ended
  deriving DecidableEq, Repr

/-- The element at an index, from the bottom or from the top. -/
def Lua.at_ (s : Lua) (index : Int) : Value :=
  (if 0 < index then s.stack.reverse[(index - 1).toNat]?
    else s.stack[(-index - 1).toNat]?).getD .nil

/-! ### The interface -/

def ask (user : User) (q : Ask) : Process Lua Nat :=
  ⟨fun s => (user.answer s.asked q, { s with asked := s.asked + 1 })⟩

/-- An access to an index, for the record. -/
def touch (index : Int) : Process Lua Unit :=
  update fun s => if index = 1 then { s with uses := s.uses ++ [s.at_ 1] } else s

def push (v : Value) : Process Lua Unit := update fun s => { s with stack := v :: s.stack }

/-- `lua_pop`. -/
def pop (n : Nat) : Process Lua Unit := update fun s => { s with stack := s.stack.drop n }

/-- `lua_pushvalue`. -/
def luaPushvalue (index : Int) : Process Lua Unit := do
  touch index
  let s ← state
  push (s.at_ index)

/-- `lua_newtable`. -/
def luaNewtable : Process Lua Unit :=
  update fun s =>
    { s with
      stack := .table s.fresh :: s.stack
      tables := Function.update s.tables s.fresh fun _ => .nil
      fresh := s.fresh + 1 }

/-- `lua_getglobal`. -/
def luaGetglobal (user : User) (name : String) : Process Lua Unit := do
  let n ← ask user (.getGlobal name)
  push (.user n)

/-- The field of a value. -/
def readField (user : User) (target : Value) (name : String) (s : Lua) : Process Lua Value :=
  match target with
  | .table t => return s.tables t name
  | target => do
      let n ← ask user (.getField target name)
      return .user n

/-- `lua_getfield`. -/
def luaGetfield (user : User) (index : Int) (name : String) : Process Lua Unit := do
  touch index
  let s ← state
  let v ← readField user (s.at_ index) name s
  push v

/-- A field of a value is set. -/
def storeField (user : User) (target : Value) (name : String) (v : Value) : Process Lua Unit :=
  match target with
  | .table t =>
      update fun s =>
        { s with tables := Function.update s.tables t (Function.update (s.tables t) name v) }
  | target => do
      let _ ← ask user (.setField target name v)

/-- `lua_setfield`. -/
def luaSetfield (user : User) (index : Int) (name : String) : Process Lua Unit := do
  touch index
  let s ← state
  storeField user (s.at_ index) name (s.at_ (-1))
  pop 1

/-- `lua_settable`, of which the only target is `wrk.headers`. -/
def luaSettable (user : User) (index : Int) : Process Lua Unit := do
  touch index
  let s ← state
  let _ ← ask user (.setTable (s.at_ index) (s.at_ (-2)) (s.at_ (-1)))
  pop 2

/-- `lua_call` without results. -/
def luaCall (user : User) (nargs : Nat) : Process Lua Unit := do
  let s ← state
  let _ ← ask user (.call (s.at_ (-(nargs + 1))) (s.stack.take nargs).reverse)
  pop (nargs + 1)

/-- `lua_objlen` of the top. -/
def luaObjlen (user : User) : Process Lua Nat := do
  let s ← state
  match s.at_ (-1) with
  | .user n => return user.objlen n
  | _ => return 0

/-- `lua_isfunction` of the top. -/
def luaIsfunction (user : User) : Process Lua Bool := do
  let s ← state
  match s.at_ (-1) with
  | .user n => return user.isFunction n
  | .cfunction _ => return true
  | _ => return false

/-- The top is made the metatable of the element below. -/
def withMetatable : List Value → List Value
  | .metatable name :: .userdata _ :: rest => .userdata (some name) :: rest
  | stack => stack.drop 1

/-- `lua_setmetatable` of the element below the top. -/
def luaSetmetatable : Process Lua Unit :=
  update fun s => { s with stack := withMetatable s.stack }

/-- `luaL_newmetatable`, and `luaL_register` of its functions. -/
def luaLNewmetatable (name : String) : Process Lua Unit := push (.metatable name)

/-- A pointer with a metatable. -/
def pushUserdata (name : String) : Process Lua Unit := do
  push (.userdata none)
  push (.metatable name)
  luaSetmetatable

/-- What `luaL_dofile` leaves on the stack, if it returns. -/
def Load.leaves : Load → Option (List Value)
  | .noFile => some []
  | .returned values => some (values.reverse.map .user)
  | .failed message => some [.user message]
  | .ended => none

/-- `luaL_dofile`, if there is a file. -/
def luaLDofile (file : Load) : Process Lua Unit :=
  match file.leaves with
  | some values => update fun s => { s with stack := values ++ s.stack }
  | none => exit

/-! ### The functions -/

/-- A `table_field`, with its value unless that is NULL. -/
structure TableField where
  name : String
  value : Option Value

/-- `set_fields`. -/
def setFields (user : User) (index : Int) (fields : List TableField) : Process Lua Unit :=
  each (fun f => do
    push (f.value.getD .nil)
    luaSetfield user index f.name) fields

/-- `push_url_part`. -/
def pushUrlPart (url : Bytes) (part : Option Span) : Process Lua Unit :=
  match part with
  | some span => push (.string ((url.drop span.off).take span.len))
  | none => push .nil

/-- One turn of the loop over the headers. -/
def addHeader (user : User) (h : Bytes) : Process Lua Unit :=
  match (cString h).dropWhile (· ≠ COLON) with
  | _ :: b :: rest =>
      if b = SP then do
        push (.string ((cString h).takeWhile (· ≠ COLON)))
        push (.string rest)
        luaSettable user 5
      else pure ()
  | _ => pure ()

/-- The fields of `wrk` that have the same names as functions of the program,
    and the path. -/
def wrkFields (path : Bytes) : List TableField :=
  [⟨"lookup", some (.cfunction "script_wrk_lookup")⟩,
    ⟨"connect", some (.cfunction "script_wrk_connect")⟩,
    ⟨"path", some (.string path)⟩]

/-- `script_create`. The URL is one that has been accepted. -/
def scriptCreate (user : User) (file : Load) (url : Bytes) (headers : List Bytes) :
    Process Lua Unit := do
  let _ ← ask user .bundled
  luaLNewmetatable "wrk.addr"
  luaLNewmetatable "wrk.stats"
  luaLNewmetatable "wrk.thread"
  let parts := (scriptParseUrl url).getD fun _ => none
  luaGetglobal user "wrk"
  pushUrlPart url (parts .schema)
  luaSetfield user 4 "scheme"
  pushUrlPart url (parts .host)
  luaSetfield user 4 "host"
  pushUrlPart url (parts .port)
  luaSetfield user 4 "port"
  setFields user 4 (wrkFields (scriptPath url parts))
  luaGetfield user 4 "headers"
  each (addHeader user) headers
  pop 5
  luaLDofile file

/-- `script_resolve`. -/
def scriptResolve (user : User) (host service : Bytes) : Process Lua Bool := do
  luaGetglobal user "wrk"
  luaGetfield user (-1) "resolve"
  push (.string (cString host))
  push (.string (cString service))
  luaCall user 2
  luaGetfield user (-1) "addrs"
  let count ← luaObjlen user
  pop 2
  return decide (count > 0)

/-- `script_init`, for the thread of a number. -/
def scriptInit (user : User) (thread : Nat) : Process Lua Unit := do
  let _ ← ask user (.environment thread)
  luaGetglobal user "wrk"
  luaGetfield user (-1) "setup"
  pushUserdata "wrk.thread"
  luaCall user 1
  pop 1
  let _ ← ask user (.environment thread)

/-- `script_is_function`. -/
def scriptIsFunction (user : User) (name : String) : Process Lua Bool := do
  luaGetglobal user name
  let isFunction ← luaIsfunction user
  pop 1
  return isFunction

/-- `script_has_done`. -/
def scriptHasDone (user : User) : Process Lua Bool := scriptIsFunction user "done"

def summaryFields (duration requests bytes : Nat) : List TableField :=
  [⟨"duration", some (.integer (toInt64 duration))⟩,
    ⟨"requests", some (.integer (toInt64 requests))⟩,
    ⟨"bytes", some (.integer (toInt64 bytes))⟩]

/-- `script_summary`. -/
def scriptSummary (user : User) (duration requests bytes : Nat) : Process Lua Unit := do
  luaNewtable
  setFields user 1 (summaryFields duration requests bytes)

def errorFields (errors : Errors) : List TableField :=
  [⟨"connect", some (.integer (toInt64 errors.connect))⟩,
    ⟨"read", some (.integer (toInt64 errors.read))⟩,
    ⟨"write", some (.integer (toInt64 errors.write))⟩,
    ⟨"status", some (.integer (toInt64 errors.status))⟩,
    ⟨"timeout", some (.integer (toInt64 errors.timeout))⟩]

/-- `script_errors`. -/
def scriptErrors (user : User) (errors : Errors) : Process Lua Unit := do
  luaNewtable
  setFields user 2 (errorFields errors)
  luaSetfield user 1 "errors"

/-- What a call passes, for the record. -/
def recordCall (nargs : Nat) : Process Lua Unit :=
  update fun s =>
    { s with calls := s.calls ++ [⟨(s.stack.take nargs).reverse, s.tables⟩] }

/-- `script_done`. -/
def scriptDone (user : User) : Process Lua Unit := do
  luaGetglobal user "done"
  luaPushvalue 1
  pushUserdata "wrk.stats"
  pushUserdata "wrk.stats"
  recordCall 3
  luaCall user 3
  pop 1

/-- The arguments of a run, how its script loads, and what it counts. -/
structure Run where
  file : Load
  url : Bytes
  headers : List Bytes
  host : Bytes
  service : Bytes
  threads : Nat
  runtimeUs : Nat
  complete : Nat
  bytes : Nat
  errors : Errors

/-- One turn of the loop over the threads. The state of the thread is made
    first, and the thread is started last. -/
def startThread (user : User) (thread : Nat) : Process Lua Unit := do
  let _ ← ask user (.environment thread)
  scriptInit user thread
  let _ ← ask user (.environment thread)

/-- `main` after the state has been made, until it has looked for `done`. -/
def prepare (user : User) (run : Run) : Process Lua Bool := do
  let resolved ← scriptResolve user run.host run.service
  if resolved then
    each (startThread user) (List.range run.threads)
    scriptHasDone user
  else exit

/-- `main` until it calls `script_summary`, or finds that there is no `done`. -/
def untilSummary (user : User) (run : Run) : Process Lua Bool := do
  scriptCreate user run.file run.url run.headers
  prepare user run

/-- The calls for `done`. -/
def finish (user : User) (run : Run) : Process Lua Unit := do
  scriptSummary user run.runtimeUs run.complete run.bytes
  scriptErrors user run.errors
  scriptDone user

/-- What `main` does with the state. -/
def main (user : User) (run : Run) : Process Lua Unit := do
  let hasDone ← untilSummary user run
  if hasDone then finish user run

/-- The state that `luaL_newstate` makes. -/
def start : Lua where
  stack := []
  tables := fun _ _ => .nil
  fresh := 0
  asked := 0
  uses := []
  calls := []

/-- What a call of `done` should pass first: the table with a reference, which
    has the numbers of the run and another table with its errors. -/
structure Passed (run : Run) (ref : Nat) (c : DoneCall) : Prop where
  first : c.args.head? = some (.table ref)
  duration : c.tables ref "duration" = .integer (toInt64 run.runtimeUs)
  requests : c.tables ref "requests" = .integer (toInt64 run.complete)
  bytes : c.tables ref "bytes" = .integer (toInt64 run.bytes)
  errors : ∃ e, c.tables ref "errors" = .table e ∧
    c.tables e "connect" = .integer (toInt64 run.errors.connect) ∧
    c.tables e "read" = .integer (toInt64 run.errors.read) ∧
    c.tables e "write" = .integer (toInt64 run.errors.write) ∧
    c.tables e "status" = .integer (toInt64 run.errors.status) ∧
    c.tables e "timeout" = .integer (toInt64 run.errors.timeout)

/-- Slot 1 is the table with a reference whenever it is used, and `done` is
    called with this table. -/
structure Delivered (run : Run) (ref : Nat) (s : Lua) : Prop where
  slot : ∀ v ∈ s.uses, v = .table ref
  passed : ∀ c ∈ s.calls, Passed run ref c

/-! ### Before the summary -/

/-- Slot 1 has not been used, and `done` not called. -/
def Untouched (s : Lua) : Prop := s.uses = [] ∧ s.calls = []

/-- So many elements are on the stack above others. -/
def Above (n : Nat) (base : List Value) (s : Lua) : Prop :=
  (∃ top, top.length = n ∧ s.stack = top ++ base) ∧ Untouched s

/-- The element is still there, and the metatable is not. -/
theorem withMetatable_cons (v w : Value) (rest : List Value) :
    ∃ w', withMetatable (v :: w :: rest) = w' :: rest := by
  unfold withMetatable
  split
  · rename_i name _ rest' heq
    rcases List.cons.inj heq with ⟨_, heq⟩
    rcases List.cons.inj heq with ⟨_, heq⟩
    exact ⟨.userdata (some name), by rw [heq]⟩
  · exact ⟨w, rfl⟩

section Above

variable (user : User) (n : Nat) (base : List Value)

/-- Something is pushed, and nothing else is done. -/
theorem grow_above (f : Lua → Lua) {E : Lua → Prop}
    (hstack : ∀ s, ∃ v, (f s).stack = v :: s.stack)
    (hkept : ∀ s, (f s).uses = s.uses ∧ (f s).calls = s.calls) :
    Ensures (Above n base) (update f) (fun _ => Above (n + 1) base) E := by
  refine ensures_update _ _ _ _ fun s hs => ?_
  rcases hs with ⟨⟨top, hlen, hbelow⟩, huses, hcalls⟩
  rcases hstack s with ⟨v, hv⟩
  refine ⟨⟨v :: top, ?_, ?_⟩, (hkept s).1.trans huses, (hkept s).2.trans hcalls⟩
  · rw [List.length_cons, hlen]
  · rw [hv, hbelow, List.cons_append]

theorem push_above (v : Value) {E : Lua → Prop} :
    Ensures (Above n base) (push v) (fun _ => Above (n + 1) base) E :=
  grow_above n base _ (fun _ => ⟨v, rfl⟩) fun _ => ⟨rfl, rfl⟩

theorem newtable_above {E : Lua → Prop} :
    Ensures (Above n base) luaNewtable (fun _ => Above (n + 1) base) E :=
  grow_above n base _ (fun s => ⟨.table s.fresh, rfl⟩) fun _ => ⟨rfl, rfl⟩

theorem pop_above (k : Nat) :
    Ensures (Above (n + k) base) (pop k) (fun _ => Above n base) Untouched := by
  refine ensures_update _ _ _ _ fun s hs => ?_
  rcases hs with ⟨⟨top, hlen, hstack⟩, huntouched⟩
  refine ⟨⟨top.drop k, ?_, ?_⟩, huntouched⟩
  · rw [List.length_drop, hlen, Nat.add_sub_cancel]
  · rw [hstack, List.drop_append_of_le_length (by omega)]

theorem ask_above (q : Ask) :
    Ensures (Above n base) (ask user q) (fun _ => Above n base) Untouched :=
  fun _ hs => ⟨fun _ _ => hs, fun _ => hs.2⟩

theorem touch_above (index : Int) (h : index ≠ 1) :
    Ensures (Above n base) (touch index) (fun _ => Above n base) Untouched := by
  refine ensures_update _ _ _ _ fun s hs => ?_
  rw [if_neg h]
  exact hs

/-- What is read of the state plays no role. -/
theorem state_above {α : Type} (f : Lua → Process Lua α) (Q : α → Lua → Prop)
    (h : ∀ s, Ensures (Above n base) (f s) Q Untouched) :
    Ensures (Above n base) (state >>= f) Q Untouched :=
  ensures_read fun s _ => ensures_mono (h s) (fun _ hs => hs.1) (fun _ _ hq => hq) fun _ he => he

theorem getglobal_above (name : String) :
    Ensures (Above n base) (luaGetglobal user name) (fun _ => Above (n + 1) base) Untouched :=
  ensures_bind (ask_above user n base _) fun _ => push_above n base _

theorem readField_above (target : Value) (name : String) (s : Lua) :
    Ensures (Above n base) (readField user target name s) (fun _ => Above n base)
      Untouched := by
  unfold readField
  split
  · exact ensures_pure _ _ _
  · exact ensures_bind (ask_above user n base _) fun _ => ensures_pure _ _ _

theorem getfield_above (index : Int) (h : index ≠ 1) (name : String) :
    Ensures (Above n base) (luaGetfield user index name) (fun _ => Above (n + 1) base)
      Untouched :=
  ensures_bind (touch_above n base index h) fun _ =>
    state_above n base _ _ fun s =>
      ensures_bind (readField_above user n base _ name s) fun _ => push_above n base _

theorem storeField_above (target : Value) (name : String) (v : Value) :
    Ensures (Above n base) (storeField user target name v) (fun _ => Above n base)
      Untouched := by
  unfold storeField
  split
  · exact ensures_update _ _ _ _ fun s hs => hs
  · exact ensures_bind (ask_above user n base _) fun _ => ensures_pure _ _ _

theorem setfield_above (index : Int) (h : index ≠ 1) (name : String) :
    Ensures (Above (n + 1) base) (luaSetfield user index name) (fun _ => Above n base)
      Untouched :=
  ensures_bind (touch_above (n + 1) base index h) fun _ =>
    state_above (n + 1) base _ _ fun _ =>
      ensures_bind (storeField_above user (n + 1) base _ name _) fun _ => pop_above n base 1

theorem settable_above (index : Int) (h : index ≠ 1) :
    Ensures (Above (n + 2) base) (luaSettable user index) (fun _ => Above n base) Untouched :=
  ensures_bind (touch_above (n + 2) base index h) fun _ =>
    state_above (n + 2) base _ _ fun _ =>
      ensures_bind (ask_above user (n + 2) base _) fun _ => pop_above n base 2

theorem call_above (nargs : Nat) :
    Ensures (Above (n + (nargs + 1)) base) (luaCall user nargs) (fun _ => Above n base)
      Untouched :=
  state_above (n + (nargs + 1)) base _ _ fun _ =>
    ensures_bind (ask_above user (n + (nargs + 1)) base _) fun _ => pop_above n base (nargs + 1)

theorem objlen_above :
    Ensures (Above n base) (luaObjlen user) (fun _ => Above n base) Untouched := by
  refine state_above n base _ _ fun s => ?_
  split
  · exact ensures_pure _ _ _
  · exact ensures_pure _ _ _

theorem isfunction_above :
    Ensures (Above n base) (luaIsfunction user) (fun _ => Above n base) Untouched := by
  refine state_above n base _ _ fun s => ?_
  split
  · exact ensures_pure _ _ _
  · exact ensures_pure _ _ _
  · exact ensures_pure _ _ _

theorem setmetatable_above :
    Ensures (Above (n + 2) base) luaSetmetatable (fun _ => Above (n + 1) base) Untouched := by
  refine ensures_update _ _ _ _ fun s hs => ?_
  rcases hs with ⟨⟨top, hlen, hstack⟩, huntouched⟩
  match top, hlen with
  | v :: w :: rest, hlen =>
      rcases withMetatable_cons v w (rest ++ base) with ⟨w', hw⟩
      refine ⟨⟨w' :: rest, ?_, ?_⟩, huntouched⟩
      · rw [List.length_cons, List.length_cons] at hlen
        rw [List.length_cons]
        omega
      · rw [hstack, List.cons_append, List.cons_append, hw, List.cons_append]

theorem userdata_above (name : String) :
    Ensures (Above n base) (pushUserdata name) (fun _ => Above (n + 1) base) Untouched :=
  ensures_bind (push_above n base _) fun _ =>
    ensures_bind (push_above (n + 1) base _) fun _ => setmetatable_above n base

theorem setFields_above (index : Int) (h : index ≠ 1) (fields : List TableField) :
    Ensures (Above n base) (setFields user index fields) (fun _ => Above n base) Untouched := by
  unfold setFields
  refine ensures_each (fun f => ?_) fields
  exact ensures_bind (push_above n base _) fun _ => setfield_above user n base index h f.name

theorem urlPart_above (url : Bytes) (part : Option Span) :
    Ensures (Above n base) (pushUrlPart url part) (fun _ => Above (n + 1) base) Untouched := by
  unfold pushUrlPart
  split
  · exact push_above n base _
  · exact push_above n base _

theorem addHeader_above (h : Bytes) :
    Ensures (Above n base) (addHeader user h) (fun _ => Above n base) Untouched := by
  unfold addHeader
  split
  · split
    · exact ensures_bind (push_above n base _) fun _ =>
        ensures_bind (push_above (n + 1) base _) fun _ =>
          settable_above user n base 5 (by decide)
    · exact ensures_pure _ _ _
  · exact ensures_pure _ _ _

/-- A loaded script leaves its values on an empty stack. -/
theorem dofile_above (file : Load) :
    Ensures (Above 0 []) (luaLDofile file)
      (fun _ s => ∃ base, file.leaves = some base ∧ Above 0 base s) Untouched := by
  unfold luaLDofile
  cases hleaves : file.leaves with
  | none =>
      exact ensures_mono (ensures_exit _ _) (fun _ hs => hs.2) (fun _ _ hq => hq) fun _ he => he
  | some base =>
      refine ensures_update _ _ _ _ fun s hs => ?_
      rcases hs with ⟨⟨top, hlen, hstack⟩, huntouched⟩
      refine ⟨base, rfl, ⟨[], rfl, ?_⟩, huntouched⟩
      rw [hstack, List.eq_nil_of_length_eq_zero hlen]
      exact List.append_nil base

/-- `script_create` pops its five elements, and the script is loaded last. -/
theorem scriptCreate_above (file : Load) (url : Bytes) (headers : List Bytes) :
    Ensures (Above 0 []) (scriptCreate user file url headers)
      (fun _ s => ∃ base, file.leaves = some base ∧ Above 0 base s) Untouched := by
  unfold scriptCreate
  refine ensures_bind (ask_above user 0 [] _) fun _ => ?_
  -- Three metatables, and `wrk` in slot 4.
  refine ensures_bind (push_above 0 [] _) fun _ => ?_
  refine ensures_bind (push_above 1 [] _) fun _ => ?_
  refine ensures_bind (push_above 2 [] _) fun _ => ?_
  refine ensures_bind (getglobal_above user 3 [] _) fun _ => ?_
  refine ensures_bind (urlPart_above 4 [] url _) fun _ => ?_
  refine ensures_bind (setfield_above user 4 [] 4 (by decide) _) fun _ => ?_
  refine ensures_bind (urlPart_above 4 [] url _) fun _ => ?_
  refine ensures_bind (setfield_above user 4 [] 4 (by decide) _) fun _ => ?_
  refine ensures_bind (urlPart_above 4 [] url _) fun _ => ?_
  refine ensures_bind (setfield_above user 4 [] 4 (by decide) _) fun _ => ?_
  refine ensures_bind (setFields_above user 4 [] 4 (by decide) _) fun _ => ?_
  -- The headers are in slot 5.
  refine ensures_bind (getfield_above user 4 [] 4 (by decide) _) fun _ => ?_
  refine ensures_bind (ensures_each (addHeader_above user 5 []) headers) fun _ => ?_
  exact ensures_bind (pop_above 0 [] 5) fun _ => dofile_above file

theorem scriptResolve_above (host service : Bytes) :
    Ensures (Above 0 base) (scriptResolve user host service) (fun _ => Above 0 base)
      Untouched := by
  unfold scriptResolve
  refine ensures_bind (getglobal_above user 0 base _) fun _ => ?_
  refine ensures_bind (getfield_above user 1 base (-1) (by decide) _) fun _ => ?_
  refine ensures_bind (push_above 2 base _) fun _ => ?_
  refine ensures_bind (push_above 3 base _) fun _ => ?_
  -- The call takes the function and both arguments.
  refine ensures_bind (call_above user 1 base 2) fun _ => ?_
  refine ensures_bind (getfield_above user 1 base (-1) (by decide) _) fun _ => ?_
  refine ensures_bind (objlen_above user 2 base) fun _ => ?_
  exact ensures_bind (pop_above 0 base 2) fun _ => ensures_pure _ _ _

theorem scriptInit_above (thread : Nat) :
    Ensures (Above 0 base) (scriptInit user thread) (fun _ => Above 0 base) Untouched := by
  unfold scriptInit
  refine ensures_bind (ask_above user 0 base _) fun _ => ?_
  refine ensures_bind (getglobal_above user 0 base _) fun _ => ?_
  refine ensures_bind (getfield_above user 1 base (-1) (by decide) _) fun _ => ?_
  refine ensures_bind (userdata_above 2 base _) fun _ => ?_
  refine ensures_bind (call_above user 1 base 1) fun _ => ?_
  refine ensures_bind (pop_above 0 base 1) fun _ => ?_
  exact ensures_bind (ask_above user 0 base _) fun _ => ensures_pure _ _ _

theorem startThread_above (thread : Nat) :
    Ensures (Above 0 base) (startThread user thread) (fun _ => Above 0 base) Untouched := by
  unfold startThread
  refine ensures_bind (ask_above user 0 base _) fun _ => ?_
  refine ensures_bind (scriptInit_above user base thread) fun _ => ?_
  exact ensures_bind (ask_above user 0 base _) fun _ => ensures_pure _ _ _

theorem scriptHasDone_above :
    Ensures (Above 0 base) (scriptHasDone user) (fun _ => Above 0 base) Untouched := by
  unfold scriptHasDone scriptIsFunction
  refine ensures_bind (getglobal_above user 0 base _) fun _ => ?_
  refine ensures_bind (isfunction_above user 1 base) fun _ => ?_
  exact ensures_bind (pop_above 0 base 1) fun _ => ensures_pure _ _ _

theorem prepare_above (run : Run) :
    Ensures (Above 0 base) (prepare user run) (fun _ => Above 0 base) Untouched := by
  unfold prepare
  refine ensures_bind (scriptResolve_above user base run.host run.service) fun resolved => ?_
  split
  · refine ensures_bind (ensures_each (startThread_above user base) _) fun _ => ?_
    exact scriptHasDone_above user base
  · exact ensures_mono (ensures_exit (Above 0 base) _) (fun _ hs => hs) (fun _ _ hq => hq)
      fun _ hs => hs.2

/-- When `script_summary` is called, what the script has left is all there is
    on the stack. -/
theorem untilSummary_above (run : Run) :
    Ensures (Above 0 []) (untilSummary user run)
      (fun _ s => ∃ base, run.file.leaves = some base ∧ Above 0 base s) Untouched := by
  unfold untilSummary
  refine ensures_bind (scriptCreate_above user _ _ _) fun _ => ensures_exists fun base => ?_
  intro s hs
  -- What the script has left stays where it is.
  have hprepare : Ensures (Above 0 base) (prepare user run)
      (fun _ s => ∃ base, run.file.leaves = some base ∧ Above 0 base s) Untouched :=
    ensures_mono (prepare_above user base run) (fun _ h => h)
      (fun _ _ h => ⟨base, hs.1, h⟩) fun _ h => h
  exact hprepare s hs.2

end Above

/-! ### On a stack that is not empty -/

/-- Slot 1 has been used when a value of Lua code was there. -/
def Spoiled (s : Lua) : Prop := ∃ n, .user n ∈ s.uses

section Spoiled

variable (user : User)

/-- What does not touch the record of uses keeps it. -/
theorem update_spoiled (f : Lua → Lua) (h : ∀ s, (f s).uses = s.uses) :
    Maintains Spoiled (update f) := by
  intro s hs
  rcases hs with ⟨n, hn⟩
  exact ⟨n, (h s).symm ▸ hn⟩

theorem push_spoiled (v : Value) : Maintains Spoiled (push v) := update_spoiled _ fun _ => rfl

theorem ask_spoiled (q : Ask) : Maintains Spoiled (ask user q) := fun _ hs => hs

theorem touch_spoiled (index : Int) : Maintains Spoiled (touch index) := by
  intro s hs
  rcases hs with ⟨n, hn⟩
  refine ⟨n, ?_⟩
  change .user n ∈ (if index = 1 then _ else s : Lua).uses
  split
  · exact List.mem_append_left _ hn
  · exact hn

theorem state_spoiled {α : Type} (f : Lua → Process Lua α) (h : ∀ s, Maintains Spoiled (f s)) :
    Maintains Spoiled (state >>= f) :=
  maintains_bind (fun _ hs => hs) h

theorem storeField_spoiled (target : Value) (name : String) (v : Value) :
    Maintains Spoiled (storeField user target name v) := by
  unfold storeField
  split
  · exact update_spoiled _ fun _ => rfl
  · exact maintains_bind (ask_spoiled user _) fun _ => maintains_pure _ _

theorem setfield_spoiled (index : Int) (name : String) :
    Maintains Spoiled (luaSetfield user index name) := by
  refine maintains_bind (touch_spoiled index) fun _ => state_spoiled _ fun s => ?_
  exact maintains_bind (storeField_spoiled user _ name _) fun _ => update_spoiled _ fun _ => rfl

theorem setFields_spoiled (index : Int) (fields : List TableField) :
    Maintains Spoiled (setFields user index fields) := by
  unfold setFields
  refine maintains_each (fun f => ?_) fields
  exact maintains_bind (push_spoiled _) fun _ => setfield_spoiled user index f.name

theorem scriptErrors_spoiled (errors : Errors) : Maintains Spoiled (scriptErrors user errors) := by
  unfold scriptErrors
  refine maintains_bind (update_spoiled _ fun _ => rfl) fun _ => ?_
  exact maintains_bind (setFields_spoiled user 2 _) fun _ => setfield_spoiled user 1 "errors"

theorem userdata_spoiled (name : String) : Maintains Spoiled (pushUserdata name) := by
  refine maintains_bind (push_spoiled _) fun _ => maintains_bind (push_spoiled _) fun _ => ?_
  exact update_spoiled _ fun _ => rfl

theorem scriptDone_spoiled : Maintains Spoiled (scriptDone user) := by
  unfold scriptDone
  refine maintains_bind (maintains_bind (ask_spoiled user _) fun _ => push_spoiled _) fun _ => ?_
  refine maintains_bind (maintains_bind (touch_spoiled 1) fun _ => state_spoiled _ fun _ =>
    push_spoiled _) fun _ => ?_
  refine maintains_bind (userdata_spoiled _) fun _ => ?_
  refine maintains_bind (userdata_spoiled _) fun _ => ?_
  refine maintains_bind (update_spoiled _ fun _ => rfl) fun _ => ?_
  refine maintains_bind (state_spoiled _ fun _ => ?_) fun _ => update_spoiled _ fun _ => rfl
  exact maintains_bind (ask_spoiled user _) fun _ => update_spoiled _ fun _ => rfl

/-- The bottom element, under whatever is above. -/
theorem at_bottom (s : Lua) (n : Nat) (base : List Value) (hs : Above n base s)
    (hne : base ≠ []) : s.at_ 1 ∈ base := by
  rcases hs with ⟨⟨top, _, hstack⟩, _⟩
  unfold Lua.at_
  rw [if_pos (by decide), hstack, List.reverse_append]
  cases hrev : base.reverse with
  | nil => exact absurd (List.reverse_eq_nil_iff.mp hrev) hne
  | cons v rest =>
      have hv : v ∈ base.reverse := hrev ▸ List.mem_cons_self
      exact List.mem_reverse.mp hv

/-- The first use of slot 1 finds what the script has left. -/
theorem touch_spoils (n : Nat) (base : List Value) (hne : base ≠ [])
    (huser : ∀ v ∈ base, ∃ m, v = .user m) :
    Ensures (Above n base) (touch 1) (fun _ => Spoiled) Spoiled := by
  refine ensures_update _ _ _ _ fun s hs => ?_
  rw [if_pos rfl]
  rcases huser _ (at_bottom s n base hs hne) with ⟨m, hm⟩
  exact ⟨m, List.mem_append_right _ (List.mem_singleton.mpr hm.symm)⟩

/-- Whatever becomes of the field, slot 1 is used. -/
theorem setfield_spoils (n : Nat) (base : List Value) (hne : base ≠ [])
    (huser : ∀ v ∈ base, ∃ m, v = .user m) (name : String) :
    Ensures (Above n base) (luaSetfield user 1 name) (fun _ => Spoiled) Spoiled := by
  unfold luaSetfield
  refine ensures_bind (touch_spoils n base hne huser) fun _ => ?_
  refine (maintains_iff _ _).mp (state_spoiled _ fun _ => ?_)
  exact maintains_bind (storeField_spoiled user _ _ _) fun _ => update_spoiled _ fun _ => rfl

/-- With something left below it, the table of `script_summary` is not in slot
    1. -/
theorem scriptSummary_spoils (base : List Value) (hne : base ≠ [])
    (huser : ∀ v ∈ base, ∃ m, v = .user m) (duration requests bytes : Nat) :
    Ensures (Above 0 base) (scriptSummary user duration requests bytes) (fun _ => Spoiled)
      Spoiled := by
  unfold scriptSummary
  refine ensures_bind (newtable_above 0 base) fun _ => ?_
  -- Slot 1 is spoiled by the first field, and the others change nothing.
  refine ensures_bind (ensures_bind (push_above 1 base _) fun _ =>
    setfield_spoils user 2 base hne huser "duration") fun _ => ?_
  exact (maintains_iff _ _).mp (setFields_spoiled user 1 _)

theorem finish_spoils (run : Run) (base : List Value) (hne : base ≠ [])
    (huser : ∀ v ∈ base, ∃ m, v = .user m) :
    Ensures (Above 0 base) (finish user run) (fun _ => Spoiled) Spoiled := by
  unfold finish
  refine ensures_bind (scriptSummary_spoils user base hne huser _ _ _) fun _ => ?_
  refine (maintains_iff _ _).mp (maintains_bind (scriptErrors_spoiled user _) fun _ => ?_)
  exact scriptDone_spoiled user

end Spoiled

/-! ### On an empty stack -/

/-- A table with the fields of a list set one after the other. -/
def withFields (fields : List TableField) (table : Table) : Table :=
  fields.foldl (fun table f => Function.update table f.name (f.value.getD .nil)) table

/-- The stack and the tables are as they should be, of which the one with a
    reference has been made, and slot 1 has not been anything else. -/
structure Holds (ref : Nat) (stack : List Value) (tables : (Nat → Table) → Prop) (s : Lua) :
    Prop where
  stack : s.stack = stack
  tables : tables s.tables
  made : ref < s.fresh
  uses : ∀ v ∈ s.uses, v = .table ref
  calls : s.calls = []

/-- The two tables of a run. -/
def Filled (run : Run) (ref : Nat) (tables : Nat → Table) : Prop :=
  ∃ e,
    tables ref = Function.update
      (withFields (summaryFields run.runtimeUs run.complete run.bytes) fun _ => .nil)
      "errors" (.table e) ∧
    tables e = withFields (errorFields run.errors) fun _ => .nil

section Delivered

variable (user : User) (ref : Nat)

/-- An element stays where it is when something is pushed. -/
theorem at_push (s : Lua) (index : Int) (v : Value) (hlo : 0 < index)
    (hhi : index ≤ s.stack.length) :
    { s with stack := v :: s.stack }.at_ index = s.at_ index := by
  unfold Lua.at_
  rw [if_pos hlo, if_pos hlo, List.reverse_cons, List.getElem?_append_left]
  rw [List.length_reverse]
  omega

theorem touch_run (index : Int) (s : Lua) (t : Nat) (hat : s.at_ index = .table t) :
    Yields (touch index) s ()
      { s with uses := s.uses ++ if index = 1 then [.table t] else [] } := by
  change (some (), if index = 1 then _ else s) = _
  split
  · rename_i hone
    rw [hone] at hat
    rw [hat]
  · rw [List.append_nil]

/-- A field is set in a table on the stack, to what is on top. -/
theorem setfield_run (index : Int) (name : String) (v : Value) (s : Lua) (t : Nat)
    (hlo : 0 < index) (hhi : index ≤ s.stack.length) (hat : s.at_ index = .table t) :
    Yields (luaSetfield user index name) { s with stack := v :: s.stack } ()
      { s with
        tables := Function.update s.tables t (Function.update (s.tables t) name v)
        uses := s.uses ++ if index = 1 then [.table t] else [] } := by
  have hpushed : { s with stack := v :: s.stack }.at_ index = .table t :=
    (at_push s index v hlo hhi).trans hat
  refine yields_bind (touch_run index _ t hpushed) (yields_bind rfl ?_)
  -- The target is found where it was.
  change Yields (storeField user ({ s with stack := v :: s.stack }.at_ index) name v >>= _) _ _ _
  rw [hpushed]
  rfl

/-- Fields are set in a table on the stack. -/
theorem setFields_run (index : Int) (fields : List TableField) (s : Lua) (t : Nat)
    (hlo : 0 < index) (hhi : index ≤ s.stack.length) (hat : s.at_ index = .table t) :
    Yields (setFields user index fields) s ()
      { s with
        tables := Function.update s.tables t (withFields fields (s.tables t))
        uses := s.uses ++ List.replicate (if index = 1 then fields.length else 0) (.table t) } := by
  induction fields generalizing s with
  | nil =>
      have htables : Function.update s.tables t (withFields [] (s.tables t)) = s.tables :=
        Function.update_eq_self t s.tables
      rw [htables, List.length_nil, ite_self, List.replicate_zero, List.append_nil]
      rfl
  | cons f fields ih =>
      refine yields_bind (yields_bind rfl
        (setfield_run user index f.name (f.value.getD .nil) s t hlo hhi hat)) ?_
      -- The rest is set in the table that has this field.
      have hrest := ih
        { s with
          tables := Function.update s.tables t
            (Function.update (s.tables t) f.name (f.value.getD .nil))
          uses := s.uses ++ if index = 1 then [.table t] else [] } hhi hat
      dsimp only at hrest
      have huses : s.uses ++ (if index = 1 then [.table t] else []) ++
          List.replicate (if index = 1 then fields.length else 0) (.table t) =
            s.uses ++ List.replicate (if index = 1 then (f :: fields).length else 0)
              (Value.table t) := by
        rw [List.append_assoc]
        split
        · rw [List.length_cons, List.replicate_succ, List.singleton_append]
        · rw [List.nil_append]
      rw [Function.update_self, Function.update_idem, huses] at hrest
      exact hrest

/-- A table that has just been made is filled by its index. -/
theorem newFields_run (index : Int) (fields : List TableField) (s : Lua)
    (hindex : index = s.stack.length + 1) :
    Yields (setFields user index fields)
      { s with
        stack := .table s.fresh :: s.stack
        tables := Function.update s.tables s.fresh fun _ => .nil
        fresh := s.fresh + 1 } ()
      { s with
        stack := .table s.fresh :: s.stack
        tables := Function.update s.tables s.fresh (withFields fields fun _ => .nil)
        fresh := s.fresh + 1
        uses := s.uses ++
          List.replicate (if index = 1 then fields.length else 0) (.table s.fresh) } := by
  have hat : { s with stack := .table s.fresh :: s.stack }.at_ index = .table s.fresh := by
    unfold Lua.at_
    rw [if_pos (by omega), List.reverse_cons, List.getElem?_append_right
      (by rw [List.length_reverse]; omega), List.length_reverse]
    rw [show (index - 1).toNat - s.stack.length = 0 by omega]
    rfl
  have hlength : index ≤ (Value.table s.fresh :: s.stack).length := by
    rw [List.length_cons]
    omega
  -- Nothing is left of the empty table.
  have hfields := setFields_run user index fields
    { s with
      stack := .table s.fresh :: s.stack
      tables := Function.update s.tables s.fresh fun _ => .nil
      fresh := s.fresh + 1 } s.fresh (by omega) hlength hat
  dsimp only at hfields
  rw [Function.update_self, Function.update_idem] at hfields
  exact hfields

/-- The table of `script_summary` is in slot 1 of an empty stack. -/
theorem scriptSummary_holds (duration requests bytes : Nat) {E : Lua → Prop} :
    Ensures (fun s => Above 0 [] s ∧ s.fresh = ref) (scriptSummary user duration requests bytes)
      (fun _ => Holds ref [.table ref] fun tables =>
        tables ref = withFields (summaryFields duration requests bytes) fun _ => .nil)
      E := by
  refine ensures_of_yields fun s hs => ?_
  rcases hs with ⟨⟨⟨top, hlen, hstack⟩, huses, hcalls⟩, hfresh⟩
  rw [List.eq_nil_of_length_eq_zero hlen, List.append_nil] at hstack
  subst hfresh
  -- The new table is the only element.
  refine ⟨(), _, yields_bind rfl (newFields_run user 1 _ s (by rw [hstack]; rfl)), ?_, ?_,
    Nat.lt_succ_self s.fresh, ?_, hcalls⟩
  · dsimp only
    rw [hstack]
  · exact Function.update_self _ _ _
  · dsimp only
    rw [huses]
    exact fun v hv => List.eq_of_mem_replicate hv

/-- `script_errors` makes the second table, in slot 2, and leaves it in the
    first. -/
theorem scriptErrors_holds (fields : Table) (errors : Errors) {E : Lua → Prop} :
    Ensures (Holds ref [.table ref] fun tables => tables ref = fields)
      (scriptErrors user errors)
      (fun _ => Holds ref [.table ref] fun tables => ∃ e,
        tables ref = Function.update fields "errors" (.table e) ∧
          tables e = withFields (errorFields errors) fun _ => .nil)
      E := by
  refine ensures_of_yields fun s hs => ?_
  have hat : s.at_ 1 = .table ref := by
    unfold Lua.at_
    rw [hs.stack]
    rfl
  have hlength : (1 : Int) ≤ s.stack.length := by
    rw [hs.stack]
    rfl
  -- The new table is another than the summary.
  have hne : ref ≠ s.fresh := Nat.ne_of_lt hs.made
  refine ⟨(), _, yields_bind rfl (yields_bind
    (newFields_run user 2 _ s (by rw [hs.stack]; rfl))
    (setfield_run user 1 "errors" (.table s.fresh)
      { s with
        tables := Function.update s.tables s.fresh (withFields (errorFields errors) fun _ => .nil)
        fresh := s.fresh + 1
        uses := s.uses ++ [] } ref (by decide) hlength hat)),
    hs.stack, ⟨s.fresh, ?_, ?_⟩, Nat.lt_succ_of_lt hs.made, ?_, hs.calls⟩
  · dsimp only
    rw [Function.update_self, Function.update_of_ne hne, hs.tables]
  · dsimp only
    rw [Function.update_of_ne hne.symm, Function.update_self]
  · dsimp only
    rw [List.append_nil, if_pos rfl]
    exact List.forall_mem_append.mpr ⟨hs.uses, List.forall_mem_singleton.mpr rfl⟩

theorem getglobal_holds (stack : List Value) (tables : (Nat → Table) → Prop) (name : String) :
    Ensures (Holds ref stack tables) (luaGetglobal user name)
      (fun _ s => ∃ n, Holds ref (.user n :: stack) tables s) (Holds ref stack tables) := by
  have hask : Ensures (Holds ref stack tables) (ask user (.getGlobal name))
      (fun _ => Holds ref stack tables) (Holds ref stack tables) :=
    fun _ hs => ⟨fun _ _ => ⟨hs.1, hs.2, hs.3, hs.4, hs.5⟩, fun _ => ⟨hs.1, hs.2, hs.3, hs.4, hs.5⟩⟩
  refine ensures_bind hask fun n => ensures_update _ _ _ _ fun s hs => ?_
  exact ⟨n, congrArg (Value.user n :: ·) hs.stack, hs.tables, hs.made, hs.uses, hs.calls⟩

/-- The table is passed on from slot 1. -/
theorem pushvalue_holds (v : Value) (tables : (Nat → Table) → Prop) {E : Lua → Prop} :
    Ensures (Holds ref [v, .table ref] tables) (luaPushvalue 1)
      (fun _ => Holds ref [.table ref, v, .table ref] tables) E := by
  refine ensures_of_yields fun s hs => ?_
  have hat : s.at_ 1 = .table ref := by
    unfold Lua.at_
    rw [hs.stack]
    rfl
  refine ⟨(), _, yields_bind (touch_run 1 s ref hat) rfl, ?_, hs.tables, hs.made, ?_, hs.calls⟩
  · change s.at_ 1 :: s.stack = _
    rw [hat, hs.stack]
  · exact List.forall_mem_append.mpr ⟨hs.uses, List.forall_mem_singleton.mpr rfl⟩

theorem userdata_holds (stack : List Value) (tables : (Nat → Table) → Prop) (name : String)
    {E : Lua → Prop} :
    Ensures (Holds ref stack tables) (pushUserdata name)
      (fun _ => Holds ref (.userdata (some name) :: stack) tables) E :=
  ensures_of_yields fun s hs =>
    ⟨(), { s with stack := .userdata (some name) :: s.stack }, rfl,
      congrArg (Value.userdata (some name) :: ·) hs.stack, hs.tables, hs.made, hs.uses, hs.calls⟩

/-- Until `done` is called, nothing wrong has been passed. -/
theorem delivered_of_holds (run : Run) (stack : List Value) (tables : (Nat → Table) → Prop)
    (s : Lua) (hs : Holds ref stack tables s) : Delivered run ref s :=
  ⟨hs.uses, fun _ hc => absurd (hs.calls ▸ hc) List.not_mem_nil⟩

/-- The tables have the fields that are asked for. -/
theorem passed_of_filled (run : Run) (tables : Nat → Table) (h : Filled run ref tables)
    (args : List Value) (hfirst : args.head? = some (.table ref)) :
    Passed run ref ⟨args, tables⟩ := by
  rcases h with ⟨e, hsummary, herrors⟩
  exact ⟨hfirst, congrFun hsummary "duration", congrFun hsummary "requests",
    congrFun hsummary "bytes", e, congrFun hsummary "errors", congrFun herrors "connect",
    congrFun herrors "read", congrFun herrors "write", congrFun herrors "status",
    congrFun herrors "timeout"⟩

/-- What is below the two pointers is passed first. -/
theorem recordCall_delivers (run : Run) (f g : Value) (rest : List Value) {E : Lua → Prop} :
    Ensures (Holds ref (g :: f :: .table ref :: rest) (Filled run ref)) (recordCall 3)
      (fun _ => Delivered run ref) E := by
  refine ensures_update _ _ _ _ fun s hs => ⟨hs.uses, fun c hc => ?_⟩
  dsimp only at hc
  rw [hs.calls, hs.stack, List.nil_append] at hc
  rw [List.mem_singleton.mp hc]
  exact passed_of_filled ref run s.tables hs.tables _ rfl

/-- The call itself, and what comes after it. -/
theorem call_delivered (run : Run) (nargs : Nat) :
    Maintains (Delivered run ref) (luaCall user nargs >>= fun _ => pop 1) := by
  have hpop (n : Nat) : Maintains (Delivered run ref) (pop n) := fun s hs => ⟨hs.slot, hs.passed⟩
  have hask (q : Ask) : Maintains (Delivered run ref) (ask user q) :=
    fun s hs => ⟨hs.slot, hs.passed⟩
  refine maintains_bind (maintains_bind (fun _ hs => hs) fun s => ?_) fun _ => hpop 1
  exact maintains_bind (hask _) fun _ => hpop (nargs + 1)

theorem scriptDone_delivers (run : Run) :
    Ensures (Holds ref [.table ref] (Filled run ref)) (scriptDone user)
      (fun _ => Delivered run ref) (Delivered run ref) := by
  unfold scriptDone
  refine ensures_bind (ensures_mono (getglobal_holds user ref _ _ _) (fun _ hs => hs)
    (fun _ _ hq => hq) fun s hs => delivered_of_holds ref run _ _ s hs) fun _ =>
      ensures_exists fun n => ?_
  -- `done` is above the summary, which is copied from slot 1.
  refine ensures_bind (pushvalue_holds ref (.user n) _) fun _ => ?_
  refine ensures_bind (userdata_holds ref _ _ _) fun _ => ?_
  refine ensures_bind (userdata_holds ref _ _ _) fun _ => ?_
  refine ensures_bind (recordCall_delivers ref run _ _ _) fun _ => ?_
  -- Whatever the call does, it is over.
  exact (maintains_iff _ _).mp (call_delivered user ref run 3)

end Delivered

/-- On an empty stack, slot 1 is the summary, and `done` receives it. -/
theorem finish_delivers (user : User) (run : Run) (ref : Nat) :
    Ensures (fun s => Above 0 [] s ∧ s.fresh = ref) (finish user run)
      (fun _ => Delivered run ref) (Delivered run ref) := by
  unfold finish
  refine ensures_bind (scriptSummary_holds user ref _ _ _) fun _ => ?_
  refine ensures_bind (scriptErrors_holds user ref _ _) fun _ => ?_
  exact scriptDone_delivers user ref run

/-- What is left of a run that has come to `script_summary` in a state. -/
theorem main_after (user : User) (run : Run) (s : Lua)
    (h : Yields (untilSummary user run) start true s) :
    (main user run).run start = (finish user run).run s :=
  bind_of_yields (untilSummary user run) _ start true s h

theorem leaves_user (file : Load) (base : List Value) (h : file.leaves = some base) :
    ∀ v ∈ base, ∃ n, v = .user n := by
  intro v hv
  cases file with
  | noFile =>
      rw [← Option.some.inj h] at hv
      exact absurd hv List.not_mem_nil
  | returned values =>
      rw [← Option.some.inj h] at hv
      rcases List.mem_map.mp hv with ⟨n, _, hn⟩
      exact ⟨n, hn.symm⟩
  | failed message =>
      rw [← Option.some.inj h] at hv
      exact ⟨message, List.mem_singleton.mp hv⟩
  | ended => cases h

/-- Nothing is left by no script, and by one that returns nothing. -/
theorem leaves_nil_iff (file : Load) :
    file.leaves = some [] ↔ file = .noFile ∨ file = .returned [] := by
  cases file with
  | noFile => exact iff_of_true rfl (Or.inl rfl)
  | returned values =>
      unfold Load.leaves
      rw [Option.some.injEq, List.map_eq_nil_iff, List.reverse_eq_nil_iff]
      simp only [reduceCtorEq, Load.returned.injEq, false_or]
  | failed message => simp only [Load.leaves, reduceCtorEq, Option.some.injEq, or_self]
  | ended => simp only [Load.leaves, reduceCtorEq, or_self]

/-- In a run that comes to `script_summary`, in a state from which it takes its
    table, slot 1 is this table whenever it is used and `done` receives it, with
    the numbers and the errors of the run, if and only if there is no script or
    its chunk has returned no values. -/
theorem done_receives_iff (user : User) (run : Run) (s : Lua)
    (h : Yields (untilSummary user run) start true s) :
    Delivered run s.fresh ((main user run).run start).2 ↔
      run.file = .noFile ∨ run.file = .returned [] := by
  rcases ensures_yields (untilSummary_above user run) start
    ⟨⟨[], rfl, rfl⟩, rfl, rfl⟩ true s h with ⟨base, hleaves, habove⟩
  rw [main_after user run s h, ← leaves_nil_iff, hleaves, Option.some.injEq]
  constructor
  · -- What is left is found by the first use of slot 1.
    intro hdelivered
    by_contra hne
    rcases ensures_left (finish_spoils user run base hne (leaves_user _ base hleaves)) s habove
      with ⟨n, hn⟩
    exact nomatch hdelivered.slot _ hn
  · intro hnil
    rw [hnil] at habove
    exact ensures_left (finish_delivers user run s.fresh) s ⟨habove, rfl⟩

/-- Lua code of which every call succeeds, and every global is a function. -/
def plainUser : User where
  answer := fun _ _ => some 0
  isFunction := fun _ => true
  objlen := fun _ => 1

/-- A run with one thread, for a way to load the script. -/
def plainRun (file : Load) : Run where
  file := file
  url := bytes "http://h:80/p"
  headers := [bytes "A: b"]
  host := bytes "h"
  service := bytes "80"
  threads := 1
  runtimeUs := 2000000
  complete := 10
  bytes := 500
  errors := ⟨0, 0, 0, 1, 2⟩

theorem done_receives_iff_plain :
    ∃ s, Yields (untilSummary plainUser (plainRun (.returned []))) start true s ∧
      ((main plainUser (plainRun (.returned []))).run start).2.calls.length = 1 ∧
        Delivered (plainRun (.returned [])) s.fresh
          ((main plainUser (plainRun (.returned []))).run start).2 :=
  ⟨_, rfl, rfl,
    (done_receives_iff plainUser (plainRun (.returned [])) _ rfl).mpr (Or.inr rfl)⟩

/-- A script that returns a table receives this table. -/
theorem done_receives_leftover :
    (∃ s, Yields (untilSummary plainUser (plainRun (.returned [7]))) start true s) ∧
      ((main plainUser (plainRun (.returned [7]))).run start).2.calls.map (fun c => c.args.head?) =
        [some (.user 7)] ∧
      ¬ ∀ (user : User) (run : Run) (s : Lua),
        Yields (untilSummary user run) start true s →
          Delivered run s.fresh ((main user run).run start).2 := by
  refine ⟨⟨_, rfl⟩, rfl, fun h => ?_⟩
  have huses : Value.user 7 ∈ ((main plainUser (plainRun (.returned [7]))).run start).2.uses :=
    List.mem_of_mem_head? rfl
  exact nomatch (h plainUser (plainRun (.returned [7])) _ rfl).slot _ huses

end Done

end Wrk
