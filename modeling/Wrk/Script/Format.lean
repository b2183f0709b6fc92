import Wrk.Core.Decimal
import Wrk.Core.Lines
import Wrk.HttpParser.Types
import Mathlib.Data.List.AList

/-!
# Formatting Requests

`wrk.init` and `wrk.format` of `wrk.lua`. Tables of headers live in a heap and
are passed by reference, so that the table a call works on may be the default
one, or one that other calls use as well. Names and values are scalars, which
`%s` prints as `tostring` does. The order in which `pairs` visits a table is
not specified, and may differ from call to call.

`wrk.format` changes the table it works on: it sets the host from the default
table if there is none, and sets or removes the length.

## Main definitions

* `Scalar`, `Number`: Names and values of headers.
* `Headers`, `Pairs`: A table of headers, and the order of `pairs`.
* `Fields`: What `wrk.format` uses of the table `wrk`.
* `format`: `wrk.format`.
* `init`: `wrk.init`.

## Theorems

* `format_lookup`: What a call leaves in the tables.
* `format_headers`: The header lines are the entries it leaves.
-/

namespace Wrk

namespace Script

open HttpParser (Bytes bytes)

/-- The numbers of the language: those that are lengths, and how they are
    printed. -/
class Number (N : Type) where
  ofNat : Nat → N
  text : N → Bytes
  text_ofNat : ∀ n, text (ofNat n) = Decimal.natText n

/-- A name or a value of a header. -/
inductive Scalar (N : Type) where
  | boolean (b : Bool)
  | number (n : N)
  | string (s : Bytes)
  deriving DecidableEq

/-- `tostring`. -/
def Scalar.text {N : Type} [Number N] : Scalar N → Bytes
  | .boolean b => bytes (toString b)
  | .number n => Number.text n
  | .string s => s

/-- The integers as numbers. -/
instance : Number Int where
  ofNat n := n
  text
    | .ofNat n => Decimal.natText n
    | .negSucc n => bytes "-" ++ Decimal.natText (n + 1)
  text_ofNat _ := rfl

/-- A table of headers. -/
abbrev Headers (N : Type) : Type := AList (fun _ : Scalar N => Scalar N)

/-- What a condition makes of a field. -/
def truthy {N : Type} : Option (Scalar N) → Bool
  | none => false
  -- Only nil and false are not; zero and the empty string are.
  | some (.boolean b) => b
  | some _ => true

/-- `pairs`: the entries in some order. -/
structure Pairs (N : Type) where
  visit : Headers N → List (Scalar N × Scalar N)
  perm : ∀ t, (visit t).Perm (t.entries.map (fun e => (e.1, e.2)))

/-- The order in which the entries were made. -/
def Pairs.latest (N : Type) : Pairs N where
  visit t := t.entries.map (fun e => (e.1, e.2))
  perm _ := List.Perm.refl _

/-- What is used of the table `wrk`, with a reference to the default headers. -/
structure Fields (R : Type) where
  host : Bytes
  port : Option Bytes
  method : Bytes
  path : Bytes
  headers : R
  body : Option Bytes

/-- The arguments of a call of `wrk.format`. -/
structure Args (R : Type) where
  method : Option Bytes
  path : Option Bytes
  headers : Option R
  body : Option Bytes

/-- The request line, the header lines and the body. -/
structure Formatted where
  line : Bytes
  headers : List Bytes
  body : Bytes
  deriving DecidableEq, Repr

/-- `table.concat(s, "\r\n")`. -/
def Formatted.text (r : Formatted) : Bytes :=
  Lines.endOfLine.intercalate (r.line :: (r.headers ++ [[], r.body]))

section Format

variable {N R : Type} [DecidableEq N] [Number N] [DecidableEq R]

/-- The names that are set. -/
def HOST : Scalar N := .string (bytes "Host")

def CONTENT_LENGTH : Scalar N := .string (bytes "Content-Length")

/-- An assignment to a field. Assigning nil removes it. -/
def assign (name : Scalar N) (value : Option (Scalar N)) (t : Headers N) : Headers N :=
  match value with
  | some v => t.insert name v
  | none => t.erase name

/-- An assignment to a field of a table of the heap. -/
def store (heap : R → Headers N) (r : R) (name : Scalar N) (value : Option (Scalar N)) :
    R → Headers N :=
  Function.update heap r (assign name value (heap r))

/-- The host is set from the default headers if there is none. -/
def fillHost (heap : R → Headers N) (defaults headers : R) : R → Headers N :=
  if !truthy ((heap headers).lookup HOST) then
    store heap headers HOST ((heap defaults).lookup HOST)
  else heap

/-- The length is set if there is a body, and removed if there is none. -/
def setLength (heap : R → Headers N) (headers : R) (body : Option Bytes) : R → Headers N :=
  store heap headers CONTENT_LENGTH
    (body.map (fun text => .number (Number.ofNat text.length)))

/-- `string.format("%s %s HTTP/1.1", method, path)` -/
def requestLine (method path : Bytes) : Bytes :=
  method ++ bytes " " ++ path ++ bytes " HTTP/1.1"

/-- `string.format("%s: %s", name, value)` -/
def headerLine (e : Scalar N × Scalar N) : Bytes := e.1.text ++ bytes ": " ++ e.2.text

/-- `wrk.format`. -/
def format (pairs : Pairs N) (wrk : Fields R) (args : Args R) (heap : R → Headers N) :
    Formatted × (R → Headers N) :=
  let method := args.method.getD wrk.method
  let path := args.path.getD wrk.path
  let headers := args.headers.getD wrk.headers
  let body := args.body.or wrk.body
  -- Both assignments change the table that was passed, which may be the default one.
  let heap := fillHost heap wrk.headers headers
  let heap := setLength heap headers body
  ({ line := requestLine method path
     headers := (pairs.visit (heap headers)).map headerLine
     body := body.getD [] }, heap)

/-- The value that `wrk.init` gives to the host. -/
def hostValue (wrk : Fields R) : Bytes :=
  -- An address with colons is put in brackets.
  let host := if wrk.host.contains 58 then bytes "[" ++ wrk.host ++ bytes "]" else wrk.host
  match wrk.port with
  | some port => host ++ bytes ":" ++ port
  | none => host

/-- `wrk.init`, with what the script's own `init` does to the fields and the
    tables: the request it prepares, and what it leaves. -/
def init (pairs : Pairs N) (hook : Fields R × (R → Headers N) → Fields R × (R → Headers N))
    (wrk : Fields R) (heap : R → Headers N) : Formatted × (Fields R × (R → Headers N)) :=
  let heap :=
    if !truthy ((heap wrk.headers).lookup HOST) then
      store heap wrk.headers HOST (some (.string (hostValue wrk)))
    else heap
  -- What follows is done with whatever the script's own `init` leaves.
  let s := hook (wrk, heap)
  let r := format pairs s.1 ⟨none, none, none, none⟩ s.2
  (r.1, (s.1, r.2))

/-! ### What is assigned -/

omit [Number N] in
theorem lookup_assign (name other : Scalar N) (value : Option (Scalar N)) (t : Headers N) :
    (assign name value t).lookup other = if other = name then value else t.lookup other := by
  cases value with
  | none =>
      by_cases h : other = name
      · rw [if_pos h, h]
        exact AList.lookup_erase name t
      · rw [if_neg h]
        exact AList.lookup_erase_ne h
  | some v =>
      by_cases h : other = name
      · rw [if_pos h, h]
        exact AList.lookup_insert t
      · rw [if_neg h]
        exact AList.lookup_insert_ne h

omit [Number N] in
theorem lookup_store (heap : R → Headers N) (r r' : R) (name other : Scalar N)
    (value : Option (Scalar N)) :
    (store heap r name value r').lookup other =
      if r' = r ∧ other = name then value else (heap r').lookup other := by
  unfold store
  by_cases h : r' = r
  · -- The other tables are as they were.
    rw [h, Function.update_self, lookup_assign]
    simp only [true_and]
  · rw [Function.update_of_ne h, if_neg (fun hn => h hn.1)]

omit [DecidableEq N] [Number N] in
theorem host_ne_length : (HOST : Scalar N) ≠ CONTENT_LENGTH := by
  intro h
  exact absurd (Scalar.string.inj h) (by decide)

/-- The host that a call prints, if any. -/
def hostOf (heap : R → Headers N) (defaults headers : R) : Option (Scalar N) :=
  if truthy ((heap headers).lookup HOST) then (heap headers).lookup HOST
  else (heap defaults).lookup HOST

/-- The length that a call prints, if any. -/
def lengthOf (body : Option Bytes) : Option (Scalar N) :=
  body.map (fun text => .number (Number.ofNat text.length))

omit [Number N] in
theorem fillHost_lookup (heap : R → Headers N) (defaults headers r : R) (name : Scalar N) :
    (fillHost heap defaults headers r).lookup name =
      if r = headers ∧ name = HOST then hostOf heap defaults headers
      else (heap r).lookup name := by
  unfold fillHost hostOf
  -- A host of the table's own is kept.
  by_cases ht : truthy ((heap headers).lookup HOST) = true
  · rw [ht, if_pos rfl]
    by_cases h : r = headers ∧ name = HOST
    · rw [if_pos h, h.1, h.2]
      rfl
    · rw [if_neg h]
      rfl
  · rw [Bool.eq_false_iff.mpr ht]
    exact lookup_store heap headers r HOST name _

/-- What a call leaves in the tables. -/
theorem format_lookup (pairs : Pairs N) (wrk : Fields R) (args : Args R) (heap : R → Headers N)
    (r : R) (name : Scalar N) :
    ((format pairs wrk args heap).2 r).lookup name =
      if r = args.headers.getD wrk.headers ∧ name = CONTENT_LENGTH then
        lengthOf (args.body.or wrk.body)
      else if r = args.headers.getD wrk.headers ∧ name = HOST then
        hostOf heap wrk.headers (args.headers.getD wrk.headers)
      else (heap r).lookup name := by
  unfold format setLength
  dsimp only
  rw [lookup_store, fillHost_lookup]
  rfl

/-- The lines that a call prints are those of the table it leaves. -/
theorem format_headers (pairs : Pairs N) (wrk : Fields R) (args : Args R)
    (heap : R → Headers N) :
    (format pairs wrk args heap).1.headers =
      (pairs.visit ((format pairs wrk args heap).2 (args.headers.getD wrk.headers))).map
        headerLine := rfl

end Format

end Script

end Wrk
