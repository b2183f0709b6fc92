import Wrk.Script.Format

/-!
# Formatting with Shared Tables

A call of `wrk.format` changes the table it works on, which the script may hand
over again, or which is the default for other calls. What the calls change is
only what each of them sets anew, so that every call prints what it would
print from fresh copies of the tables as they were before the first.

## Main definitions

* `formatAll`: Calls one after the other, on the same tables.
* `formatCopies`: A call on fresh copies.
* `Formatted.Same`: Requests that differ in the order of their headers.
* `Touched`: What calls may have changed.

## Theorems

* `format_touched`, `format_same`: One call.
* `calls_independent`: Any number of calls.
-/

namespace Wrk

namespace Script

open HttpParser (Bytes bytes)

/-- The same request line, header lines and body. -/
structure Formatted.Same (r r' : Formatted) : Prop where
  line : r.line = r'.line
  headers : r.headers.Perm r'.headers
  body : r.body = r'.body

section Sharing

variable {N R : Type} [DecidableEq N] [Number N] [DecidableEq R]

/-- What the calls return, each with the order in which it visits its
    table. -/
def formatAll (wrk : Fields R) : List (Pairs N × Args R) → (R → Headers N) → List Formatted
  | [], _ => []
  | (pairs, args) :: calls, heap =>
      let r := format pairs wrk args heap
      r.1 :: formatAll wrk calls r.2

/-- A call on two tables of its own: a copy of the default headers, and one of
    the headers it is given. -/
def formatCopies (pairs : Pairs N) (wrk : Fields R) (args : Args R) (heap : R → Headers N) :
    Formatted :=
  let copies : Bool → Headers N
    | false => heap wrk.headers
    | true => heap (args.headers.getD wrk.headers)
  let wrk := { wrk with headers := false }
  let args := { args with headers := args.headers.map (fun _ => true) }
  (format pairs wrk args copies).1

/-- The tables after some calls. Besides the length only a host may be new,
    and it is the default one. -/
structure Touched (wrk : Fields R) (first heap : R → Headers N) : Prop where
  other : ∀ r name, name ≠ CONTENT_LENGTH → name ≠ HOST →
    (heap r).lookup name = (first r).lookup name
  host : ∀ r, (heap r).lookup HOST = (first r).lookup HOST ∨
    (truthy ((first r).lookup HOST) = false ∧
      (heap r).lookup HOST = (first wrk.headers).lookup HOST)

omit [Number N] [DecidableEq R] in
theorem touched_refl (wrk : Fields R) (heap : R → Headers N) : Touched wrk heap heap :=
  ⟨fun _ _ _ _ => rfl, fun _ => Or.inl rfl⟩

omit [Number N] [DecidableEq R] in
/-- Every table gives the same host as before the calls. -/
theorem touched_hostOf (wrk : Fields R) (first heap : R → Headers N) (h : Touched wrk first heap)
    (r : R) : hostOf heap wrk.headers r = hostOf first wrk.headers r := by
  -- The default table is filled from itself, so its host stays.
  have hdefault : (heap wrk.headers).lookup HOST = (first wrk.headers).lookup HOST := by
    rcases h.host wrk.headers with hsame | ⟨_, hnew⟩
    · exact hsame
    · exact hnew
  unfold hostOf
  rcases h.host r with hsame | ⟨hnone, hnew⟩
  · rw [hsame, hdefault]
  · rw [hnew, hdefault, hnone, ite_self]
    rfl

/-- A call leaves the tables as a sequence of calls may. -/
theorem format_touched (pairs : Pairs N) (wrk : Fields R) (args : Args R)
    (first heap : R → Headers N) (h : Touched wrk first heap) :
    Touched wrk first (format pairs wrk args heap).2 := by
  refine ⟨fun r name hlen hhost => ?_, fun r => ?_⟩
  · rw [format_lookup, if_neg (fun hn => hlen hn.2), if_neg (fun hn => hhost hn.2)]
    exact h.other r name hlen hhost
  · rw [format_lookup, if_neg (fun hn => host_ne_length hn.2)]
    -- Only the table of the call has a host set, and it is the default one.
    by_cases hr : r = args.headers.getD wrk.headers
    · rw [if_pos ⟨hr, rfl⟩, ← hr, touched_hostOf wrk first heap h r]
      unfold hostOf
      by_cases ht : truthy ((first r).lookup HOST) = true
      · rw [if_pos ht]
        exact Or.inl rfl
      · rw [if_neg ht]
        exact Or.inr ⟨Bool.eq_false_iff.mpr ht, rfl⟩
    · rw [if_neg (fun hn => hr hn.1)]
      exact h.host r

omit [Number N] in
/-- Tables with the same fields are printed as the same lines. -/
theorem visit_perm (pairs pairs' : Pairs N) (t t' : Headers N)
    (h : ∀ name, t.lookup name = t'.lookup name) : (pairs.visit t).Perm (pairs'.visit t') := by
  -- No name stands twice in a table, so its fields decide its entries.
  have hentries : t.entries.Perm t'.entries := by
    refine List.lookup_ext t.nodupKeys t'.nodupKeys (fun name value => ?_)
    have hname := h name
    unfold AList.lookup at hname
    rw [hname]
  exact (pairs.perm t).trans ((hentries.map _).trans (pairs'.perm t').symm)

/-- What a call prints is decided by the fields of its table, the host and the
    length. -/
theorem format_visit {R' : Type} [DecidableEq R'] (pairs pairs' : Pairs N) (wrk : Fields R)
    (wrk' : Fields R') (args : Args R) (args' : Args R') (heap : R → Headers N)
    (heap' : R' → Headers N) (hbody : args.body.or wrk.body = args'.body.or wrk'.body)
    (hhost : hostOf heap wrk.headers (args.headers.getD wrk.headers) =
      hostOf heap' wrk'.headers (args'.headers.getD wrk'.headers))
    (hother : ∀ name, name ≠ CONTENT_LENGTH → name ≠ HOST →
      (heap (args.headers.getD wrk.headers)).lookup name =
        (heap' (args'.headers.getD wrk'.headers)).lookup name) :
    (format pairs wrk args heap).1.headers.Perm (format pairs' wrk' args' heap').1.headers := by
  rw [format_headers, format_headers]
  refine (visit_perm pairs pairs' _ _ (fun name => ?_)).map headerLine
  rw [format_lookup, format_lookup, hbody, hhost]
  simp only [true_and]
  -- The two names that are set have the same value in both tables.
  by_cases hlen : name = CONTENT_LENGTH
  · rw [if_pos hlen, if_pos hlen]
  · rw [if_neg hlen, if_neg hlen]
    by_cases hh : name = HOST
    · rw [if_pos hh, if_pos hh]
    · rw [if_neg hh, if_neg hh]
      exact hother name hlen hh

/-- A call after others prints what it prints on fresh copies. -/
theorem format_same (pairs fresh : Pairs N) (wrk : Fields R) (args : Args R)
    (first heap : R → Headers N) (h : Touched wrk first heap) :
    (format pairs wrk args heap).1.Same (formatCopies fresh wrk args first) := by
  refine ⟨rfl, ?_, rfl⟩
  -- The copy that is printed has the fields of the table of the call.
  cases ha : args.headers with
  | none =>
      refine format_visit pairs fresh wrk _ args _ heap _ rfl ?_ ?_
      · rw [ha]
        exact touched_hostOf wrk first heap h wrk.headers
      · rw [ha]
        exact h.other wrk.headers
  | some r =>
      refine format_visit pairs fresh wrk _ args _ heap _ rfl ?_ ?_
      · rw [ha]
        exact touched_hostOf wrk first heap h r
      · rw [ha]
        exact h.other r

/-- The calls of a sequence that is under way. -/
theorem formatAll_same (wrk : Fields R) (calls : List (Pairs N × Args R))
    (first heap : R → Headers N) (h : Touched wrk first heap) :
    List.Forall₂
      (fun call r => ∀ fresh, Formatted.Same r (formatCopies fresh wrk call.2 first)) calls
      (formatAll wrk calls heap) := by
  induction calls generalizing heap with
  | nil => exact List.Forall₂.nil
  | cons call calls ih =>
      -- The next call finds the tables as this one leaves them.
      have hnext := format_touched call.1 wrk call.2 first heap h
      refine List.Forall₂.cons (fun fresh => ?_) (ih _ hnext)
      exact format_same call.1 fresh wrk call.2 first heap h

/-- However the tables are shared, every one of a sequence of calls prints what
    it would print if all the tables were fresh copies of what they were before
    the first call. -/
theorem calls_independent (wrk : Fields R) (calls : List (Pairs N × Args R))
    (heap : R → Headers N) :
    List.Forall₂
      (fun call r => ∀ fresh, Formatted.Same r (formatCopies fresh wrk call.2 heap)) calls
      (formatAll wrk calls heap) :=
  formatAll_same wrk calls heap heap (touched_refl wrk heap)

end Sharing

end Script

end Wrk
