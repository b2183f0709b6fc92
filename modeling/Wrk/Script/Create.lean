import Wrk.Http.Response
import Wrk.Script.CopyValue
import Wrk.Script.Format
import Mathlib.Data.List.Induction

/-!
# Headers from the Command Line

The loop of `script_create` that fills `wrk.headers` from the arguments of
`-H`. It looks for the first colon of an argument, and leaves the argument out
if no space follows. One space is taken off the value.

An argument is meant as a name, a colon, any number of spaces and a value, and
of several arguments with one name the last counts.

## Main definitions

* `addHeader`, `scriptHeaders`: The loop.
* `HeaderArg`: An argument as it is meant.
* `Kept`: The table holds what the arguments mean.
* `Separated`: The argument that counts for a name is separated by one space.

## Theorems

* `scriptHeaders_lookup`: What the table holds.
* `headers_kept_iff`: The arguments that are all kept.
-/

namespace Wrk

namespace Script

open HttpParser (Bytes bytes)

open Http (COLON SP)

section Create

variable {N : Type} [DecidableEq N]

/-- One argument. -/
def addHeader (t : Headers N) (h : Bytes) : Headers N :=
  let h := cString h
  match h.dropWhile (· ≠ COLON) with
  | _ :: b :: rest =>
      if b = SP then assign (.string (h.takeWhile (· ≠ COLON))) (some (.string rest)) t else t
  | _ => t

/-- `wrk.headers` after the loop. The table is empty before. -/
def scriptHeaders (headers : List Bytes) : Headers N := headers.foldl addHeader ∅

end Create

/-- An argument: a name, spaces after the colon, and a value that does not
    begin with one. -/
structure HeaderArg where
  name : Bytes
  spaces : Nat
  value : Bytes
  named : name ≠ []
  plain : COLON ∉ name
  text : 0 ∉ name ∧ 0 ∉ value
  first : value.head? ≠ some SP

namespace HeaderArg

/-- The argument as it is written. -/
def bytes (a : HeaderArg) : Bytes := a.name ++ COLON :: (List.replicate a.spaces SP ++ a.value)

/-- What it gives to a name. -/
def gives (name : Bytes) (a : HeaderArg) : Option Bytes :=
  if a.name = name then some a.value else none

/-- What the loop stores under a name for it. -/
def stores (name : Bytes) (a : HeaderArg) : Option Bytes :=
  if a.name = name ∧ a.spaces ≠ 0 then some (List.replicate (a.spaces - 1) SP ++ a.value) else none

end HeaderArg

/-- The value that is meant for a name. -/
def meant (args : List HeaderArg) : Bytes → Option Bytes :=
  fun name => (args.filterMap (HeaderArg.gives name)).getLast?

section Create

variable {N : Type} [DecidableEq N]

/-- The table has the value that is meant for each name, and nothing else. -/
def Kept (args : List HeaderArg) (t : Headers N) : Prop :=
  ∀ k : Scalar N, t.lookup k =
    match k with
    | .string name => (meant args name).map Scalar.string
    | _ => none

/-- The last argument for a name that has spaces after the colon has one, and
    the value of the last of all. -/
def Separated (args : List HeaderArg) (name : Bytes) : Prop :=
  ∃ a, (args.filter (fun a => decide (a.name = name ∧ a.spaces ≠ 0))).getLast? = some a ∧
    a.spaces = 1 ∧ meant args name = some a.value

/-! ### What is stored -/

omit [DecidableEq N] in
theorem cString_bytes (a : HeaderArg) : cString a.bytes = a.bytes := by
  rw [cString_eq_iff]
  intro h
  -- Neither the colon nor a space ends the string.
  rcases List.mem_append.mp h with h | h
  · exact a.text.1 h
  · rcases List.mem_cons.mp h with h | h
    · exact absurd h (by decide)
    · rcases List.mem_append.mp h with h | h
      · exact absurd (List.eq_of_mem_replicate h) (by decide)
      · exact a.text.2 h

/-- An argument is stored with one space less, and not at all if it has
    none. -/
theorem addHeader_bytes (t : Headers N) (a : HeaderArg) :
    addHeader t a.bytes =
      if a.spaces = 0 then t
      else assign (.string a.name) (some (.string (List.replicate (a.spaces - 1) SP ++ a.value)))
        t := by
  rcases Lines.split_at_char COLON a.name (List.replicate a.spaces SP ++ a.value) a.plain with
    ⟨htake, hdrop⟩
  unfold addHeader
  dsimp only
  rw [cString_bytes, HeaderArg.bytes, hdrop, htake]
  cases hs : a.spaces with
  | zero =>
      -- What follows the colon is the value, which does not begin with a space.
      rw [if_pos rfl, List.replicate_zero, List.nil_append]
      cases hv : a.value with
      | nil => rfl
      | cons b rest =>
          have hb : b ≠ SP := by
            intro hb
            exact a.first (by rw [hv, hb, List.head?_cons])
          dsimp only
          rw [if_neg hb]
  | succ k =>
      rw [if_neg (Nat.succ_ne_zero k), List.replicate_succ, List.cons_append]
      dsimp only
      rw [if_pos rfl, Nat.add_sub_cancel]

omit [DecidableEq N] in
/-- The last that is given, with one more argument. -/
theorem last_snoc (f : HeaderArg → Option Bytes) (args : List HeaderArg) (a : HeaderArg) :
    ((args ++ [a]).filterMap f).getLast? = (f a).or (args.filterMap f).getLast? := by
  rw [List.filterMap_append, List.filterMap_cons, List.filterMap_nil]
  cases f a with
  | none => rw [List.append_nil, Option.none_or]
  | some v => rw [List.getLast?_append, List.getLast?_singleton]

/-- The table holds what was stored last under a name. -/
theorem scriptHeaders_lookup (args : List HeaderArg) (k : Scalar N) :
    (scriptHeaders (args.map HeaderArg.bytes) : Headers N).lookup k =
      match k with
      | .string name => ((args.filterMap (HeaderArg.stores name)).getLast?).map Scalar.string
      | _ => none := by
  unfold scriptHeaders
  induction args using List.reverseRecOn with
  | nil =>
      cases k with
      | _ => rfl
  | append_singleton args a ih =>
      rw [List.map_append, List.foldl_append, List.map_singleton, List.foldl_cons, List.foldl_nil,
        addHeader_bytes]
      cases k with
      | string name =>
          dsimp only at ih ⊢
          rw [last_snoc]
          -- An argument that is left out changes neither side.
          by_cases hs : a.spaces = 0
          · rw [if_pos hs, HeaderArg.stores, if_neg (fun h => h.2 hs), Option.none_or]
            exact ih
          · rw [if_neg hs, lookup_assign, HeaderArg.stores]
            by_cases hn : a.name = name
            · rw [if_pos (by rw [hn]), if_pos ⟨hn, hs⟩, Option.some_or]
              rfl
            · rw [if_neg (fun h => hn (Scalar.string.inj h).symm), if_neg (fun h => hn h.1),
                Option.none_or]
              exact ih
      | _ =>
          split_ifs
          · exact ih
          · -- Only strings are ever assigned to.
            rw [lookup_assign, if_neg (fun h => by cases h)]
            exact ih

/-! ### What is kept -/

omit [DecidableEq N] in
/-- What is stored last is the value of the last argument with spaces, after
    all of them but one. -/
theorem last_stores (args : List HeaderArg) (name : Bytes) :
    (args.filterMap (HeaderArg.stores name)).getLast? =
      (args.filter (fun a => decide (a.name = name ∧ a.spaces ≠ 0))).getLast?.map
        (fun a => List.replicate (a.spaces - 1) SP ++ a.value) := by
  rw [← List.getLast?_map]
  congr 1
  induction args with
  | nil => rfl
  | cons a args ih =>
      rw [List.filterMap_cons, List.filter_cons, HeaderArg.stores]
      by_cases h : a.name = name ∧ a.spaces ≠ 0
      · rw [if_pos h, decide_eq_true h, if_pos rfl, List.map_cons]
        dsimp only
        rw [ih]
      · rw [if_neg h, decide_eq_false h, if_neg Bool.false_ne_true]
        exact ih

omit [DecidableEq N] in
/-- A value that is meant does not begin with a space. -/
theorem meant_first (args : List HeaderArg) (name value : Bytes)
    (h : meant args name = some value) : value.head? ≠ some SP := by
  rcases List.mem_filterMap.mp (List.mem_of_getLast? h) with ⟨a, _, ha⟩
  unfold HeaderArg.gives at ha
  split_ifs at ha
  rw [← Option.some.inj ha]
  exact a.first

omit [DecidableEq N] in
/-- Something is meant for exactly the names of the arguments. -/
theorem meant_isSome (args : List HeaderArg) (name : Bytes) :
    (meant args name).isSome = true ↔ ∃ a ∈ args, a.name = name := by
  unfold meant
  rw [List.getLast?_isSome]
  constructor
  · intro h
    rcases List.exists_mem_of_ne_nil _ h with ⟨v, hv⟩
    rcases List.mem_filterMap.mp hv with ⟨a, ha, hgives⟩
    unfold HeaderArg.gives at hgives
    split_ifs at hgives with hn
    exact ⟨a, ha, hn⟩
  · rintro ⟨a, ha, hn⟩
    exact List.ne_nil_of_mem (List.mem_filterMap.mpr ⟨a, ha, if_pos hn⟩)

omit [DecidableEq N] in
/-- For the name of an argument, what is stored last is what is meant if and
    only if the argument it comes from is separated by one space. -/
theorem stores_meant (args : List HeaderArg) (name : Bytes)
    (h : (meant args name).isSome = true) :
    (args.filterMap (HeaderArg.stores name)).getLast? = meant args name ↔
      Separated args name := by
  rcases Option.isSome_iff_exists.mp h with ⟨value, hvalue⟩
  rw [last_stores, hvalue, Option.map_eq_some_iff]
  unfold Separated
  rw [hvalue]
  -- The argument is the same on both sides; what is left is its value.
  refine exists_congr (fun a => and_congr_right (fun hlast => ?_))
  have hspaces : a.spaces ≠ 0 :=
    (of_decide_eq_true (List.mem_filter.mp (List.mem_of_getLast? hlast)).2).2
  constructor
  · intro heq
    have hone : a.spaces - 1 = 0 := by
      -- Otherwise the value that is stored begins with a space.
      by_contra hmore
      rcases Nat.exists_eq_succ_of_ne_zero hmore with ⟨k, hk⟩
      rw [hk, List.replicate_succ, List.cons_append] at heq
      exact meant_first args name value hvalue (by rw [← heq, List.head?_cons])
    rw [hone, List.replicate_zero, List.nil_append] at heq
    exact ⟨by omega, by rw [heq]⟩
  · rintro ⟨hone, heq⟩
    rw [hone, Nat.sub_self, List.replicate_zero, List.nil_append]
    exact (Option.some.inj heq).symm

/-- The arguments of `-H` are all kept, and the table has nothing else, if and
    only if for every name among them the last one with spaces after the colon
    has one, and the same value as the last of all. -/
theorem headers_kept_iff (args : List HeaderArg) :
    Kept args (scriptHeaders (args.map HeaderArg.bytes) : Headers N) ↔
      ∀ a ∈ args, Separated args a.name := by
  constructor
  · intro h a ha
    refine (stores_meant args a.name ((meant_isSome args a.name).mpr ⟨a, ha, rfl⟩)).mp ?_
    have hk := h (.string a.name)
    rw [scriptHeaders_lookup] at hk
    exact Option.map_injective (fun _ _ => Scalar.string.inj) hk
  · intro h k
    rw [scriptHeaders_lookup]
    cases k with
    | string name =>
        dsimp only
        by_cases hname : (meant args name).isSome = true
        · rcases (meant_isSome args name).mp hname with ⟨a, ha, hn⟩
          rw [(stores_meant args name hname).mpr (hn ▸ h a ha)]
        · -- Nothing is stored under a name that no argument has.
          have hnone : args.filterMap (HeaderArg.stores name) = [] := by
            refine List.filterMap_eq_nil_iff.mpr (fun a ha => if_neg (fun hs => ?_))
            exact hname ((meant_isSome args name).mpr ⟨a, ha, hs.1⟩)
          rw [hnone, Option.not_isSome_iff_eq_none.mp hname]
          rfl
    | _ => rfl

/-- `-H'accept-encoding:gzip, deflate'` -/
def unseparated : HeaderArg where
  name := HttpParser.bytes "accept-encoding"
  spaces := 0
  value := HttpParser.bytes "gzip, deflate"
  named := by decide
  plain := by decide +kernel
  text := ⟨by decide +kernel, by decide +kernel⟩
  first := by decide

/-- It is lost. -/
theorem unseparated_lost :
    (scriptHeaders [unseparated.bytes] : Headers Int).entries = [] ∧
      ¬Kept [unseparated] (scriptHeaders [unseparated.bytes] : Headers Int) := by
  refine ⟨by decide +kernel, fun h => ?_⟩
  have hone := h (.string (HttpParser.bytes "accept-encoding"))
  exact absurd hone (by decide +kernel)

end Create

end Script

end Wrk
