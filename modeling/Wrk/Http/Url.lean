import Wrk.HttpParser.Types

/-!
# Parts of a URL

Where the path, the query and the fragment of a URL are, by the generic
grammar: what follows the authority is a path up to a question mark or a
number sign, a query if a question mark ends the path, up to a number sign,
and a fragment. A query or a fragment may be empty, which is not the same as
none.

## Main definitions

* `afterAuthority`: What follows the authority of a URL.
* `pathPart`, `queryPart`, `fragmentPart`: Its parts.
* `target`: What a request for the URL asks for.

## Theorems

* `parts_join`: The parts put together.
* `target_eq_iff`: When there is nothing besides the target.
-/

namespace Wrk

namespace Http

namespace Url

open HttpParser (Byte Bytes bytes)

def COLON : Byte := 58
def SLASH : Byte := 47
def QUESTION : Byte := 63
def NUMBER : Byte := 35

/-- A character that may stand in an authority. -/
def inAuthority (b : Byte) : Bool := b != SLASH && b != QUESTION && b != NUMBER

/-- A character that may stand in a path. -/
def inPath (b : Byte) : Bool := b != QUESTION && b != NUMBER

def inQuery (b : Byte) : Bool := b != NUMBER

/-- What follows the scheme, the colon and two slashes. -/
def afterScheme (url : Bytes) : Bytes := (url.dropWhile (· ≠ COLON)).drop 3

/-- What follows the authority. -/
def afterAuthority (url : Bytes) : Bytes := (afterScheme url).dropWhile inAuthority

/-- The parts of what follows the authority. -/
def pathPart (rest : Bytes) : Bytes := rest.takeWhile inPath

def queryPart (rest : Bytes) : Option Bytes :=
  match rest.dropWhile inPath with
  | [] => none
  | b :: more => if b = QUESTION then some (more.takeWhile inQuery) else none

def fragmentPart (rest : Bytes) : Option Bytes :=
  match rest.dropWhile inQuery with
  | [] => none
  | _ :: more => some more

/-- A part after its delimiter, if there is one. -/
def delimited (delimiter : Byte) : Option Bytes → Bytes
  | none => []
  | some part => delimiter :: part

/-- The path, or a slash if there is none, and the query. -/
def target (rest : Bytes) : Bytes :=
  (if pathPart rest = [] then [SLASH] else pathPart rest) ++ delimited QUESTION (queryPart rest)

/-- What is left of a text begins with a character at which it was cut. -/
theorem dropWhile_head (p : Byte → Bool) (text : Bytes) (b : Byte) (more : Bytes)
    (h : text.dropWhile p = b :: more) : p b = false := by
  have hhead := List.head?_dropWhile_not p text
  rw [h] at hhead
  exact hhead

theorem inQuery_of_inPath (b : Byte) (h : inPath b = true) : inQuery b = true := by
  unfold inPath at h
  exact (Bool.and_eq_true_iff.mp h).2

/-- The fragment is not in the path. -/
theorem drop_path (rest : Bytes) :
    rest.dropWhile inQuery = (rest.dropWhile inPath).dropWhile inQuery := by
  -- A character of the path is no number sign.
  have hpath : ∀ b ∈ rest.takeWhile inPath, inQuery b = true := by
    intro b hb
    exact inQuery_of_inPath b (List.all_eq_true.mp List.all_takeWhile b hb)
  calc rest.dropWhile inQuery
      = (rest.takeWhile inPath ++ rest.dropWhile inPath).dropWhile inQuery := by
        rw [List.takeWhile_append_dropWhile]
    _ = (rest.dropWhile inPath).dropWhile inQuery := List.dropWhile_append_of_pos hpath

/-- The parts put together. -/
theorem parts_join (rest : Bytes) :
    pathPart rest ++ delimited QUESTION (queryPart rest) ++ delimited NUMBER (fragmentPart rest) =
      rest := by
  have hsplit : pathPart rest ++ rest.dropWhile inPath = rest := List.takeWhile_append_dropWhile
  unfold queryPart fragmentPart
  rw [drop_path]
  cases hd : rest.dropWhile inPath with
  | nil =>
      rw [hd] at hsplit
      simpa only [delimited, List.dropWhile_nil, List.append_nil] using hsplit
  | cons b more =>
      rw [hd] at hsplit
      have hb := dropWhile_head inPath rest b more hd
      dsimp only
      by_cases hq : b = QUESTION
      · -- The query goes up to the fragment.
        have hin : inQuery b = true := by
          rw [hq]
          rfl
        have hmore : more.takeWhile inQuery ++ more.dropWhile inQuery = more :=
          List.takeWhile_append_dropWhile
        rw [if_pos hq, List.dropWhile_cons, hin, if_pos rfl]
        cases hf : more.dropWhile inQuery with
        | nil =>
            rw [hf, List.append_nil] at hmore
            simp only [delimited, List.append_nil]
            rw [hmore, ← hq]
            exact hsplit
        | cons c text =>
            rw [hf] at hmore
            have hc := dropWhile_head inQuery more c text hf
            have hnum : c = NUMBER := by simpa [inQuery] using hc
            simp only [delimited]
            rw [List.append_assoc, List.cons_append, ← hnum, hmore, ← hq]
            exact hsplit
      · -- What ends the path is a number sign, so there is no query.
        have hnum : b = NUMBER := by
          unfold inPath at hb
          simpa [hq] using hb
        have hin : inQuery b = false := by
          rw [hnum]
          rfl
        rw [if_neg hq, List.dropWhile_cons, hin, if_neg Bool.false_ne_true]
        simp only [delimited, List.append_nil]
        rw [← hnum]
        exact hsplit

theorem delimited_eq_nil_iff (delimiter : Byte) (part : Option Bytes) :
    delimited delimiter part = [] ↔ part = none := by
  cases part with
  | none => exact iff_of_true rfl rfl
  | some part => exact iff_of_false (List.cons_ne_nil _ _) (Option.some_ne_none part)

/-- What follows the authority is the target if it begins with a slash and has
    no fragment. -/
theorem target_eq_iff (more : Bytes) :
    target (SLASH :: more) = SLASH :: more ↔ fragmentPart (SLASH :: more) = none := by
  have hjoin := parts_join (SLASH :: more)
  have hpath : pathPart (SLASH :: more) ≠ [] := List.cons_ne_nil _ _
  unfold target
  -- Both sides say that nothing is left after the query.
  rw [if_neg hpath, ← delimited_eq_nil_iff NUMBER]
  constructor
  · intro h
    rw [h] at hjoin
    exact List.append_right_eq_self.mp hjoin
  · intro h
    rw [h, List.append_nil] at hjoin
    exact hjoin

/-- The target when there is no path. -/
theorem target_query (more : Bytes) :
    target (QUESTION :: more) = SLASH :: QUESTION :: more.takeWhile inQuery := rfl

end Url

end Http

end Wrk
