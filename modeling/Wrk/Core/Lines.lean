import Mathlib.Data.List.Basic

/-!
# Lines and Heads

A text made of lines, each ended by a carriage return and a line feed, up to
the first empty line. The text is taken apart as a reader does it, which knows
no more of it than where the ends of lines are.

## Main definitions

* `splitLine`: The first line, and what follows it.
* `splitHead`: The lines before the first empty one, and what follows that.

## Theorems

* `splitHead_lines`: Lines put together are taken apart again.
* `split_at_char`: A text up to a character.
-/

namespace Wrk

namespace Lines

/-- The end of a line. -/
def endOfLine : List UInt8 := [13, 10]

/-- The first line of a text, and what follows it. -/
def splitLine : List UInt8 → Option (List UInt8 × List UInt8)
  | [] => none
  | b :: text =>
      if b = 13 ∧ text.head? = some 10 then some ([], text.tail)
      else (splitLine text).map (fun x => (b :: x.1, x.2))

/-- The lines before the first empty line, and what follows that. Every line
    takes up some of the text, so its length bounds their number. -/
def splitHead : Nat → List UInt8 → Option (List (List UInt8) × List UInt8)
  | 0, _ => none
  | fuel + 1, text =>
      match splitLine text with
      | none => none
      | some ([], rest) => some ([], rest)
      | some (line, rest) => (splitHead fuel rest).map (fun x => (line :: x.1, x.2))

theorem splitLine_append (line rest : List UInt8) (h : 13 ∉ line) :
    splitLine (line ++ endOfLine ++ rest) = some (line, rest) := by
  induction line with
  | nil => rfl
  | cons b line ih =>
      rw [List.mem_cons, not_or] at h
      rw [List.cons_append, List.cons_append, splitLine, if_neg (fun hb => h.1 hb.1.symm), ih h.2,
        Option.map_some]

/-- Lines that are put together, none of them empty, are taken apart again. -/
theorem splitHead_lines (lines : List (List UInt8)) (rest : List UInt8) (fuel : Nat)
    (h : ∀ l ∈ lines, l ≠ [] ∧ 13 ∉ l) (hfuel : lines.length < fuel) :
    splitHead fuel (lines.flatMap (fun l => l ++ endOfLine) ++ endOfLine ++ rest) =
      some (lines, rest) := by
  induction lines generalizing fuel with
  | nil =>
      cases fuel with
      | zero => exact absurd hfuel (Nat.not_lt_zero _)
      | succ fuel => rfl
  | cons l lines ih =>
      cases fuel with
      | zero => exact absurd hfuel (Nat.not_lt_zero _)
      | succ fuel =>
          rcases h l List.mem_cons_self with ⟨hne, hcr⟩
          have hrest := ih fuel (fun m hm => h m (List.mem_cons_of_mem _ hm))
            (Nat.lt_of_succ_lt_succ hfuel)
          have hline := splitLine_append l
            (lines.flatMap (fun l => l ++ endOfLine) ++ endOfLine ++ rest) hcr
          -- The first line is taken off, and the rest is a head again.
          have htext : (l :: lines).flatMap (fun l => l ++ endOfLine) ++ endOfLine ++ rest =
              l ++ endOfLine ++ (lines.flatMap (fun l => l ++ endOfLine) ++ endOfLine ++ rest) := by
            simp only [List.flatMap_cons, List.append_assoc]
          rw [htext, splitHead, hline]
          cases l with
          | nil => exact absurd rfl hne
          | cons b l =>
              dsimp only
              rw [hrest, Option.map_some]

/-- A text up to the first of some character, and from there on. -/
theorem split_at_char (c : UInt8) (text rest : List UInt8) (h : c ∉ text) :
    (text ++ c :: rest).takeWhile (· ≠ c) = text ∧
      (text ++ c :: rest).dropWhile (· ≠ c) = c :: rest := by
  have htext : ∀ b ∈ text, decide (b ≠ c) = true := by
    intro b hb
    exact decide_eq_true (fun hc => h (hc ▸ hb))
  have hc : decide (c ≠ c) = false := decide_eq_false (fun hc => hc rfl)
  refine ⟨?_, ?_⟩
  · rw [List.takeWhile_append_of_pos htext, List.takeWhile_cons, hc, if_neg Bool.false_ne_true,
      List.append_nil]
  · rw [List.dropWhile_append_of_pos htext, List.dropWhile_cons, hc, if_neg Bool.false_ne_true]

/-- As many lines as there are take up at least as many bytes. -/
theorem length_le_lines (lines : List (List UInt8)) :
    lines.length ≤ (lines.flatMap (fun l => l ++ endOfLine)).length := by
  induction lines with
  | nil => exact Nat.zero_le _
  | cons l lines ih =>
      rw [List.flatMap_cons, List.length_append, List.length_append, List.length_cons]
      have hend : endOfLine.length = 2 := rfl
      omega

end Lines

end Wrk
