import Wrk.Core.Decimal
import Wrk.Core.Word
import Mathlib.Data.List.TakeWhile

/-!
# Scanning Numbers and Words

Two conversions of `scanf`: a decimal number as an unsigned word, and a word
of at most so many characters. Both skip white space first. A number may have
a sign; one that does not fit is the greatest word, and one with a minus is
taken from zero, as `strtoull` does it.

What a conversion finds is determined by how the text is put together, which
is how facts about scanned texts are proved.

## Main definitions

* `Numeral`: A sign and digits, with its value.
* `readNumeral`: The numeral a text begins with, and what follows it.
* `Numeral.toUint64`: The word that is stored for it.
* `readWord`: The word a text begins with.

## Theorems

* `readNumeral_iff`: The numeral of a text, by the parts of the text.
* `readWord_word`, `readWord_some`: The word of a text.
* `toUint64_of_fits`: A number that fits is stored as it is.
-/

namespace Wrk

namespace Scanf

/-- `isspace`. -/
def isSpace (b : UInt8) : Bool := b == 32 || (9 ≤ b && b ≤ 13)

def isDigit (b : UInt8) : Bool := decide (b ∈ Decimal.digitBytes)

/-- A numeral: whether it has a minus, and its digits. -/
structure Numeral where
  negative : Bool
  digits : List UInt8
  deriving DecidableEq, Repr

namespace Numeral

/-- The value without the sign, and with it. -/
def magnitude (x : Numeral) : Nat := Decimal.readFrom 0 x.digits

def value (x : Numeral) : Int := if x.negative then -(x.magnitude : Int) else x.magnitude

/-- `strtoull`. -/
def toUint64 (x : Numeral) : Nat :=
  if uint64Max < x.magnitude then uint64Max
  else if x.negative then wrap64 (2 ^ 64 - x.magnitude)
  else x.magnitude

end Numeral

/-- An optional sign. -/
def readSign : List UInt8 → Bool × List UInt8
  | [] => (false, [])
  | b :: s => if b = 45 then (true, s) else if b = 43 then (false, s) else (false, b :: s)

/-- The conversion of a number: the numeral after white space, and what
    follows it. -/
def readNumeral (s : List UInt8) : Option (Numeral × List UInt8) :=
  let r := readSign (s.dropWhile isSpace)
  let digits := r.2.takeWhile isDigit
  if digits = [] then none else some (⟨r.1, digits⟩, r.2.dropWhile isDigit)

/-- The conversion of a word of at most `n` characters. It fails at the end of
    the text. -/
def readWord (n : Nat) (s : List UInt8) : Option (List UInt8) :=
  let s := s.dropWhile isSpace
  if s = [] then none else some ((s.take n).takeWhile (fun b => !isSpace b))

/-- The text of a sign. -/
def IsSign (negative : Bool) (sign : List UInt8) : Prop :=
  if negative then sign = [45] else sign = [] ∨ sign = [43]

/-! ### Numerals -/

theorem digit_plain (b : UInt8) (h : isDigit b = true) : isSpace b = false ∧ b ≠ 45 ∧ b ≠ 43 := by
  have hall : ∀ b ∈ Decimal.digitBytes, isSpace b = false ∧ b ≠ 45 ∧ b ≠ 43 := by
    decide +kernel
  exact hall b (of_decide_eq_true h)

theorem sign_plain (negative : Bool) (sign : List UInt8) (h : IsSign negative sign) :
    ∀ b ∈ sign, isSpace b = false := by
  unfold IsSign at h
  intro b hb
  split_ifs at h
  · -- The sign is a minus.
    rw [h, List.mem_singleton] at hb
    rw [hb]
    decide
  · rcases h with h | h
    · rw [h] at hb
      exact absurd hb List.not_mem_nil
    · rw [h, List.mem_singleton] at hb
      rw [hb]
      decide

theorem readSign_sign (negative : Bool) (sign digits rest : List UInt8) (h : IsSign negative sign)
    (hne : digits ≠ []) (hdigits : ∀ b ∈ digits, isDigit b = true) :
    readSign (sign ++ (digits ++ rest)) = (negative, digits ++ rest) := by
  unfold IsSign at h
  cases negative with
  | true =>
      rw [if_pos rfl] at h
      rw [h]
      rfl
  | false =>
      rw [if_neg Bool.false_ne_true] at h
      rcases h with h | h
      · -- Without a sign the first character is a digit.
        rw [h, List.nil_append]
        cases digits with
        | nil => exact absurd rfl hne
        | cons b bs =>
            rcases digit_plain b (hdigits b List.mem_cons_self) with ⟨_, hminus, hplus⟩
            rw [List.cons_append, readSign, if_neg hminus, if_neg hplus]
      · rw [h]
        rfl

theorem readSign_split (s : List UInt8) :
    ∃ sign, IsSign (readSign s).1 sign ∧ s = sign ++ (readSign s).2 := by
  cases s with
  | nil => exact ⟨[], Or.inl rfl, rfl⟩
  | cons b s =>
      simp only [readSign]
      -- One character is looked at.
      by_cases hminus : b = 45
      · rw [if_pos hminus]
        exact ⟨[45], rfl, by rw [hminus]; rfl⟩
      · rw [if_neg hminus]
        by_cases hplus : b = 43
        · rw [if_pos hplus]
          exact ⟨[43], Or.inr rfl, by rw [hplus]; rfl⟩
        · rw [if_neg hplus]
          exact ⟨[], Or.inl rfl, rfl⟩

/-- A run of characters of one kind ends where another kind begins. -/
theorem span_append (p : UInt8 → Bool) (run rest : List UInt8) (hrun : ∀ b ∈ run, p b = true)
    (hrest : ∀ b ∈ rest.head?, p b = false) :
    (run ++ rest).takeWhile p = run ∧ (run ++ rest).dropWhile p = rest := by
  rw [List.takeWhile_append_of_pos hrun, List.dropWhile_append_of_pos hrun]
  cases rest with
  | nil => exact ⟨List.append_nil run, rfl⟩
  | cons b rest =>
      have hb : ¬ p b = true := by
        rw [hrest b rfl]
        exact Bool.false_ne_true
      rw [List.takeWhile_cons, if_neg hb, List.dropWhile_cons, if_neg hb, List.append_nil]
      exact ⟨rfl, rfl⟩

theorem dropWhile_head (p : UInt8 → Bool) (s : List UInt8) :
    ∀ b ∈ (s.dropWhile p).head?, p b = false := by
  intro b hb
  have hne : s.dropWhile p ≠ [] := by
    intro hnil
    rw [hnil] at hb
    cases hb
  have hhead := List.head_dropWhile_not p hne
  rw [List.head?_eq_some_head hne, Option.mem_some] at hb
  rw [← hb]
  exact hhead

/-- A text begins with a numeral if and only if it is white space, a sign,
    digits, and something that does not go on with a digit. -/
theorem readNumeral_iff (s : List UInt8) (x : Numeral) (rest : List UInt8) :
    readNumeral s = some (x, rest) ↔ ∃ lead sign, s = lead ++ (sign ++ (x.digits ++ rest)) ∧
      (∀ b ∈ lead, isSpace b = true) ∧ IsSign x.negative sign ∧ x.digits ≠ [] ∧
        (∀ b ∈ x.digits, isDigit b = true) ∧ ∀ b ∈ rest.head?, isDigit b = false := by
  unfold readNumeral
  dsimp only
  constructor
  · intro h
    split_ifs at h with hne
    rw [Option.some.injEq, Prod.mk.injEq] at h
    rcases h with ⟨rfl, rfl⟩
    rcases readSign_split (s.dropWhile isSpace) with ⟨sign, hsign, hsplit⟩
    refine ⟨s.takeWhile isSpace, sign, ?_, fun b hb => List.mem_takeWhile_imp hb, hsign, hne,
      fun b hb => List.mem_takeWhile_imp hb, dropWhile_head isDigit _⟩
    rw [List.takeWhile_append_dropWhile, ← hsplit, List.takeWhile_append_dropWhile]
  · rintro ⟨lead, sign, rfl, hlead, hsign, hne, hdigits, hrest⟩
    -- After white space comes the sign, or else the first digit.
    have hstart : ∀ b ∈ (sign ++ (x.digits ++ rest)).head?, isSpace b = false := by
      intro b hb
      cases hs : sign with
      | nil =>
          cases hd : x.digits with
          | nil => exact absurd hd hne
          | cons c cs =>
              rw [hs, hd, List.nil_append, List.cons_append, List.head?_cons, Option.mem_some] at hb
              rw [← hb]
              exact (digit_plain c (hdigits c (by rw [hd]; exact List.mem_cons_self))).1
      | cons c cs =>
          rw [hs, List.cons_append, List.head?_cons, Option.mem_some] at hb
          rw [← hb]
          exact sign_plain _ _ hsign c (by rw [hs]; exact List.mem_cons_self)
    rw [(span_append isSpace lead _ hlead hstart).2,
      readSign_sign x.negative sign x.digits rest hsign hne hdigits]
    rcases span_append isDigit x.digits rest hdigits hrest with ⟨htake, hdrop⟩
    dsimp only
    rw [htake, hdrop, if_neg hne]

theorem value_of_nonneg (x : Numeral) (h : 0 ≤ x.value) : x.value = x.magnitude := by
  unfold Numeral.value at h ⊢
  split_ifs at h ⊢ <;> omega

/-- A number that is not negative and fits is stored as it is. -/
theorem toUint64_of_fits (x : Numeral) (h : 0 ≤ x.value) (hfits : x.magnitude < 2 ^ 64) :
    x.toUint64 = x.magnitude := by
  unfold Numeral.toUint64 Numeral.value at *
  have hmax : ¬ uint64Max < x.magnitude := by
    unfold uint64Max
    omega
  rw [if_neg hmax]
  cases hneg : x.negative with
  | false => exact if_neg Bool.false_ne_true
  | true =>
      rw [hneg, if_pos rfl] at h
      -- Only zero may have a minus.
      have hzero : x.magnitude = 0 := by omega
      rw [if_pos rfl, hzero]
      rfl

/-- The digits of a number in decimal are a numeral of that value. -/
theorem readNumeral_natText (n : Nat) (rest : List UInt8)
    (hrest : ∀ b ∈ rest.head?, isDigit b = false) :
    readNumeral (Decimal.natText n ++ rest) = some (⟨false, Decimal.natText n⟩, rest) := by
  refine (readNumeral_iff _ _ _).mpr ⟨[], [], rfl, fun b hb => absurd hb List.not_mem_nil,
    Or.inl rfl, Decimal.natText_ne_nil n, fun b hb => ?_, hrest⟩
  exact decide_eq_true (Decimal.natText_digits n b hb)

/-! ### Words -/

/-- A word is what the text begins with after white space. -/
theorem readWord_some (n : Nat) (s word : List UInt8) (hn : 0 < n) (h : readWord n s = some word) :
    word ≠ [] ∧ word.length ≤ n ∧ ∀ b ∈ word, isSpace b = false := by
  unfold readWord at h
  dsimp only at h
  split_ifs at h with hnil
  rw [Option.some.injEq] at h
  rw [← h]
  refine ⟨fun hword => ?_, ?_, fun b hb => ?_⟩
  · -- The first character after white space belongs to the word.
    cases hs : s.dropWhile isSpace with
    | nil => exact hnil hs
    | cons b bs =>
        have hb := dropWhile_head isSpace s b (by rw [hs]; rfl)
        rw [hs, ← Nat.succ_pred_eq_of_pos hn, List.take_succ_cons, List.takeWhile_cons, hb,
          Bool.not_false, if_pos rfl] at hword
        exact absurd hword (List.cons_ne_nil _ _)
  · exact Nat.le_trans (List.takeWhile_sublist _).length_le (List.length_take_le _ _)
  · have hspace := List.mem_takeWhile_imp hb
    rw [Bool.not_eq_true'] at hspace
    exact hspace

/-- A short word after white space. -/
theorem readWord_word (n : Nat) (blanks word : List UInt8)
    (hblanks : ∀ b ∈ blanks, isSpace b = true) (hne : word ≠ [])
    (hword : ∀ b ∈ word, isSpace b = false) (hlen : word.length ≤ n) :
    readWord n (blanks ++ word) = some word ∧ (blanks ++ word).dropWhile isSpace = word := by
  have hdrop : (blanks ++ word).dropWhile isSpace = word := by
    refine (span_append isSpace blanks word hblanks fun b hb => ?_).2
    exact hword b (List.mem_of_mem_head? hb)
  refine ⟨?_, hdrop⟩
  unfold readWord
  dsimp only
  rw [hdrop, if_neg hne, List.take_of_length_le hlen, List.takeWhile_eq_self_iff.mpr]
  intro b hb
  rw [hword b hb]
  rfl

end Scanf

end Wrk
