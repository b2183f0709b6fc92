import Mathlib.Algebra.Order.Floor.Semiring
import Mathlib.Data.Nat.Digits.Lemmas
import Mathlib.Data.Rat.Floor
import Mathlib.Tactic.FieldSimp
import Mathlib.Tactic.Linarith

/-!
# Decimal Texts

Numbers printed with a fixed number of decimals, as `printf` does, and read
back. A number is rounded to the nearest one that can be printed, and a tie
goes to the even one.

## Main definitions

* `roundHalfEven`: The nearest natural number.
* `fixedText`, `fixed`: A number with so many decimals.
* `readDecimal`: The value of such a text.

## Theorems

* `readDecimal_fixedText`: What is printed is read back.
* `fixedText_symbols`: It consists of digits and a point.
* `natText_length_le_iff`: How long a number is.
* `roundHalfEven_eq_zero`, `roundHalfEven_lt_iff`: What is rounded to zero, and
  to less than an even number.
-/

namespace Wrk

namespace Decimal

/-- The ten digits, and the point. -/
def digitBytes : List UInt8 := [48, 49, 50, 51, 52, 53, 54, 55, 56, 57]

def point : UInt8 := 46

/-- One digit. -/
def digitByte (d : Nat) : UInt8 := UInt8.ofNat (48 + d)

/-- The value of a digit. -/
def digitValue (b : UInt8) : Nat := b.toNat - 48

/-- A natural number in decimal. -/
def natText (n : Nat) : List UInt8 :=
  if n = 0 then [48] else (Nat.digits 10 n).reverse.map digitByte

/-- Its last digits, as many as are asked for. -/
def lastDigits : Nat → Nat → List UInt8
  | 0, _ => []
  | p + 1, n => lastDigits p (n / 10) ++ [digitByte (n % 10)]

/-- So many units of the last of `p` decimals. -/
def fixedText (p n : Nat) : List UInt8 :=
  natText (n / 10 ^ p) ++ if p = 0 then [] else point :: lastDigits p n

/-- The value of digits that follow others of a known value. -/
def readFrom (n : Nat) (w : List UInt8) : Nat := w.foldl (fun n b => 10 * n + digitValue b) n

/-- The value of a text of digits, with or without decimals. -/
def readDecimal (w : List UInt8) : Option ℚ :=
  let whole := w.takeWhile (fun b => decide (b ∈ digitBytes))
  match w.dropWhile (fun b => decide (b ∈ digitBytes)) with
  | [] => if whole = [] then none else some (readFrom 0 whole)
  | b :: decimals =>
      if b = point ∧ decimals.all (fun d => decide (d ∈ digitBytes)) then
        some (readFrom 0 (whole ++ decimals) / 10 ^ decimals.length)
      else none

section Round

variable {K : Type*} [Field K] [LinearOrder K] [FloorSemiring K]

/-- The nearest natural number, and the even one of two. -/
def roundHalfEven (x : K) : Nat :=
  let n := ⌊x⌋₊
  if x - n < 1 / 2 then n else if 1 / 2 < x - n then n + 1 else if n % 2 = 0 then n else n + 1

/-- A number in units of the last of so many decimals. -/
def inDecimals (p : Nat) (x : K) : Nat := roundHalfEven (x * 10 ^ p)

/-- Print a number with so many decimals. -/
def fixed (p : Nat) (x : K) : List UInt8 := fixedText p (inDecimals p x)

theorem roundHalfEven_eq_zero [IsStrictOrderedRing K] (x : K) (hx : 0 ≤ x) :
    roundHalfEven x = 0 ↔ x ≤ 1 / 2 := by
  unfold roundHalfEven
  dsimp only
  have hfloor := Nat.floor_le hx
  have hlt := Nat.lt_floor_add_one x
  rcases Nat.eq_zero_or_pos ⌊x⌋₊ with hzero | hpos
  · rw [hzero, Nat.cast_zero, sub_zero]
    by_cases hlow : x < 1 / 2
    · rw [if_pos hlow]
      exact ⟨fun _ => le_of_lt hlow, fun _ => rfl⟩
    · rw [if_neg hlow]
      by_cases hhigh : 1 / 2 < x
      · rw [if_pos hhigh]
        exact ⟨fun h => absurd h (Nat.succ_ne_zero 0), fun h => absurd hhigh (not_lt.mpr h)⟩
      · rw [if_neg hhigh, if_pos rfl]
        exact ⟨fun _ => not_lt.mp hhigh, fun _ => rfl⟩
  · have hone : (1 : K) ≤ (⌊x⌋₊ : K) := by exact_mod_cast hpos
    have hbig : ¬ x ≤ 1 / 2 := by
      rw [not_le]
      linarith
    refine ⟨fun h => absurd h ?_, fun h => absurd h hbig⟩
    split_ifs
    · exact Nat.ne_of_gt hpos
    · exact not_false
    · exact Nat.ne_of_gt hpos
    · exact not_false

/-- A natural number is its own nearest one. -/
theorem roundHalfEven_natCast [IsStrictOrderedRing K] (n : Nat) : roundHalfEven (n : K) = n := by
  unfold roundHalfEven
  dsimp only
  rw [Nat.floor_natCast, sub_self, if_pos (by norm_num)]

/-- What is rounded to less than an even number is more than a half below
    it. -/
theorem roundHalfEven_lt_iff [IsStrictOrderedRing K] (x : K) (hx : 0 ≤ x) (m : Nat)
    (heven : m % 2 = 0) : roundHalfEven x < m ↔ x < m - 1 / 2 := by
  have hfloor := Nat.floor_le hx
  have hlt := Nat.lt_floor_add_one x
  unfold roundHalfEven
  dsimp only
  generalize ⌊x⌋₊ = n at *
  -- The floor is far below the number, just below it, or not below it.
  rcases Nat.lt_trichotomy (n + 1) m with hn | hn | hn
  · have hcast : (n : K) + 1 + 1 ≤ m := by exact_mod_cast hn
    refine ⟨fun _ => by linarith, fun _ => ?_⟩
    split_ifs <;> omega
  · have hcast : (n : K) + 1 = m := by exact_mod_cast hn
    have hodd : ¬ n % 2 = 0 := by omega
    rw [if_neg hodd, ite_self]
    constructor
    · intro h
      by_contra hge
      rw [if_neg (by linarith)] at h
      omega
    · intro h
      rw [if_pos (by linarith)]
      omega
  · have hcast : (m : K) ≤ n := by exact_mod_cast Nat.le_of_lt_succ hn
    refine ⟨fun h => absurd h ?_, fun h => absurd h (by linarith)⟩
    split_ifs <;> omega

end Round

/-! ### Reading back -/

theorem digitByte_mem (d : Nat) (h : d < 10) : digitByte d ∈ digitBytes := by
  interval_cases d <;> decide

theorem digitValue_digitByte (d : Nat) (h : d < 10) : digitValue (digitByte d) = d := by
  interval_cases d <;> decide

theorem readFrom_append (n : Nat) (w w' : List UInt8) :
    readFrom n (w ++ w') = readFrom (readFrom n w) w' := List.foldl_append

theorem readFrom_natText (n : Nat) : readFrom 0 (natText n) = n := by
  unfold natText
  by_cases hn : n = 0
  · rw [if_pos hn, hn]
    rfl
  · rw [if_neg hn]
    have h : ∀ ds : List Nat, (∀ d ∈ ds, d < 10) →
        readFrom 0 (ds.reverse.map digitByte) = Nat.ofDigits 10 ds := by
      intro ds hds
      induction ds with
      | nil => rfl
      | cons d ds ih =>
          rw [List.reverse_cons, List.map_append, readFrom_append,
            ih (fun e he => hds e (List.mem_cons_of_mem d he)), Nat.ofDigits_cons]
          change 10 * Nat.ofDigits 10 ds + digitValue (digitByte d) = _
          rw [digitValue_digitByte d (hds d List.mem_cons_self)]
          exact Nat.add_comm _ _
    rw [h _ (fun d hd => Nat.digits_lt_base (by norm_num) hd), Nat.ofDigits_digits]

theorem readFrom_lastDigits (p n m : Nat) :
    readFrom m (lastDigits p n) = m * 10 ^ p + n % 10 ^ p := by
  induction p generalizing n with
  | zero =>
      rw [pow_zero, Nat.mod_one, Nat.mul_one]
      rfl
  | succ p ih =>
      rw [lastDigits, readFrom_append, ih]
      change 10 * (m * 10 ^ p + n / 10 % 10 ^ p) + digitValue (digitByte (n % 10)) = _
      rw [digitValue_digitByte _ (Nat.mod_lt _ (by norm_num)), pow_succ', Nat.mod_mul]
      ring

theorem natText_digits (n : Nat) : ∀ b ∈ natText n, b ∈ digitBytes := by
  intro b hb
  unfold natText at hb
  by_cases hn : n = 0
  · rw [if_pos hn, List.mem_singleton] at hb
    rw [hb]
    decide
  · rw [if_neg hn] at hb
    rcases List.mem_map.mp hb with ⟨d, hd, rfl⟩
    exact digitByte_mem d (Nat.digits_lt_base (by norm_num) (List.mem_reverse.mp hd))

theorem natText_ne_nil (n : Nat) : natText n ≠ [] := by
  unfold natText
  by_cases hn : n = 0
  · rw [if_pos hn]
    exact List.cons_ne_nil _ _
  · rw [if_neg hn]
    intro h
    rw [List.map_eq_nil_iff, List.reverse_eq_nil_iff] at h
    exact hn (Nat.digits_eq_nil_iff_eq_zero.mp h)

/-- A number has so many digits if and only if it is below that power of
    ten. -/
theorem natText_length_le_iff (n k : Nat) (hk : 0 < k) : (natText n).length ≤ k ↔ n < 10 ^ k := by
  unfold natText
  by_cases hn : n = 0
  · rw [if_pos hn, hn]
    exact ⟨fun _ => Nat.pow_pos (by norm_num), fun _ => hk⟩
  · rw [if_neg hn, List.length_map, List.length_reverse]
    exact Nat.digits_length_le_iff (by norm_num) n

theorem lastDigits_digits (p n : Nat) : ∀ b ∈ lastDigits p n, b ∈ digitBytes := by
  induction p generalizing n with
  | zero => exact fun b hb => absurd hb List.not_mem_nil
  | succ p ih =>
      intro b hb
      rcases List.mem_append.mp hb with hb | hb
      · exact ih _ b hb
      · rw [List.mem_singleton.mp hb]
        exact digitByte_mem _ (Nat.mod_lt _ (by norm_num))

theorem lastDigits_length (p n : Nat) : (lastDigits p n).length = p := by
  induction p generalizing n with
  | zero => rfl
  | succ p ih => rw [lastDigits, List.length_append, ih, List.length_singleton]

/-- A text with decimals is digits, a point, and as many digits more. -/
theorem fixedText_shape (p n : Nat) (hp : p ≠ 0) :
    fixedText p n = natText (n / 10 ^ p) ++ point :: lastDigits p n := by
  unfold fixedText
  rw [if_neg hp]

theorem fixedText_symbols (p n : Nat) : ∀ b ∈ fixedText p n, b ∈ point :: digitBytes := by
  intro b hb
  unfold fixedText at hb
  rcases List.mem_append.mp hb with hb | hb
  · exact List.mem_cons_of_mem _ (natText_digits _ b hb)
  · split_ifs at hb
    · exact absurd hb List.not_mem_nil
    · rcases List.mem_cons.mp hb with rfl | hb
      · exact List.mem_cons_self
      · exact List.mem_cons_of_mem _ (lastDigits_digits p n b hb)

/-- What is printed is read back. -/
theorem readDecimal_fixedText (p n : Nat) (hp : p ≠ 0) :
    readDecimal (fixedText p n) = some ((n : ℚ) / 10 ^ p) := by
  have hpoint : ¬ decide (point ∈ digitBytes) = true := by decide
  have hdigit : ∀ b ∈ natText (n / 10 ^ p), decide (b ∈ digitBytes) = true :=
    fun b hb => decide_eq_true (natText_digits _ b hb)
  have htake : (fixedText p n).takeWhile (fun b => decide (b ∈ digitBytes)) =
      natText (n / 10 ^ p) := by
    rw [fixedText_shape p n hp, List.takeWhile_append_of_pos hdigit,
      List.takeWhile_cons, if_neg hpoint, List.append_nil]
  have hdrop : (fixedText p n).dropWhile (fun b => decide (b ∈ digitBytes)) =
      point :: lastDigits p n := by
    rw [fixedText_shape p n hp, List.dropWhile_append_of_pos hdigit,
      List.dropWhile_cons, if_neg hpoint]
  have hlast : (lastDigits p n).all (fun d => decide (d ∈ digitBytes)) = true :=
    List.all_eq_true.mpr (fun d hd => decide_eq_true (lastDigits_digits p n d hd))
  unfold readDecimal
  rw [htake, hdrop]
  dsimp only
  rw [if_pos ⟨rfl, hlast⟩, readFrom_append, readFrom_natText,
    readFrom_lastDigits, lastDigits_length, Nat.div_add_mod']

end Decimal

end Wrk
