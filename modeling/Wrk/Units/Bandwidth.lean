import Wrk.Core.Regex
import Wrk.Units.Format
import Mathlib.Tactic.NormNum

/-!
# Reading the Bandwidth Back

The last line of a report gives the bytes transferred each second, with a
unit. Three functions of the test scripts read it: `Gbit_from_wrk`,
`sum_band_array` and `parse_band_dir`. They are modelled on the text, with the
regular expressions they hand to `grep`, `sed` and `bash`. Files are lists of
lines. `python` and `awk` compute exactly; an expression that `python` does
not accept leaves nothing.

Each of them has a branch for every unit it knows, and no two know the same.

## Main definitions

* `transferLine`: The line as it is printed.
* `gbitFromWrk`, `sumBandArray`, `parseBandDir`: The functions.
* `Agree`: All of them read the same rate.

## Theorems

* `agree_iff`: The amounts and units for which they do.
-/

namespace Wrk

open HttpParser (Bytes bytes)

open Regex Decimal

open RegularExpression (rmatch_iff_matches')

/-- `%10s`. -/
def padLeft (width : Nat) (text : Bytes) : Bytes :=
  List.replicate (width - text.length) 32 ++ text

/-- The line that `main` prints, without the newline. -/
def transferLine {K : Type*} [Field K] [LinearOrder K] [FloorSemiring K] (n : K) : Bytes :=
  bytes "Transfer/sec: " ++ padLeft 10 (formatBinary n) ++ bytes "B"

/-- A line contains a text. -/
def contains (text line : Bytes) : Bool := decide (text <:+: line)

/-! ### The expressions -/

def digit : RegularExpression UInt8 := anyOf digitBytes

def upper : RegularExpression UInt8 := anyOf (bytes "ABCDEFGHIJKLMNOPQRSTUVWXYZ")

def spaceBytes : Bytes := [32, 9, 10, 11, 12, 13]

/-- Any symbol at all. -/
def anyByte : Bytes := (List.range 256).map UInt8.ofNat

/-- `[0-9]+\.?[0-9]*` -/
def numberPattern : RegularExpression UInt8 := some1 digit * (opt (.char point) * digit.star)

/-- `[A-Z][A-Z]?` -/
def unitPattern : RegularExpression UInt8 := upper * opt upper

/-- `[0-9]+\.?[0-9]*[A-Z][A-Z]?` -/
def tokenPattern : RegularExpression UInt8 := numberPattern * unitPattern

/-- `(B|KB|MB|GB)` -/
def unitNames : RegularExpression UInt8 :=
  word (bytes "B") + (word (bytes "KB") + (word (bytes "MB") + word (bytes "GB")))

/-- `([0-9][0-9]*\.?[0-9]*)` -/
def bandNumber : RegularExpression UInt8 :=
  digit * (digit.star * (opt (.char point) * digit.star))

/-- `Transfer\/sec:\s*` -/
def linePrefix : RegularExpression UInt8 := word (bytes "Transfer/sec:") * (anyOf spaceBytes).star

/-- `([0-9]*.[0-9]*)` -/
def lineNumber : RegularExpression UInt8 := digit.star * (anyOf anyByte * digit.star)

/-! ### The functions -/

/-- `Gbit_from_wrk`. The test for a unit is not anchored. In the branch for
    bytes the quotient goes to the variable of the unit. -/
def gbitFromWrk (file : List Bytes) : Option ℚ :=
  let tot := ((file.filter (fun l => !contains (bytes "Ready") l)).filter
    (contains (bytes "Transfer"))).flatMap (findAll tokenPattern)
  let tok := tot.headD []
  let totNum :=
    match findAll numberPattern tok with
    | [t] => (readDecimal t).map (fun v => 8 * v)
    | _ => none
  let totP := [10].intercalate (findAll unitPattern tok)
  match search unitNames totP with
  | none => none
  | some m =>
      if m.2.1 = bytes "MB" then totNum.map (fun v => v / 1024)
      else if m.2.1 = bytes "KB" then totNum.map (fun v => v / 1024 / 1024)
      else if m.2.1 = bytes "B" then totNum
      else if m.2.1 = bytes "GB" then totNum
      else none

/-- One value of `sum_band_array`, in GB. Nothing is left of a token that does
    not match. -/
def bandValue (token : Bytes) : Option ℚ :=
  (search (bandNumber * unitNames) token).bind (fun m =>
    (split bandNumber unitNames m.2.1).bind (fun g =>
      let v := readDecimal g.1
      if g.2 = bytes "MB" then v.map (fun v => v / 1024)
      else if g.2 = bytes "KB" then v.map (fun v => v / 1024 / 1024)
      else if g.2 = bytes "B" then v.map (fun v => v / 1024 / 1024 / 1024)
      else v))

/-- `sum_band_array`. Adding nothing is an error, and leaves nothing; what is
    added to nothing is itself. -/
def sumBandArray (tokens : List Bytes) : Option ℚ :=
  tokens.foldl (fun sum token => (bandValue token).map (fun v => sum.getD 0 + v)) (some 0)

/-- The line that `sed` prints for a line that matches. -/
def sedLine (line : Bytes) : Option Bytes :=
  (search (linePrefix * (lineNumber * unitNames)) line).bind (fun m =>
    (split linePrefix (lineNumber * unitNames) m.2.1).bind (fun g =>
      (split lineNumber unitNames g.2).map (fun h => m.1 ++ h.1 ++ [32] ++ h.2 ++ m.2.2)))

/-- The words of a text. -/
def words (text : Bytes) : List Bytes :=
  (text.splitOnP (fun b => decide (b ∈ spaceBytes))).filter (fun w => decide (w ≠ []))

/-- What `awk` adds for the words of one file. -/
def bandGbit (fields : List Bytes) : ℚ :=
  let v := (readDecimal (fields.getD 0 [])).getD 0
  (if contains (bytes "GB") (fields.getD 1 []) then v * 8 else 0) +
    if contains (bytes "MB") (fields.getD 1 []) then v * 8 / 1000 else 0

/-- `parse_band_dir`, with the number it writes to the last file. -/
def parseBandDir (dir : List (List Bytes)) : Option ℚ :=
  let sum := (dir.map (fun file => bandGbit ((file.filterMap sedLine).flatMap words))).sum
  let total := fixed 2 sum ++ bytes " GBit/s total"
  readDecimal (total.filter (fun b => decide (b ∈ digitBytes ∨ b = point)))

/-! ### What is asked of them -/

section Agree

variable {K : Type*} [Field K] [LinearOrder K] [FloorSemiring K]

/-- The amount that is printed, in hundredths, and its unit. -/
def printedAmount (n : K) : Nat :=
  inDecimals 2 (chooseUnit binaryUnits.scale binaryUnits.units n binaryUnits.base).1

def printedUnit (n : K) : Bytes :=
  (chooseUnit binaryUnits.scale binaryUnits.units n binaryUnits.base).2

/-- The bytes of a unit: `B`, `KB`, `MB`, `GB` and `TB`. -/
def unitBytes (unit : Bytes) : ℚ :=
  1024 ^ [[], bytes "K", bytes "M", bytes "G", bytes "T"].idxOf unit

/-- The rate that is printed, in Gbit/s. -/
def printedRate (n : K) : ℚ :=
  8 * ((printedAmount n : ℚ) / 100) * unitBytes (printedUnit n) / 2 ^ 30

/-- All three functions read this rate from the line. The last of them prints
    two decimals. -/
structure Agree (n : K) : Prop where
  gbit : gbitFromWrk [transferLine n] = some (printedRate n)
  sum : (sumBandArray [formatBinary n ++ bytes "B"]).map (fun v => 8 * v) = some (printedRate n)
  dir : parseBandDir [[transferLine n]] = some ((roundHalfEven (printedRate n * 100) : ℚ) / 100)

/-- The amounts, in hundredths, and units that all of them read. -/
def Decodable (amount : Nat) (unit : Bytes) : Prop :=
  unit = bytes "G" ∨ (unit = [] ∧ amount = 0) ∨ (unit = bytes "K" ∧ amount ≤ 65536) ∨
    (unit = bytes "M" ∧
      roundHalfEven ((amount : ℚ) * 8 / 1000) = roundHalfEven ((amount : ℚ) * 8 / 1024))

end Agree

/-! ### The line -/

/-- What precedes the amount. -/
def lineStart (j : Nat) : Bytes := bytes "Transfer/sec: " ++ List.replicate j 32

/-- The units with the letter for bytes. -/
def unitTexts : List Bytes := [bytes "B", bytes "KB", bytes "MB", bytes "GB", bytes "TB"]

theorem lineStart_mem (j : Nat) (b : UInt8) (h : b ∈ lineStart j) :
    b ∈ bytes "Transfer/sec: " := by
  rcases List.mem_append.mp h with h | h
  · exact h
  · rw [List.eq_of_mem_replicate h]
    decide

/-- The symbols of an amount and a unit. -/
theorem token_mem (k : Nat) (u : Bytes) (hu : u ∈ unitTexts) (b : UInt8)
    (h : b ∈ fixedText 2 k ++ u) : b ∈ point :: digitBytes ++ bytes "KMGTB" := by
  rcases List.mem_append.mp h with h | h
  · exact List.mem_append_left _ (fixedText_symbols 2 k b h)
  · exact List.mem_append_right _
      ((by decide +kernel : ∀ u ∈ unitTexts, ∀ b ∈ u, b ∈ bytes "KMGTB") u hu b h)

theorem numberText_mem (k : Nat) : fixedText 2 k ∈ numberPattern.matches' := by
  rw [fixedText_shape 2 k (by norm_num)]
  refine Language.mem_mul.mpr ⟨_, ?_, _, ?_, rfl⟩
  · exact (mem_some1_anyOf digitBytes _).mpr ⟨natText_ne_nil _, natText_digits _⟩
  · refine Language.mem_mul.mpr ⟨[point], (mem_opt _ _).mpr (Or.inl rfl), _, ?_, rfl⟩
    exact (mem_star_anyOf digitBytes _).mpr (lastDigits_digits 2 k)

theorem unitText_mem (u : Bytes) (hu : u ∈ unitTexts) : u ∈ unitPattern.matches' :=
  (rmatch_iff_matches' _ _).mp ((by decide : ∀ u ∈ unitTexts, unitPattern.rmatch u = true) u hu)

/-! ### `Gbit_from_wrk` -/

theorem line_tokens (j k : Nat) (u : Bytes) (hu : u ∈ unitTexts) :
    findAll tokenPattern (lineStart j ++ (fixedText 2 k ++ u)) = [fixedText 2 k ++ u] := by
  have h := findAll_eq tokenPattern (lineStart j) (fixedText 2 k ++ u) [] ?_ (by decide) ?_ ?_
    trivial (fun _ h => absurd h List.not_mem_nil)
  · rwa [List.append_nil] at h
  · exact List.append_ne_nil_of_left_ne_nil (by
      rw [fixedText_shape 2 k (by norm_num)]
      exact List.append_ne_nil_of_left_ne_nil (natText_ne_nil _) _) _
  · intro b hb
    exact (by decide +kernel : ∀ b ∈ bytes "Transfer/sec: ", b ∉ firsts tokenPattern) b
      (lineStart_mem j b hb)
  · exact Language.mem_mul.mpr ⟨_, numberText_mem k, u, unitText_mem u hu, rfl⟩

theorem token_number (k : Nat) (u : Bytes) (hu : u ∈ unitTexts) :
    findAll numberPattern (fixedText 2 k ++ u) = [fixedText 2 k] := by
  refine findAll_eq numberPattern [] (fixedText 2 k) u ?_ (by decide)
    (fun _ h => absurd h List.not_mem_nil) (numberText_mem k)
    ((by decide : ∀ u ∈ unitTexts, Stops numberPattern u) u hu)
    ((by decide +kernel : ∀ u ∈ unitTexts, ∀ b ∈ u, b ∉ firsts numberPattern) u hu)
  rw [fixedText_shape 2 k (by norm_num)]
  exact List.append_ne_nil_of_left_ne_nil (natText_ne_nil _) _

theorem token_unit (k : Nat) (u : Bytes) (hu : u ∈ unitTexts) :
    findAll unitPattern (fixedText 2 k ++ u) = [u] := by
  have h := findAll_eq unitPattern (fixedText 2 k) u []
    ((by decide : ∀ u ∈ unitTexts, u ≠ []) u hu) (by decide) ?_ (unitText_mem u hu) trivial
    (fun _ h => absurd h List.not_mem_nil)
  · rwa [List.append_nil] at h
  · intro b hb
    exact (by decide +kernel : ∀ b ∈ point :: digitBytes, b ∉ firsts unitPattern) b
      (fixedText_symbols 2 k b hb)

theorem contains_false (text line : Bytes) (b : UInt8) (hb : b ∈ text) (h : b ∉ line) :
    contains text line = false :=
  decide_eq_false (fun hpart => h (List.IsInfix.subset hpart hb))

/-- The test for a unit finds bytes in the one that it does not know. -/
theorem unit_found : ∀ u ∈ unitTexts, (search unitNames u).map (fun m => m.2.1) =
    some (if u = bytes "TB" then bytes "B" else u) := by decide

/-- The divisor of `Gbit_from_wrk` for each unit. -/
def gbitDivisor (u : Bytes) : ℚ :=
  if u = bytes "MB" then 1024 else if u = bytes "KB" then 1024 * 1024 else 1

theorem gbitFromWrk_line (j k : Nat) (u : Bytes) (hu : u ∈ unitTexts) :
    gbitFromWrk [lineStart j ++ (fixedText 2 k ++ u)] =
      some (8 * ((k : ℚ) / 10 ^ 2) / gbitDivisor u) := by
  -- The line is not one of those the program leaves out.
  have hready : contains (bytes "Ready") (lineStart j ++ (fixedText 2 k ++ u)) = false := by
    refine contains_false _ _ 82 (by decide) (fun h => ?_)
    rcases List.mem_append.mp h with h | h
    · exact absurd (lineStart_mem j 82 h) (by decide)
    · exact absurd (token_mem k u hu 82 h) (by decide)
  have htransfer : contains (bytes "Transfer") (lineStart j ++ (fixedText 2 k ++ u)) = true := by
    refine decide_eq_true ⟨[], bytes "/sec: " ++ List.replicate j 32 ++ (fixedText 2 k ++ u), ?_⟩
    simp only [lineStart, List.nil_append, ← List.append_assoc]
    rfl
  unfold gbitFromWrk
  simp only [List.filter_cons, hready, Bool.not_false, if_true, List.filter_nil, htransfer,
    List.flatMap_cons, List.flatMap_nil, List.append_nil, line_tokens j k u hu, List.headD_cons,
    token_number k u hu, token_unit k u hu, readDecimal_fixedText 2 k (by norm_num),
    Option.map_some]
  rcases Option.map_eq_some_iff.mp (unit_found u hu) with ⟨m, hm, hname⟩
  rw [List.intercalate_singleton, hm]
  simp only [hname]
  simp only [unitTexts, List.mem_cons, List.not_mem_nil, or_false] at hu
  -- One branch of the program for each unit.
  rcases hu with rfl | rfl | rfl | rfl | rfl
  · simp +decide only [if_true, if_false, gbitDivisor, div_one]
  · simp +decide only [if_true, if_false, gbitDivisor, div_div]
  · simp +decide only [if_true, if_false, gbitDivisor]
  · simp +decide only [if_true, if_false, gbitDivisor, div_one]
  · simp +decide only [if_true, if_false, gbitDivisor, div_one]

/-! ### `sum_band_array` -/

theorem bandNumber_mem (k : Nat) : fixedText 2 k ∈ bandNumber.matches' := by
  rw [fixedText_shape 2 k (by norm_num)]
  have hdigits := natText_digits (k / 10 ^ 2)
  cases hn : natText (k / 10 ^ 2) with
  | nil => exact absurd hn (natText_ne_nil _)
  | cons c cs =>
      rw [hn] at hdigits
      refine Language.mem_mul.mpr ⟨[c], ?_, cs ++ point :: lastDigits 2 k, ?_, rfl⟩
      · exact (mem_anyOf digitBytes [c]).mpr ⟨c, hdigits c List.mem_cons_self, rfl⟩
      · refine Language.mem_mul.mpr ⟨cs, ?_, point :: lastDigits 2 k, ?_, rfl⟩
        · exact (mem_star_anyOf digitBytes cs).mpr
            (fun d hd => hdigits d (List.mem_cons_of_mem c hd))
        · refine Language.mem_mul.mpr ⟨[point], (mem_opt _ _).mpr (Or.inl rfl), _, ?_, rfl⟩
          exact (mem_star_anyOf digitBytes _).mpr (lastDigits_digits 2 k)

theorem unitName_mem (u : Bytes) (hu : u ∈ unitTexts) (hknown : u ≠ bytes "TB") :
    u ∈ unitNames.matches' :=
  (rmatch_iff_matches' _ _).mp
    ((by decide : ∀ u ∈ unitTexts, u ≠ bytes "TB" → unitNames.rmatch u = true) u hu hknown)

/-- The divisor of `sum_band_array` for each unit. -/
def bandDivisor (u : Bytes) : ℚ :=
  if u = bytes "MB" then 1024
  else if u = bytes "KB" then 1024 * 1024
  else if u = bytes "B" then 1024 * 1024 * 1024
  else 1

theorem bandValue_known (k : Nat) (u : Bytes) (hu : u ∈ unitTexts) (hknown : u ≠ bytes "TB") :
    bandValue (fixedText 2 k ++ u) = some ((k : ℚ) / 10 ^ 2 / bandDivisor u) := by
  have hmem : fixedText 2 k ++ u ∈ (bandNumber * unitNames).matches' :=
    Language.mem_mul.mpr ⟨_, bandNumber_mem k, u, unitName_mem u hu hknown, rfl⟩
  have hsearch := search_eq (bandNumber * unitNames) _ [] hmem trivial
  -- The number is the longest prefix there is: no unit begins with a byte that would
  -- belong to it.
  have hsplit := split_eq bandNumber unitNames (fixedText 2 k) u (bandNumber_mem k)
    (unitName_mem u hu hknown) (stops_longer bandNumber _ u
      ((by decide : ∀ u ∈ unitTexts, Stops bandNumber u) u hu))
  rw [List.append_nil] at hsearch
  unfold bandValue
  rw [hsearch]
  simp only [Option.bind_some, hsplit, readDecimal_fixedText 2 k (by norm_num), Option.map_some]
  simp only [unitTexts, List.mem_cons, List.not_mem_nil, or_false] at hu
  rcases hu with rfl | rfl | rfl | rfl | rfl
  · simp +decide only [if_true, if_false, bandDivisor, div_div, mul_assoc]
  · simp +decide only [if_true, if_false, bandDivisor, div_div, mul_assoc]
  · simp +decide only [if_true, if_false, bandDivisor]
  · simp +decide only [if_false, bandDivisor, div_one]
  · exact absurd rfl hknown

theorem unitName_has (b : Bytes) (hb : b ∈ unitNames.matches') : (66 : UInt8) ∈ b := by
  rcases hb with hb | hb | hb | hb
  · rw [(mem_word _ b).mp hb]
    decide
  · rw [(mem_word _ b).mp hb]
    decide
  · rw [(mem_word _ b).mp hb]
    decide
  · rw [(mem_word _ b).mp hb]
    decide

/-- No part of a token with the unit that `sum_band_array` does not know
    matches. -/
theorem bandValue_unknown (k : Nat) : bandValue (fixedText 2 k ++ bytes "TB") = none := by
  have hnone : search (bandNumber * unitNames) (fixedText 2 k ++ bytes "TB") = none := by
    refine search_none _ _ (fun m hpart hm => ?_)
    have hno : (84 : UInt8) ∉ m := fun h =>
      absurd (mem_symbols _ m hm 84 h) (by decide)
    have hsome : (66 : UInt8) ∈ m := by
      rcases Language.mem_mul.mp hm with ⟨a, _, b, hb, rfl⟩
      exact List.mem_append_right a (unitName_has b hb)
    have hnum : ¬ m <:+: fixedText 2 k := fun h =>
      absurd (fixedText_symbols 2 k 66 (List.IsInfix.subset h hsome)) (by decide)
    rcases List.infix_append_iff.mp hpart with h | h | ⟨l, l', rfl, hl, hl'⟩
    · exact hnum h
    · -- Its first symbol is a digit.
      cases m with
      | nil => exact absurd hsome List.not_mem_nil
      | cons c m =>
          exact (by decide +kernel : ∀ c ∈ firsts (bandNumber * unitNames), c ∉ bytes "TB") c
            (mem_firsts _ c m hm) (List.IsInfix.subset h List.mem_cons_self)
    · cases l' with
      | nil =>
          rw [List.append_nil] at hnum
          exact hnum hl.isInfix
      | cons c l' =>
          rcases hl' with ⟨t, ht⟩
          have hc : c = 84 := (List.cons.inj ht).1
          exact hno (hc ▸ List.mem_append_right l List.mem_cons_self)
  unfold bandValue
  rw [hnone]
  rfl

/-! ### `parse_band_dir` -/

theorem lineNumber_mem (k : Nat) : fixedText 2 k ∈ lineNumber.matches' := by
  rw [fixedText_shape 2 k (by norm_num)]
  refine Language.mem_mul.mpr ⟨_, (mem_star_anyOf digitBytes _).mpr (natText_digits _), _, ?_, rfl⟩
  refine Language.mem_mul.mpr ⟨[point], (mem_anyOf anyByte _).mpr ⟨point, ?_, rfl⟩, _, ?_, rfl⟩
  · exact List.mem_map.mpr ⟨46, List.mem_range.mpr (by norm_num), rfl⟩
  · exact (mem_star_anyOf digitBytes _).mpr (lastDigits_digits 2 k)

/-- What is neither a digit nor blank. -/
def plainByte (b : UInt8) : Bool := decide (b ∉ digitBytes ∧ b ∉ spaceBytes)

/-- There is at most one symbol besides the digits in a number, as `sed`
    recognizes it. -/
theorem lineNumber_plain (a : Bytes) (ha : a ∈ lineNumber.matches') :
    (a.filter plainByte).length ≤ 1 := by
  have hdigits : ∀ d, d ∈ digit.star.matches' → d.filter plainByte = [] := by
    intro d hd
    rw [List.filter_eq_nil_iff]
    intro b hb
    have hmem := (mem_star_anyOf digitBytes d).mp hd b hb
    simp only [plainByte, hmem, not_true_eq_false, false_and, decide_false, Bool.false_eq_true,
      not_false_eq_true]
  rcases Language.mem_mul.mp ha with ⟨d, hd, r, hr, rfl⟩
  rcases Language.mem_mul.mp hr with ⟨x, hx, d', hd', rfl⟩
  rcases (mem_anyOf anyByte x).mp hx with ⟨b, _, rfl⟩
  rw [List.filter_append, List.filter_append, hdigits d hd, hdigits d' hd', List.nil_append,
    List.append_nil]
  exact List.length_filter_le _ _

theorem fixedText_plain (k : Nat) : (fixedText 2 k).filter plainByte = [point] := by
  have hdigits : ∀ d : Bytes, (∀ b ∈ d, b ∈ digitBytes) → d.filter plainByte = [] := by
    intro d hd
    rw [List.filter_eq_nil_iff]
    intro b hb
    simp only [plainByte, hd b hb, not_true_eq_false, false_and, decide_false,
      Bool.false_eq_true, not_false_eq_true]
  rw [fixedText_shape 2 k (by norm_num), List.filter_append, hdigits _ (natText_digits _),
    List.filter_cons_of_pos (by decide), hdigits _ (lastDigits_digits 2 k)]
  rfl

theorem lineStart_eq (j : Nat) :
    lineStart j = bytes "Transfer/sec" ++ 58 :: 32 :: List.replicate j 32 := rfl

theorem lineStart_matches (j : Nat) : lineStart j ∈ linePrefix.matches' := by
  refine Language.mem_mul.mpr ⟨_, (mem_word _ _).mpr rfl, 32 :: List.replicate j 32, ?_, rfl⟩
  refine (mem_star_anyOf spaceBytes _).mpr (fun b hb => ?_)
  rcases List.mem_cons.mp hb with rfl | hb
  · decide
  · rw [List.eq_of_mem_replicate hb]
    decide

theorem sedLine_known (j k : Nat) (u : Bytes) (hu : u ∈ unitTexts) (hknown : u ≠ bytes "TB") :
    sedLine (lineStart j ++ (fixedText 2 k ++ u)) = some (fixedText 2 k ++ 32 :: u) := by
  have hunit := unitName_mem u hu hknown
  have hnumber : fixedText 2 k ++ u ∈ (lineNumber * unitNames).matches' :=
    Language.mem_mul.mpr ⟨_, lineNumber_mem k, u, hunit, rfl⟩
  have hsearch := search_eq (linePrefix * (lineNumber * unitNames))
    (lineStart j ++ (fixedText 2 k ++ u)) []
    (Language.mem_mul.mpr ⟨_, lineStart_matches j, _, hnumber, rfl⟩) trivial
  have hstop : Stops linePrefix (fixedText 2 k ++ u) := by
    rw [fixedText_shape 2 k (by norm_num)]
    have hdigits := natText_digits (k / 10 ^ 2)
    cases hn : natText (k / 10 ^ 2) with
    | nil => exact absurd hn (natText_ne_nil _)
    | cons c cs =>
        rw [hn] at hdigits
        exact (by decide +kernel : ∀ c ∈ digitBytes, c ∉ symbols linePrefix) c
          (hdigits c List.mem_cons_self)
  have hsplit := split_eq linePrefix (lineNumber * unitNames) (lineStart j) (fixedText 2 k ++ u)
    (lineStart_matches j) hnumber (stops_longer linePrefix _ _ hstop)
  have hsplit' := split_eq lineNumber unitNames (fixedText 2 k) u (lineNumber_mem k) hunit
    (fun n hn hle hmatch => by
      -- A longer number would have the point and a letter in it.
      have hplain := lineNumber_plain _ ((rmatch_iff_matches' _ _).mp hmatch)
      rcases Nat.exists_eq_add_of_lt hn with ⟨i, hi⟩
      rw [List.take_append, List.take_of_length_le (Nat.le_of_lt hn), List.filter_append,
        fixedText_plain, hi, show (fixedText 2 k).length + i + 1 - (fixedText 2 k).length = i + 1
          by omega] at hplain
      have hletters := (by decide : ∀ u ∈ unitTexts, u ≠ [] ∧ u.filter plainByte = u) u hu
      cases u with
      | nil => exact hletters.1 rfl
      | cons c u =>
          have hc : plainByte c = true := by
            have hmem : c ∈ (c :: u).filter plainByte := by
              rw [hletters.2]
              exact List.mem_cons_self
            exact (List.mem_filter.mp hmem).2
          rw [List.take_succ_cons, List.filter_cons_of_pos hc] at hplain
          simp only [List.length_append, List.length_cons, List.length_nil] at hplain
          omega)
  rw [List.append_nil] at hsearch
  unfold sedLine
  rw [hsearch]
  simp only [Option.bind_some, hsplit, hsplit', Option.map_some, List.nil_append,
    List.append_nil, List.append_assoc, List.singleton_append]

/-- A unit that is known begins with one of these letters. -/
theorem unitName_first (b : Bytes) (hb : b ∈ unitNames.matches') :
    ∃ c t, b = c :: t ∧ plainByte c = true ∧ c ≠ point ∧ c ≠ 84 := by
  cases b with
  | nil => exact absurd (matchEpsilon_of_nil _ hb) (by decide)
  | cons c t =>
      exact ⟨c, t, rfl,
        (by decide +kernel : ∀ c ∈ firsts unitNames, plainByte c = true ∧ c ≠ point ∧ c ≠ 84)
          c (mem_firsts _ c t hb)⟩

/-- `sed` does not know the largest unit either. A match would begin at the
    only colon of the line; the point, the two letters and nothing else would
    be left for a number, with one of them at most, and for a unit. -/
theorem sedLine_unknown (j k : Nat) :
    sedLine (lineStart j ++ (fixedText 2 k ++ bytes "TB")) = none := by
  -- The plain bytes of the line are the letters of the unit.
  have hblank : ∀ d : Bytes, (∀ b ∈ d, b ∈ spaceBytes) → d.filter plainByte = [] := by
    intro d hd
    rw [List.filter_eq_nil_iff]
    intro b hb
    simp only [plainByte, hd b hb, not_true_eq_false, and_false, decide_false,
      Bool.false_eq_true, not_false_eq_true]
  have hspaces : ∀ b ∈ 32 :: List.replicate j (32 : UInt8), b ∈ spaceBytes := by
    intro b hb
    rcases List.mem_cons.mp hb with rfl | hb
    · decide
    · rw [List.eq_of_mem_replicate hb]
      decide
  -- A match would put a letter or a point between the number and the unit.
  have hnone : search (linePrefix * (lineNumber * unitNames))
      (lineStart j ++ (fixedText 2 k ++ bytes "TB")) = none := by
    refine search_none _ _ (fun m hpart hm => ?_)
    rcases Language.mem_mul.mp hm with ⟨p, hp, r, hr, rfl⟩
    rcases Language.mem_mul.mp hp with ⟨w, hw, ws, hws, rfl⟩
    rcases Language.mem_mul.mp hr with ⟨a, ha, b, hb, rfl⟩
    rw [(mem_word _ w).mp hw] at hpart
    rcases hpart with ⟨s, t, hst⟩
    have hafter : ws ++ (a ++ (b ++ t)) =
        32 :: List.replicate j 32 ++ (fixedText 2 k ++ bytes "TB") := by
      have hline : bytes "Transfer/sec" ++ 58 ::
            (32 :: List.replicate j 32 ++ (fixedText 2 k ++ bytes "TB")) =
          s ++ bytes "Transfer/sec" ++ 58 :: (ws ++ (a ++ (b ++ t))) := by
        rw [lineStart_eq] at hst
        simp only [List.append_assoc, List.cons_append] at hst ⊢
        exact hst.symm
      have hbefore : (58 : UInt8) ∉ bytes "Transfer/sec" := by decide
      have honce : (58 : UInt8) ∉
          32 :: List.replicate j 32 ++ (fixedText 2 k ++ bytes "TB") := by
        intro h
        rcases List.mem_append.mp h with h | h
        · exact absurd (hspaces 58 h) (by decide)
        · exact absurd (token_mem k _ (by decide) 58 h) (by decide)
      exact ((List.append_cons_inj_of_notMem hbefore honce).mp hline).2.2.symm
    have hplain := congrArg (List.filter plainByte) hafter
    rcases unitName_first b hb with ⟨c, b', rfl, hc, hpoint, hletter⟩
    rw [List.filter_append, List.filter_append, List.filter_append, List.filter_append,
      List.filter_append, hblank ws ((mem_star_anyOf spaceBytes ws).mp hws), hblank _ hspaces,
      fixedText_plain, List.filter_cons_of_pos hc, List.nil_append, List.nil_append,
      show (bytes "TB").filter plainByte = [84, 66] by decide] at hplain
    have hone := lineNumber_plain a ha
    cases hfa : a.filter plainByte with
    | nil =>
        rw [hfa] at hplain
        exact hpoint (List.cons.inj hplain).1
    | cons x xs =>
        rw [hfa] at hplain hone
        rw [List.length_cons] at hone
        have hxs := List.length_eq_zero_iff.mp (Nat.le_zero.mp (Nat.le_of_succ_le_succ hone))
        rw [hxs] at hplain
        exact hletter (List.cons.inj (List.cons.inj hplain).2).1
  unfold sedLine
  rw [hnone]
  rfl

/-- The factor of `parse_band_dir` for each unit. -/
def dirRate (v : ℚ) (u : Bytes) : ℚ :=
  if u = bytes "GB" then v * 8 else if u = bytes "MB" then v * 8 / 1000 else 0

theorem words_token (k : Nat) (u : Bytes) (hu : u ∈ unitTexts) :
    words (fixedText 2 k ++ 32 :: u) = [fixedText 2 k, u] := by
  have hnum : ∀ b ∈ fixedText 2 k, decide (b ∈ spaceBytes) = false := by
    intro b hb
    exact decide_eq_false
      ((by decide +kernel : ∀ b ∈ point :: digitBytes, b ∉ spaceBytes) b (fixedText_symbols 2 k b hb))
  have hunit : ∀ b ∈ u, decide (b ∈ spaceBytes) = false := fun b hb =>
    decide_eq_false ((by decide +kernel : ∀ u ∈ unitTexts, ∀ b ∈ u, b ∉ spaceBytes) u hu b hb)
  have hne : fixedText 2 k ≠ [] := by
    rw [fixedText_shape 2 k (by norm_num)]
    exact List.append_ne_nil_of_left_ne_nil (natText_ne_nil _) _
  have hune : u ≠ [] := (by decide : ∀ u ∈ unitTexts, u ≠ []) u hu
  unfold words
  rw [List.splitOnP_append_cons_of_forall_mem hnum 32 (by decide), List.splitOnP_eq_singleton hunit,
    List.filter_cons, if_pos (decide_eq_true hne), List.filter_cons, if_pos (decide_eq_true hune),
    List.filter_nil]

theorem bandGbit_line (j k : Nat) (u : Bytes) (hu : u ∈ unitTexts) :
    bandGbit (([lineStart j ++ (fixedText 2 k ++ u)].filterMap sedLine).flatMap words) =
      dirRate ((k : ℚ) / 10 ^ 2) u := by
  by_cases hknown : u = bytes "TB"
  · -- The line is not found, and nothing is added.
    rw [hknown, List.filterMap_cons, sedLine_unknown]
    have hzero : bandGbit [] = 0 := by decide +kernel
    simp only [List.filterMap_nil, List.flatMap_nil, hzero]
    simp +decide only [dirRate, if_false]
  · rw [List.filterMap_cons, sedLine_known j k u hu hknown]
    simp only [List.filterMap_nil, List.flatMap_cons, List.flatMap_nil, words_token k u hu,
      List.append_nil]
    unfold bandGbit dirRate
    simp only [List.getD_cons_zero, List.getD_cons_succ, readDecimal_fixedText 2 k (by norm_num),
      Option.getD_some]
    simp only [unitTexts, List.mem_cons, List.not_mem_nil, or_false] at hu
    rcases hu with rfl | rfl | rfl | rfl | rfl
    · simp +decide only [if_false, add_zero]
    · simp +decide only [if_false, add_zero]
    · simp +decide only [if_true, if_false, zero_add]
    · simp +decide only [if_true, if_false, add_zero]
    · exact absurd rfl hknown

/-- The number that `parse_band_dir` writes. -/
theorem parseBandDir_line (j k : Nat) (u : Bytes) (hu : u ∈ unitTexts) :
    parseBandDir [[lineStart j ++ (fixedText 2 k ++ u)]] =
      some ((roundHalfEven (dirRate ((k : ℚ) / 10 ^ 2) u * 10 ^ 2) : ℚ) / 10 ^ 2) := by
  unfold parseBandDir
  simp only [List.map_cons, List.map_nil, List.sum_cons, List.sum_nil, add_zero,
    bandGbit_line j k u hu]
  unfold fixed inDecimals
  -- The digits and the point of the printed total are those of its amount.
  have hfilter : ∀ n, (fixedText 2 n ++ bytes " GBit/s total").filter
      (fun b => decide (b ∈ digitBytes ∨ b = point)) = fixedText 2 n := by
    intro n
    rw [List.filter_append, List.filter_eq_self.mpr, show (bytes " GBit/s total").filter
      (fun b => decide (b ∈ digitBytes ∨ b = point)) = [] by decide, List.append_nil]
    intro b hb
    refine decide_eq_true ?_
    rcases List.mem_cons.mp (fixedText_symbols 2 n b hb) with h | h
    · exact Or.inr h
    · exact Or.inl h
  rw [hfilter, readDecimal_fixedText 2 _ (by norm_num)]

/-! ### Agreement -/

section Agreement

variable {K : Type*} [Field K] [LinearOrder K] [FloorSemiring K]

theorem formatBinary_eq (n : K) :
    formatBinary n = fixedText 2 (printedAmount n) ++ printedUnit n := rfl

theorem transferLine_eq (n : K) :
    ∃ j, transferLine n =
      lineStart j ++ (fixedText 2 (printedAmount n) ++ (printedUnit n ++ bytes "B")) := by
  refine ⟨10 - (formatBinary n).length, ?_⟩
  unfold transferLine padLeft lineStart
  rw [formatBinary_eq]
  simp only [List.append_assoc]

omit [FloorSemiring K] in
theorem printedUnit_mem (n : K) :
    printedUnit n ∈ [[], bytes "K", bytes "M", bytes "G", bytes "T"] :=
  chooseUnit_mem binaryUnits.scale binaryUnits.units n binaryUnits.base

/-- What the functions read, for an amount and a unit. -/
structure Reads (k : Nat) (unit : Bytes) : Prop where
  gbit : 8 * ((k : ℚ) / 10 ^ 2) / gbitDivisor (unit ++ bytes "B") =
    8 * ((k : ℚ) / 100) * unitBytes unit / 2 ^ 30
  known : unit ≠ bytes "T"
  sum : 8 * ((k : ℚ) / 10 ^ 2 / bandDivisor (unit ++ bytes "B")) =
    8 * ((k : ℚ) / 100) * unitBytes unit / 2 ^ 30
  dir : roundHalfEven (dirRate ((k : ℚ) / 10 ^ 2) (unit ++ bytes "B") * 10 ^ 2) =
    roundHalfEven (8 * ((k : ℚ) / 100) * unitBytes unit / 2 ^ 30 * 100)

theorem agree_reads (n : K) : Agree n ↔ Reads (printedAmount n) (printedUnit n) := by
  rcases transferLine_eq n with ⟨j, hline⟩
  have hu : printedUnit n ++ bytes "B" ∈ unitTexts :=
    (by decide : ∀ u ∈ [[], bytes "K", bytes "M", bytes "G", bytes "T"],
      u ++ bytes "B" ∈ unitTexts) _ (printedUnit_mem n)
  have hgbit := gbitFromWrk_line j (printedAmount n) _ hu
  have hdir := parseBandDir_line j (printedAmount n) _ hu
  have htoken : formatBinary n ++ bytes "B" =
      fixedText 2 (printedAmount n) ++ (printedUnit n ++ bytes "B") := by
    rw [formatBinary_eq, List.append_assoc]
  have hknown : printedUnit n ≠ bytes "T" → printedUnit n ++ bytes "B" ≠ bytes "TB" := by
    intro h heq
    exact h (List.append_cancel_right (show printedUnit n ++ bytes "B" = bytes "T" ++ bytes "B"
      from heq))
  rw [← hline] at hgbit hdir
  constructor
  · intro h
    have hsum := h.sum
    rw [htoken] at hsum
    -- The sum has no value for a unit it does not know.
    have hT : printedUnit n ≠ bytes "T" := by
      intro hT
      rw [hT] at hsum
      have hnone := bandValue_unknown (printedAmount n)
      rw [sumBandArray, List.foldl_cons, List.foldl_nil,
        show bytes "T" ++ bytes "B" = bytes "TB" from rfl, hnone] at hsum
      cases hsum
    rw [sumBandArray, List.foldl_cons, List.foldl_nil,
      bandValue_known _ _ hu (hknown hT)] at hsum
    simp only [Option.map_some, Option.getD_some, zero_add, Option.some.injEq] at hsum
    refine ⟨?_, hT, hsum, ?_⟩
    · exact Option.some.inj (hgbit.symm.trans h.gbit)
    · have heq := Option.some.inj (hdir.symm.trans h.dir)
      refine Nat.cast_injective (R := ℚ) ?_
      change _ = (roundHalfEven (printedRate n * 100) : ℚ)
      linarith only [heq]
  · intro h
    refine ⟨?_, ?_, ?_⟩
    · rw [hgbit, h.gbit]
      rfl
    · rw [htoken, sumBandArray, List.foldl_cons, List.foldl_nil,
        bandValue_known _ _ hu (hknown h.known)]
      simp only [Option.map_some, Option.getD_some, zero_add, h.sum]
      rfl
    · rw [hdir, h.dir]
      norm_num [printedRate]

/-- The amounts and units that are read alike. The divisors and factors of each
    branch are put in, and the sides compared. -/
theorem reads_iff (k : Nat) (unit : Bytes)
    (hu : unit ∈ [[], bytes "K", bytes "M", bytes "G", bytes "T"]) :
    Reads k unit ↔ Decodable k unit := by
  simp only [List.mem_cons, List.not_mem_nil, or_false] at hu
  rcases hu with rfl | rfl | rfl | rfl | rfl
  · -- Bytes: the amount is not divided.
    have hg : gbitDivisor ([] ++ bytes "B") = 1 := by decide +kernel
    have hb : bandDivisor ([] ++ bytes "B") = 1024 * 1024 * 1024 := by decide +kernel
    have hd : ∀ v, dirRate v ([] ++ bytes "B") = 0 := by
      intro v
      simp +decide only [dirRate, if_false]
    have hn : unitBytes [] = 1 := by decide +kernel
    constructor
    · intro h
      have hgbit := h.gbit
      rw [hg, hn] at hgbit
      have hk : (k : ℚ) = 0 := by linarith only [hgbit]
      exact Or.inr (Or.inl ⟨rfl, by exact_mod_cast hk⟩)
    · rintro (h | ⟨_, rfl⟩ | ⟨h, _⟩ | ⟨h, _⟩)
      · exact absurd h (by decide)
      · refine ⟨by norm_num [hg], by decide, by norm_num [hb], ?_⟩
        rw [hd]
        norm_num
      · exact absurd h (by decide)
      · exact absurd h (by decide)
  · -- Kilobytes: the sum of a directory leaves them out.
    have hg : gbitDivisor (bytes "K" ++ bytes "B") = 1024 * 1024 := by decide +kernel
    have hb : bandDivisor (bytes "K" ++ bytes "B") = 1024 * 1024 := by decide +kernel
    have hd : ∀ v, dirRate v (bytes "K" ++ bytes "B") = 0 := by
      intro v
      simp +decide only [dirRate, if_false]
    have hn : unitBytes (bytes "K") = 1024 := by decide +kernel
    have hzero : roundHalfEven (0 * (10 : ℚ) ^ 2) = 0 :=
      (roundHalfEven_eq_zero _ (by norm_num)).mpr (by norm_num)
    have hround : roundHalfEven (8 * ((k : ℚ) / 100) * 1024 / 2 ^ 30 * 100) = 0 ↔ k ≤ 65536 := by
      rw [roundHalfEven_eq_zero _ (by positivity)]
      constructor
      · intro h
        have hk : (k : ℚ) ≤ 65536 := by linarith only [h]
        exact_mod_cast hk
      · intro h
        have hk : (k : ℚ) ≤ 65536 := by exact_mod_cast h
        linarith only [hk]
    constructor
    · intro h
      have hdir := h.dir
      rw [hd, hn, hzero] at hdir
      exact Or.inr (Or.inr (Or.inl ⟨rfl, hround.mp hdir.symm⟩))
    · rintro (h | ⟨h, _⟩ | ⟨_, h⟩ | ⟨h, _⟩)
      · exact absurd h (by decide)
      · exact absurd h (by decide)
      · refine ⟨?_, by decide, ?_, ?_⟩
        · rw [hg, hn]
          ring
        · rw [hb, hn]
          ring
        · rw [hd, hn, hzero, hround.mpr h]
      · exact absurd h (by decide)
  · -- Megabytes: the sum of a directory divides by a thousand.
    have hg : gbitDivisor (bytes "M" ++ bytes "B") = 1024 := by decide +kernel
    have hb : bandDivisor (bytes "M" ++ bytes "B") = 1024 := by decide +kernel
    have hd : ∀ v, dirRate v (bytes "M" ++ bytes "B") = v * 8 / 1000 := by
      intro v
      simp +decide only [dirRate, if_true, if_false]
    have hn : unitBytes (bytes "M") = 1024 ^ 2 := by decide +kernel
    have hleft : (k : ℚ) / 10 ^ 2 * 8 / 1000 * 10 ^ 2 = k * 8 / 1000 := by ring
    have hright : 8 * ((k : ℚ) / 100) * 1024 ^ 2 / 2 ^ 30 * 100 = k * 8 / 1024 := by ring
    constructor
    · intro h
      have hdir := h.dir
      rw [hd, hn, hleft, hright] at hdir
      exact Or.inr (Or.inr (Or.inr ⟨rfl, hdir⟩))
    · rintro (h | ⟨h, _⟩ | ⟨h, _⟩ | ⟨_, h⟩)
      · exact absurd h (by decide)
      · exact absurd h (by decide)
      · exact absurd h (by decide)
      · refine ⟨?_, by decide, ?_, ?_⟩
        · rw [hg, hn]
          ring
        · rw [hb, hn]
          ring
        · rw [hd, hn, hleft, hright, h]
  · -- Gigabytes.
    have hg : gbitDivisor (bytes "G" ++ bytes "B") = 1 := by decide +kernel
    have hb : bandDivisor (bytes "G" ++ bytes "B") = 1 := by decide +kernel
    have hd : ∀ v, dirRate v (bytes "G" ++ bytes "B") = v * 8 := by
      intro v
      simp +decide only [dirRate, if_true]
    have hn : unitBytes (bytes "G") = 1024 ^ 3 := by decide +kernel
    refine ⟨fun _ => Or.inl rfl, fun _ => ⟨?_, by decide, ?_, ?_⟩⟩
    · rw [hg, hn]
      ring
    · rw [hb, hn]
      ring
    · rw [hd, hn, show (k : ℚ) / 10 ^ 2 * 8 * 10 ^ 2 = 8 * ((k : ℚ) / 100) * 1024 ^ 3 / 2 ^ 30 * 100
        by ring]
  · -- Terabytes: a sum of tokens does not know them.
    refine ⟨fun h => absurd rfl h.known, ?_⟩
    rintro (h | ⟨h, _⟩ | ⟨h, _⟩ | ⟨h, _⟩)
    · exact absurd h (by decide)
    · exact absurd h (by decide)
    · exact absurd h (by decide)
    · exact absurd h (by decide)

/-- The functions agree with what is printed exactly for these amounts and
    units. -/
theorem agree_iff (n : K) : Agree n ↔ Decodable (printedAmount n) (printedUnit n) :=
  (agree_reads n).trans (reads_iff _ _ (printedUnit_mem n))

end Agreement

/-- A hundred megabytes each second are read as 0.78 Gbit/s, but as 0.80 from a
    directory. -/
theorem megabytes_differ : ¬ Agree (100 * 2 ^ 20 : ℚ) := by
  intro h
  have hreads := (agree_reads _).mp h
  have hamount : printedAmount (100 * 2 ^ 20 : ℚ) = 10000 := by decide +kernel
  have hunit : printedUnit (100 * 2 ^ 20 : ℚ) = bytes "M" := by decide +kernel
  rw [hamount, hunit] at hreads
  exact absurd hreads.dir (by decide +kernel)

end Wrk
