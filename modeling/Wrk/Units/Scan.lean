import Wrk.Core.Scanf
import Wrk.HttpParser.Chars
import Wrk.Units.Format

/-!
# Amounts on the Command Line

`scan_units`: a number and perhaps a unit, read with `sscanf`. The unit is
looked up in the table without regard to case, and the number is multiplied by
the scale as often as the table is stepped through.

A text means a number if it is a decimal numeral, perhaps with a unit after
it, and nothing more. What `scan_units` reads is more: it takes negative
numerals, stops after the unit, and keeps 64 bits of the product.

## Main definitions

* `scanUnits`, `scanMetric`, `scanTime`: The functions.
* `Means`: What a text means.
* `ReadExactly`: A text is read as what it means, and refused if it means
  nothing that fits.
* `factor`, `Ends`: The unit after a numeral, and that nothing follows it.

## Theorems

* `scanUnits_eq`: What is stored.
* `means_iff`: What a text means, by what is scanned of it.
* `scan_exact_iff`: The texts that are read exactly.
-/

namespace Wrk

open HttpParser (Bytes bytes byte_forall)

open Http (lowerCase isAlpha)

open Scanf

/-- `strncasecmp` returns zero. -/
def strncasecmp (a b : Bytes) (n : Nat) : Bool :=
  ((a ++ [0]).take n).map lowerCase == ((b ++ [0]).take n).map lowerCase

/-- The loop of `scan_units`: the scale at the unit. -/
def findScale (unit : Bytes) (factor : Nat) : Nat → List Bytes → Option Nat
  | _, [] => none
  | scale, u :: us =>
      let scale := wrap64 (scale * factor)
      if strncasecmp unit u 3 then some scale else findScale unit factor scale us

/-- `scan_units`: the value returned, and what is stored after the call. -/
def scanUnits (s : Bytes) (n : Nat) (m : Units) : Int × Nat :=
  match readNumeral s with
  | none => (-1, n)
  | some (base, rest) =>
      match readWord 2 rest with
      | none => (0, wrap64 (base.toUint64 * 1))
      | some unit =>
          if strncasecmp unit m.base 3 then (0, wrap64 (base.toUint64 * 1))
          else
            match findScale unit m.scale 1 m.units with
            | none => (-1, n)
            | some scale => (0, wrap64 (base.toUint64 * scale))

def scanMetric (s : Bytes) (n : Nat) : Int × Nat := scanUnits s n metricUnits

def scanTime (s : Bytes) (n : Nat) : Int × Nat := scanUnits s n timeUnitsS

/-! ### What is meant -/

/-- A unit up to the case of its letters, and what it stands for. The base
    comes first. -/
def UnitOf (m : Units) (unit : Bytes) (k : Nat) : Prop :=
  ∃ i u, (m.base :: m.units)[i]? = some u ∧ unit.map lowerCase = u.map lowerCase ∧
    k = m.scale ^ i

/-- A text means a number: blanks, a sign and digits, and perhaps a unit,
    which may be separated by blanks. -/
inductive Means (m : Units) : Bytes → Int → Prop
  | number (lead sign : Bytes) (x : Numeral) (hlead : ∀ b ∈ lead, isSpace b = true)
      (hsign : IsSign x.negative sign) (hne : x.digits ≠ [])
      (hdigits : ∀ b ∈ x.digits, isDigit b = true) : Means m (lead ++ (sign ++ x.digits)) x.value
  | withUnit (lead sign : Bytes) (x : Numeral) (blanks unit : Bytes) (k : Nat)
      (hlead : ∀ b ∈ lead, isSpace b = true) (hsign : IsSign x.negative sign)
      (hne : x.digits ≠ []) (hdigits : ∀ b ∈ x.digits, isDigit b = true)
      (hblanks : ∀ b ∈ blanks, isSpace b = true) (hunit : unit ≠ []) (hof : UnitOf m unit k) :
      Means m (lead ++ (sign ++ (x.digits ++ (blanks ++ unit)))) (x.value * k)

/-- A scanner reads a text as what it means, and refuses it, storing nothing,
    if it means no number of 64 bits. -/
structure ReadExactly (scan : Bytes → Nat → Int × Nat) (m : Units) (s : Bytes) : Prop where
  read : ∀ v : Nat, Means m s v → v < 2 ^ 64 → ∀ n, scan s n = (0, v)
  refused : (¬ ∃ v : Nat, Means m s v ∧ v < 2 ^ 64) → ∀ n, scan s n = (-1, n)

/-! ### What is read -/

/-- The place of a unit. -/
def unitPower (m : Units) (unit : Bytes) : Option Nat :=
  (m.base :: m.units).findIdx? (fun u => strncasecmp unit u 3)

/-- What the text after a numeral multiplies it by, if it begins with a unit
    or is blank. -/
def factor (m : Units) (rest : Bytes) : Option Nat :=
  match readWord 2 rest with
  | none => some 1
  | some unit => (unitPower m unit).map (m.scale ^ ·)

/-- The text after a numeral is a unit after blanks, or nothing at all. -/
def Ends (rest : Bytes) : Prop :=
  match readWord 2 rest with
  | none => rest = []
  | some unit => rest.dropWhile isSpace = unit

/-- The condition for a text that is accepted: nothing follows the unit, and
    the number is one of 64 bits. -/
def ReadCleanly (m : Units) (s : Bytes) : Prop :=
  ∀ x rest k, readNumeral s = some (x, rest) → factor m rest = some k →
    Ends rest ∧ 0 ≤ x.value ∧ x.value * k < 2 ^ 64

/-- A table whose units are short and made of letters, none of them twice. -/
structure Lettered (m : Units) : Prop where
  short : ∀ u ∈ m.base :: m.units, u.length ≤ 2
  letters : ∀ u ∈ m.base :: m.units, ∀ b ∈ u, isAlpha b = true
  distinct : ((m.base :: m.units).map (·.map lowerCase)).Nodup
  positive : 0 < m.scale

theorem metricUnits_lettered : Lettered metricUnits :=
  ⟨by decide +kernel, by decide +kernel, by decide +kernel, by decide⟩

theorem timeUnitsS_lettered : Lettered timeUnitsS :=
  ⟨by decide +kernel, by decide +kernel, by decide +kernel, by decide⟩

/-- Two short texts are compared as a whole. -/
theorem strncasecmp_iff (a b : Bytes) (ha : a.length ≤ 2) (hb : b.length ≤ 2) :
    strncasecmp a b 3 = true ↔ a.map lowerCase = b.map lowerCase := by
  have hwhole : ∀ c : Bytes, c.length ≤ 2 → (c ++ [0]).take 3 = c ++ [0] := by
    intro c hc
    refine List.take_of_length_le ?_
    rw [List.length_append, List.length_singleton]
    omega
  unfold strncasecmp
  rw [hwhole a ha, hwhole b hb, beq_iff_eq, List.map_append, List.map_append,
    List.append_left_inj]

/-- The loop finds the unit at its place, with the power of the scale that
    belongs to it. -/
theorem findScale_eq (unit : Bytes) (factor scale : Nat) (us : List Bytes) :
    findScale unit factor scale us =
      (us.findIdx? (fun u => strncasecmp unit u 3)).map
        (fun i => wrap64 (scale * factor ^ (i + 1))) := by
  induction us generalizing scale with
  | nil => rfl
  | cons u us ih =>
      rw [findScale, List.findIdx?_cons]
      by_cases hu : strncasecmp unit u 3 = true
      · rw [if_pos hu, if_pos hu, Option.map_some, Nat.zero_add, pow_one]
      · rw [if_neg hu, if_neg hu, ih, Option.map_map]
        congr 1
        funext i
        -- The scale wraps at each step, which is as good as wrapping once.
        change wrap64 (wrap64 (scale * factor) * factor ^ (i + 1)) =
          wrap64 (scale * factor ^ (i + 1 + 1))
        rw [wrap64_wrap64_mul, mul_assoc, ← pow_succ']

/-- What `scan_units` returns and stores. -/
theorem scanUnits_eq (s : Bytes) (n : Nat) (m : Units) :
    scanUnits s n m =
      match (readNumeral s).bind (fun r => (factor m r.2).map (fun k => (r.1, k))) with
      | none => (-1, n)
      | some (x, k) => (0, wrap64 (x.toUint64 * k)) := by
  unfold scanUnits
  cases readNumeral s with
  | none => rfl
  | some r =>
      rw [Option.bind_some]
      unfold factor
      dsimp only
      cases readWord 2 r.2 with
      | none => rfl
      | some unit =>
          dsimp only
          rw [findScale_eq]
          unfold unitPower
          rw [List.findIdx?_cons]
          by_cases hbase : strncasecmp unit m.base 3 = true
          · -- The base stands for the zeroth power of the scale.
            rw [if_pos hbase, if_pos hbase]
            rfl
          · rw [if_neg hbase, if_neg hbase]
            cases m.units.findIdx? (fun u => strncasecmp unit u 3) with
            | none => rfl
            | some i =>
                simp only [Option.map_some, one_mul]
                rw [Nat.mul_comm, wrap64_wrap64_mul, Nat.mul_comm]

/-! ### The texts that are read exactly -/

theorem letter_plain (b : UInt8) (h : isAlpha b = true) :
    isSpace b = false ∧ isDigit b = false := by
  have hall := byte_forall (fun b => !isAlpha b || (!isSpace b && !isDigit b)) (by decide +kernel) b
  simp only [h, Bool.not_true, Bool.false_or, Bool.and_eq_true, Bool.not_eq_true'] at hall
  exact hall

/-- The case of a letter does not make it one. -/
theorem isAlpha_lowerCase (b : UInt8) : isAlpha (lowerCase b) = isAlpha b := by
  have hall := byte_forall (fun b => isAlpha (lowerCase b) == isAlpha b) (by decide +kernel) b
  exact beq_iff_eq.mp hall

/-- A unit is short and made of letters. -/
theorem unitOf_plain (m : Units) (hm : Lettered m) (unit : Bytes) (k : Nat) (h : UnitOf m unit k) :
    unit.length ≤ 2 ∧ ∀ b ∈ unit, isSpace b = false ∧ isDigit b = false := by
  rcases h with ⟨i, u, hu, hcase, _⟩
  have hmem := List.mem_of_getElem? hu
  have hlen := congrArg List.length hcase
  rw [List.length_map, List.length_map] at hlen
  refine ⟨by rw [hlen]; exact hm.short u hmem, fun b hb => letter_plain b ?_⟩
  -- A letter of a unit is one of the table, up to case.
  have hb' : lowerCase b ∈ u.map lowerCase := by
    rw [← hcase]
    exact List.mem_map_of_mem hb
  rcases List.mem_map.mp hb' with ⟨c, hc, hbc⟩
  rw [← isAlpha_lowerCase, ← hbc, isAlpha_lowerCase]
  exact hm.letters u hmem c hc

/-- The place at which a unit is found is the only one it has. -/
theorem unitPower_iff (m : Units) (hm : Lettered m) (unit : Bytes) (hlen : unit.length ≤ 2)
    (k : Nat) : (unitPower m unit).map (m.scale ^ ·) = some k ↔ UnitOf m unit k := by
  have hcase : ∀ u ∈ m.base :: m.units,
      strncasecmp unit u 3 = true ↔ unit.map lowerCase = u.map lowerCase :=
    fun u hu => strncasecmp_iff unit u hlen (hm.short u hu)
  unfold unitPower UnitOf
  rw [Option.map_eq_some_iff]
  constructor
  · rintro ⟨i, hi, rfl⟩
    rcases List.findIdx?_eq_some_iff_getElem.mp hi with ⟨hlt, hsame, _⟩
    exact ⟨i, _, List.getElem?_eq_getElem hlt, (hcase _ (List.getElem_mem hlt)).mp hsame, rfl⟩
  · rintro ⟨i, u, hu, hsame, rfl⟩
    refine ⟨i, List.findIdx?_eq_some_iff_getElem.mpr ?_, rfl⟩
    rcases List.getElem?_eq_some_iff.mp hu with ⟨hlt, hget⟩
    refine ⟨hlt, ?_, fun j hj hother => ?_⟩
    · rw [hget]
      exact (hcase u (List.mem_of_getElem? hu)).mpr hsame
    · -- Two places with the same letters would be one.
      have hjlt : j < (m.base :: m.units).length := Nat.lt_trans hj hlt
      have hj' := (hcase _ (List.getElem_mem hjlt)).mp hother
      have hcases : ((m.base :: m.units).map (·.map lowerCase))[j]? =
          ((m.base :: m.units).map (·.map lowerCase))[i]? := by
        rw [List.getElem?_map, List.getElem?_map, hu, List.getElem?_eq_getElem hjlt,
          Option.map_some, Option.map_some, ← hj', hsame]
      have hlt' : j < ((m.base :: m.units).map (·.map lowerCase)).length := by
        rw [List.length_map]
        exact hjlt
      exact absurd ((List.getElem?_inj hlt' hm.distinct).mp hcases) (Nat.ne_of_lt hj)

/-- What a text means is decided by the numeral and the word that are scanned,
    if nothing follows them. -/
theorem means_iff (m : Units) (hm : Lettered m) (s : Bytes) (v : Int) :
    Means m s v ↔ ∃ x rest k, readNumeral s = some (x, rest) ∧ factor m rest = some k ∧
      Ends rest ∧ v = x.value * k := by
  constructor
  · intro h
    cases h with
    | number lead sign x hlead hsign hne hdigits =>
        refine ⟨x, [], 1, (readNumeral_iff _ _ _).mpr ⟨lead, sign, ?_, hlead, hsign, hne, hdigits,
          fun b hb => ?_⟩, rfl, rfl, ?_⟩
        · rw [List.append_nil]
        · cases hb
        · rw [Nat.cast_one, mul_one]
    | withUnit lead sign x blanks unit k hlead hsign hne hdigits hblanks hunit hof =>
        rcases unitOf_plain m hm unit k hof with ⟨hlen, hplain⟩
        rcases readWord_word 2 blanks unit hblanks hunit (fun b hb => (hplain b hb).1) hlen with
          ⟨hword, hdrop⟩
        refine ⟨x, blanks ++ unit, k, (readNumeral_iff _ _ _).mpr ⟨lead, sign, rfl, hlead, hsign,
          hne, hdigits, fun b hb => ?_⟩, ?_, ?_, rfl⟩
        · -- Neither a blank nor a letter is a digit.
          rcases List.mem_append.mp (List.mem_of_mem_head? hb) with hb | hb
          · cases hd : isDigit b with
            | false => rfl
            | true =>
                have hspace := hblanks b hb
                rw [(digit_plain b hd).1] at hspace
                exact absurd hspace Bool.false_ne_true
          · exact (hplain b hb).2
        · unfold factor
          rw [hword]
          exact (unitPower_iff m hm unit hlen k).mpr hof
        · unfold Ends
          rw [hword]
          exact hdrop
  · rintro ⟨x, rest, k, hx, hk, hends, rfl⟩
    rcases (readNumeral_iff s x rest).mp hx with ⟨lead, sign, rfl, hlead, hsign, hne, hdigits, _⟩
    unfold factor at hk
    unfold Ends at hends
    cases hword : readWord 2 rest with
    | none =>
        rw [hword] at hk hends
        cases hk
        change rest = [] at hends
        rw [hends, List.append_nil, Nat.cast_one, mul_one]
        exact .number lead sign x hlead hsign hne hdigits
    | some unit =>
        rw [hword] at hk hends
        change rest.dropWhile isSpace = unit at hends
        rcases readWord_some 2 rest unit (by decide) hword with ⟨hunit, hlen, _⟩
        have hrest : rest = rest.takeWhile isSpace ++ unit := by
          rw [← hends, List.takeWhile_append_dropWhile]
        rw [hrest]
        exact .withUnit lead sign x _ unit k hlead hsign hne hdigits
          (fun b hb => List.mem_takeWhile_imp hb) hunit ((unitPower_iff m hm unit hlen k).mp hk)

theorem factor_pos (m : Units) (hm : Lettered m) (rest : Bytes) (k : Nat)
    (h : factor m rest = some k) : 0 < k := by
  unfold factor at h
  cases hword : readWord 2 rest with
  | none =>
      rw [hword] at h
      cases h
      -- Without a unit the factor is one.
      decide
  | some unit =>
      rw [hword, Option.map_eq_some_iff] at h
      rcases h with ⟨i, _, rfl⟩
      exact Nat.pow_pos hm.positive

/-- The value that is meant is the one that is stored, if it fits. -/
theorem stored_of_fits (x : Numeral) (k : Nat) (hk : 0 < k) (hsign : 0 ≤ x.value)
    (hfits : x.value * k < 2 ^ 64) :
    wrap64 (x.toUint64 * k) = x.magnitude * k ∧ x.value * k = ((x.magnitude * k : Nat) : Int) ∧
      x.magnitude * k < 2 ^ 64 := by
  have hval := value_of_nonneg x hsign
  rw [hval] at hfits ⊢
  have hprod : x.magnitude * k < 2 ^ 64 := by exact_mod_cast hfits
  have hle : x.magnitude ≤ x.magnitude * k := Nat.le_mul_of_pos_right _ hk
  refine ⟨?_, (Nat.cast_mul _ _).symm, hprod⟩
  rw [toUint64_of_fits x hsign (by omega), wrap64_of_lt _ hprod]

/-- A text is read exactly if and only if it is refused, or is nothing but a
    number of 64 bits with its unit. -/
theorem scanUnits_exact_iff (m : Units) (hm : Lettered m) (s : Bytes) :
    ReadExactly (fun s n => scanUnits s n m) m s ↔ ReadCleanly m s := by
  have haccepted : ∀ x rest k n, readNumeral s = some (x, rest) → factor m rest = some k →
      scanUnits s n m = (0, wrap64 (x.toUint64 * k)) := by
    intro x rest k n hx hk
    rw [scanUnits_eq, hx, Option.bind_some, hk]
    rfl
  constructor
  · intro h x rest k hx hk
    -- What is accepted means something, and that is determined.
    have hmeans : ∃ v : Nat, Means m s v ∧ v < 2 ^ 64 := by
      by_contra hnone
      have hrefused := (haccepted x rest k 0 hx hk).symm.trans (h.refused hnone 0)
      exact absurd (congrArg Prod.fst hrefused) (by decide : (0 : Int) ≠ -1)
    rcases hmeans with ⟨v, hv, hfits⟩
    rcases (means_iff m hm s v).mp hv with ⟨x', rest', k', hx', hk', hends, hval⟩
    rw [hx, Option.some.injEq, Prod.mk.injEq] at hx'
    rcases hx' with ⟨rfl, rfl⟩
    rw [hk, Option.some.injEq] at hk'
    rw [← hk'] at hval
    have hpos : (0 : Int) < k := by exact_mod_cast factor_pos m hm rest k hk
    refine ⟨hends, ?_, by omega⟩
    by_contra hneg
    have hprod := mul_neg_of_neg_of_pos (not_le.mp hneg) hpos
    omega
  · intro h
    refine ⟨fun v hv hfits n => ?_, fun hnone n => ?_⟩
    · rcases (means_iff m hm s v).mp hv with ⟨x, rest, k, hx, hk, _, hval⟩
      rcases h x rest k hx hk with ⟨_, hsign, hprod⟩
      rcases stored_of_fits x k (factor_pos m hm rest k hk) hsign hprod with ⟨hstored, hnat, _⟩
      rw [hnat] at hval
      rw [haccepted x rest k n hx hk, hstored, Nat.cast_injective hval]
    · rw [scanUnits_eq]
      cases hx : readNumeral s with
      | none => rfl
      | some r =>
          rw [Option.bind_some]
          cases hk : factor m r.2 with
          | none => rfl
          | some k =>
              -- It would be accepted, and then it means what is stored.
              rcases h r.1 r.2 k hx hk with ⟨hends, hsign, hprod⟩
              rcases stored_of_fits r.1 k (factor_pos m hm r.2 k hk) hsign hprod with
                ⟨_, hnat, hfits⟩
              exact absurd ⟨_, (means_iff m hm s _).mpr ⟨r.1, r.2, k, hx, hk, hends, hnat.symm⟩,
                hfits⟩ hnone

/-- The two scanners of the command line read these texts exactly, and no
    others. -/
theorem scan_exact_iff (s : Bytes) :
    (ReadExactly scanMetric metricUnits s ↔ ReadCleanly metricUnits s) ∧
      (ReadExactly scanTime timeUnitsS s ↔ ReadCleanly timeUnitsS s) :=
  ⟨scanUnits_exact_iff metricUnits metricUnits_lettered s,
    scanUnits_exact_iff timeUnitsS timeUnitsS_lettered s⟩

/-- A negative number is accepted, and so are a number that is too great and
    what follows a unit. -/
theorem scan_inexact :
    scanMetric (bytes "-1") 0 = (0, 2 ^ 64 - 1) ∧
      scanMetric (bytes "18446744073709552k") 0 = (0, 384) ∧
      scanTime (bytes "5s more") 0 = (0, 5) ∧
      ¬ ReadExactly scanMetric metricUnits (bytes "-1") := by
  refine ⟨by decide +kernel, by decide +kernel, by decide +kernel, fun h => ?_⟩
  have hclean := (scanUnits_exact_iff metricUnits metricUnits_lettered _).mp h
  have hneg := (hclean ⟨true, bytes "1"⟩ [] 1 (by decide +kernel) rfl).2.1
  exact absurd hneg (by decide +kernel)

end Wrk
