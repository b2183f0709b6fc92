import Wrk.Http.Response
import Wrk.HttpParser.Step

/-!
# Characters

The parser's tables against the characters of the protocol, for every byte.

## Theorems

* `tokens_of_token`: The `tokens` table puts a token in lower case.
* `headerChar_of_text`: A text contains no end of a line.
* `unhex_of_hex`: The `unhex` table.
* `lower_eq_iff`: `LOWER` against a lower-case letter.
-/

namespace Wrk

namespace HttpParser

open Http

/-- A fact about bytes that is checked for each of them. -/
theorem byte_forall (p : Byte → Bool) (h : ∀ n : Fin 256, p (UInt8.ofNat n) = true) (ch : Byte) :
    p ch = true := by
  have hch := h ⟨ch.toNat, ch.toNat_lt⟩
  rw [UInt8.ofNat_toNat] at hch
  exact hch

theorem tokens_of_token (ch : Byte) (h : isTokenChar ch = true) :
    tokens ch = lowerCase ch ∧ tokens ch ≠ 0 ∧ isBlank ch = false := by
  have hall := byte_forall (fun ch => !isTokenChar ch ||
    (tokens ch == lowerCase ch && tokens ch != 0 && !isBlank ch)) (by decide +kernel) ch
  simp only [h, Bool.not_true, Bool.false_or, Bool.and_eq_true, beq_iff_eq, bne_iff_ne,
    Bool.not_eq_true'] at hall
  exact ⟨hall.1.1, hall.1.2, hall.2⟩

/-- What starts a name is not the end of a head. -/
theorem token_not_end (ch : Byte) (h : tokens ch ≠ 0) :
    ch ≠ CR ∧ ch ≠ LF ∧ ch ≠ ' '.toUInt8 := by
  refine ⟨?_, ?_, ?_⟩ <;> rintro rfl <;> exact h (by decide +kernel)

theorem headerChar_of_text (ch : Byte) (h : isText ch = true) :
    isHeaderChar ch = true ∧ ch ≠ CR ∧ ch ≠ LF := by
  have hall := byte_forall (fun ch => !isText ch ||
    (isHeaderChar ch && ch != CR && ch != LF)) (by decide +kernel) ch
  simp only [h, Bool.not_true, Bool.false_or, Bool.and_eq_true, bne_iff_ne] at hall
  exact ⟨hall.1.1, hall.1.2, hall.2⟩

theorem isBlank_eq (ch : Byte) : isBlank ch = isSpace ch := by
  have hall := byte_forall (fun ch => isBlank ch == isSpace ch) (by decide +kernel) ch
  exact beq_iff_eq.mp hall

theorem text_of_space (ch : Byte) (h : isSpace ch = true) : isText ch = true := by
  have hall := byte_forall (fun ch => !isSpace ch || isText ch) (by decide +kernel) ch
  simpa only [h, Bool.not_true, Bool.false_or] using hall

theorem isNum_eq (ch : Byte) : isNum ch = isDigit ch := rfl

theorem digit_lt (ch : Byte) (h : isDigit ch = true) : digit ch < 10 := by
  have hall := byte_forall (fun ch => !isDigit ch || decide (digit ch < 10)) (by decide +kernel) ch
  simpa only [h, Bool.not_true, Bool.false_or, decide_eq_true_eq] using hall

theorem digit_not_space (ch : Byte) (h : isDigit ch = true) : ch ≠ ' '.toUInt8 := by
  rintro rfl
  exact absurd h (by decide +kernel)

theorem unhex_of_hex (ch : Byte) (h : isHexDigit ch = true) :
    unhex ch = some (hexDigit ch) ∧ hexDigit ch < 16 ∧ ch ≠ CR := by
  have hall := byte_forall (fun ch => !isHexDigit ch ||
    (unhex ch == some (hexDigit ch) && decide (hexDigit ch < 16) && ch != CR))
    (by decide +kernel) ch
  simp only [h, Bool.not_true, Bool.false_or, Bool.and_eq_true, beq_iff_eq, bne_iff_ne,
    decide_eq_true_eq] at hall
  exact ⟨hall.1.1, hall.1.2, hall.2⟩

/-- `LOWER` maps no other characters to a lower-case letter than the letter's
    two cases. -/
theorem lower_eq_iff (ch c : Byte) (h : 'a'.toUInt8 ≤ c ∧ c ≤ 'z'.toUInt8) :
    lower ch = c ↔ lowerCase ch = c := by
  have hall := byte_forall (fun ch =>
    !('a'.toUInt8 ≤ lower ch && lower ch ≤ 'z'.toUInt8) && !('a'.toUInt8 ≤ lowerCase ch &&
      lowerCase ch ≤ 'z'.toUInt8) || lower ch == lowerCase ch) (by decide +kernel) ch
  simp only [Bool.or_eq_true, Bool.and_eq_true, Bool.not_eq_true', Bool.and_eq_false_iff,
    decide_eq_false_iff_not, beq_iff_eq] at hall
  rcases hall with ⟨hlower, hcase⟩ | heq
  · constructor
    · intro hc
      rw [hc] at hlower
      exact absurd h (fun ⟨h1, h2⟩ => hlower.elim (fun hn => hn h1) (fun hn => hn h2))
    · intro hc
      rw [hc] at hcase
      exact absurd h (fun ⟨h1, h2⟩ => hcase.elim (fun hn => hn h1) (fun hn => hn h2))
  · rw [heq]

end HttpParser

end Wrk
