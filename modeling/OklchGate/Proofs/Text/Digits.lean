import OklchGate.Text.Blank
import OklchGate.Text.Digit

/-!
# Digits by their code points

The ranges of the decimal and the hexadecimal digits of ASCII, and the list of
the latter.  No digit is a blank.
-/

namespace OklchGate

theorem isDigit_iff {c : Char} :
    isDigit c = true ↔ 48 ≤ c.toNat ∧ c.toNat ≤ 57 := by
  simp only [isDigit, Bool.and_eq_true, decide_eq_true_eq, Char.le_def,
    UInt32.le_iff_toNat_le]
  rfl

theorem isHexDigit_iff {c : Char} :
    isHexDigit c = true ↔
      (48 ≤ c.toNat ∧ c.toNat ≤ 57) ∨ (97 ≤ c.toNat ∧ c.toNat ≤ 102) ∨
        65 ≤ c.toNat ∧ c.toNat ≤ 70 := by
  rw [isHexDigit, Bool.or_eq_true, Bool.or_eq_true, isDigit_iff, or_assoc]
  simp only [Bool.and_eq_true, decide_eq_true_eq, Char.le_def,
    UInt32.le_iff_toNat_le]
  rfl

theorem isBlank_of_isHexDigit {c : Char} (h : isHexDigit c = true) :
    isBlank c = false := by
  have hrange := isHexDigit_iff.mp h
  rw [Bool.eq_false_iff]
  intro hblank
  simp only [isBlank, Bool.or_eq_true, Bool.and_eq_true, decide_eq_true_eq,
    beq_iff_eq] at hblank
  omega

/-- The hexadecimal digits. -/
def hexAlphabet : Text := "0123456789abcdefABCDEF".toList

theorem mem_hexAlphabet {c : Char} (h : isHexDigit c = true) :
    c ∈ hexAlphabet := by
  have hall : ∀ n < 128, (48 ≤ n ∧ n ≤ 57) ∨ (97 ≤ n ∧ n ≤ 102) ∨
    (65 ≤ n ∧ n ≤ 70) → Char.ofNat n ∈ hexAlphabet := by
    decide
  have hrange := isHexDigit_iff.mp h
  rw [← Char.ofNat_toNat c]
  exact hall c.toNat (by omega) hrange

/-- What holds of the digits in the list, holds of every digit. -/
theorem of_hexAlphabet {p : Char → Bool} (hall : hexAlphabet.all p = true)
    {c : Char} (h : isHexDigit c = true) : p c = true :=
  List.all_eq_true.mp hall c (mem_hexAlphabet h)

theorem hexDigitValue_lt {c : Char} (h : isHexDigit c = true) :
    hexDigitValue c < 16 :=
  of_decide_eq_true
    (of_hexAlphabet (p := fun c => decide (hexDigitValue c < 16)) (by decide) h)

/-- Digits that differ in their case only have the same value, and no other ones
have. -/
theorem toLower_eq_iff {c d : Char} (hc : isHexDigit c = true)
    (hd : isHexDigit d = true) :
    c.toLower = d.toLower ↔ hexDigitValue c = hexDigitValue d := by
  have hall : (hexAlphabet.all fun c => hexAlphabet.all fun d =>
      decide (c.toLower = d.toLower) ==
        decide (hexDigitValue c = hexDigitValue d)) = true := by
    decide +kernel
  have hsame :=
    of_hexAlphabet (List.all_eq_true.mp hall c (mem_hexAlphabet hc)) hd
  rw [beq_iff_eq, decide_eq_decide] at hsame
  exact hsame

end OklchGate
