import OklchGate.Color.Hex
import OklchGate.Proofs.Text.Digits
import OklchGate.Proofs.Text.Trimming

/-!
# Texts that are hex colors

A hex color is a `#` with three, four, six or eight digits, between blanks
(`isHexColor_iff_digits`).  There are no blanks in it (`trim_hash`).
-/

namespace OklchGate

/-- The text holds hexadecimal digits only. -/
def HexDigits (digits : Text) : Prop := ∀ c ∈ digits, isHexDigit c = true

/-- A hex color is a `#` with three, four, six or eight digits, between
blanks. -/
theorem isHexColor_iff_digits {text : Text} :
    isHexColor text = true ↔
      ∃ digits, text.trim = '#' :: digits ∧ HexDigits digits ∧
        digits.length ∈ [3, 4, 6, 8] := by
  unfold isHexColor
  split
  · next digits hdigits =>
    rw [hdigits, Bool.and_eq_true, List.all_eq_true, List.contains_iff_mem]
    constructor
    · rintro ⟨hhex, hlength⟩
      exact ⟨digits, rfl, hhex, hlength⟩
    · rintro ⟨_, ⟨⟩, hhex, hlength⟩
      exact ⟨hhex, hlength⟩
  · next hnot =>
    constructor
    · intro h
      cases h
    · rintro ⟨digits, hdigits, -⟩
      exact absurd hdigits (hnot digits)

/-- There are no blanks around a `#` with digits. -/
theorem trim_hash {digits : Text} (h : HexDigits digits) :
    Text.trim ('#' :: digits) = '#' :: digits := by
  apply Text.trim_eq_self
  · intro c hc
    cases hc
    decide
  · intro c hc
    rcases List.mem_cons.mp (List.mem_of_getLast? hc) with rfl | hmem
    · decide
    · exact isBlank_of_isHexDigit (h c hmem)

theorem isHexColor_hash {digits : Text} (h : HexDigits digits) :
    isHexColor ('#' :: digits) = true ↔ digits.length ∈ [3, 4, 6, 8] := by
  rw [isHexColor_iff_digits, trim_hash h]
  constructor
  · rintro ⟨_, ⟨⟩, -, hlength⟩
    exact hlength
  · intro hlength
    exact ⟨digits, rfl, h, hlength⟩

end OklchGate
