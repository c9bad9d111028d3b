import OklchGate.Color.Oklch
import OklchGate.Proofs.Number.Decimals
import OklchGate.Proofs.Number.Rounding

/-!
# The text of a component

A component is written as the canonical decimal of its exact value, rounded to
the places that it has.

* `componentText_eq_some_iff`: a number whose rounded value has at most 28
  digits is written as the decimal of that value, and no other number is
  written.
* `componentText_rounded` puts together what this says: the number that is
  written is the nearest one, a half going away from zero.
-/

namespace OklchGate

/-- The rounded value of a number has at most 28 digits. -/
def Fits (places : ℕ) (m : ℚ) : Prop := |m| * 10 ^ places < 10 ^ 28

theorem fits_rounded_iff (places : ℕ) (x : Dyadic) :
    Fits places (x.rounded places) ↔ x.roundTo .awayFromZero places <
      tenTo componentDigits := by
  have hten : (10 : ℚ) ^ places ≠ 0 := by positivity
  rw [Fits, Dyadic.abs_rounded, div_mul_cancel₀ _ hten]
  exact_mod_cast Iff.rfl

/-- The decimal of a rounded value has the text of its units of the last
place. -/
theorem exists_decimal {places : ℕ} (hplaces : 0 < places) (x : Dyadic) :
    ∃ d : Decimal,
      d.text = shortText places x.negative (x.roundTo .awayFromZero places) ∧
      d.value = x.rounded places :=
  ⟨Decimal.ofUnits places hplaces x.negative (x.roundTo .awayFromZero places),
    Decimal.text_ofUnits hplaces _ _, Decimal.value_ofUnits hplaces _ _⟩

/-- A number that fits is written as the decimal of its rounded value. -/
theorem componentText_eq_some_iff {places : ℕ} (hplaces : 0 < places)
    (x : Dyadic) (text : Text) :
    componentText places (.finite x) = some text ↔
      Fits places (x.rounded places) ∧
        ∃ d : Decimal, d.text = text ∧ d.value = x.rounded places := by
  obtain ⟨decimal, htext, hvalue⟩ := exists_decimal hplaces x
  rw [fits_rounded_iff, componentText, ← htext]
  split
  · next hfits =>
    rw [Option.some.injEq]
    constructor
    · intro h
      exact ⟨hfits, decimal, h, hvalue⟩
    · rintro ⟨-, d, rfl, hd⟩
      rw [Decimal.value_injective (hvalue.trans hd.symm)]
  · next hlarge =>
    constructor
    · intro h
      cases h
    · intro h
      exact absurd h.1 hlarge

/-- A component is written as the canonical decimal of the nearest multiple of
its last place, a half going away from zero, unless that has more than 28
digits.  So it is at most half a unit away, it does not decrease when the
component grows, and two components are written alike exactly when they have the
same nearest multiple. -/
theorem componentText_rounded {places : ℕ} (hplaces : 0 < places) :
    (∀ x : Dyadic, ∃ m, (∀ n, RoundsTo (1 / 10 ^ places) x.toRat n ↔ n = m) ∧
      |x.toRat - m| ≤ 1 / 10 ^ places / 2 ∧
      (Fits places m →
        ∃ d : Decimal, componentText places (.finite x) = some d.text ∧
          d.value = m) ∧
      (¬ Fits places m → componentText places (.finite x) = none)) ∧
    ∀ (x y : Dyadic) (m n : ℚ), RoundsTo (1 / 10 ^ places) x.toRat m →
      RoundsTo (1 / 10 ^ places) y.toRat n →
      (x.toRat ≤ y.toRat → m ≤ n) ∧
      (Fits places m → Fits places n →
        (componentText places (.finite x) = componentText places (.finite y) ↔
          m = n)) := by
  have hunit : (0 : ℚ) < 1 / 10 ^ places := by positivity
  have hwritten : ∀ x : Dyadic, Fits places (x.rounded places) →
      ∃ d : Decimal, componentText places (.finite x) = some d.text ∧
        d.value = x.rounded places := by
    intro x hfits
    obtain ⟨d, -, hd⟩ := exists_decimal hplaces x
    exact ⟨d, (componentText_eq_some_iff hplaces x d.text).mpr ⟨hfits, d, rfl,
      hd⟩, hd⟩
  constructor
  · intro x
    refine ⟨x.rounded places, Dyadic.roundsTo_iff places x,
      (Dyadic.roundsTo_rounded places x).abs_sub_le hunit, hwritten x,
        fun hlarge => ?_⟩
    rw [Option.eq_none_iff_forall_ne_some]
    intro text htext
    exact hlarge ((componentText_eq_some_iff hplaces x text).mp htext).1
  · intro x y m n hx hy
    refine ⟨hx.mono hy, fun hm hn => ?_⟩
    rw [Dyadic.roundsTo_iff] at hx hy
    subst hx hy
    obtain ⟨d, hd, hdvalue⟩ := hwritten x hm
    obtain ⟨e, he, hevalue⟩ := hwritten y hn
    rw [hd, he, Option.some.injEq, ← hdvalue, ← hevalue]
    constructor
    · intro htext
      rw [Decimal.text_injective htext]
    · intro hvalue
      rw [Decimal.value_injective hvalue]

/-- A negative number halfway between two multiples, and one above it that is
written alike. -/
theorem componentText_rounded_half :
    0 < 3 ∧ RoundsTo (1 / 10 ^ 3) (Dyadic.toRat ⟨true, 1, -4⟩) (-63 / 1000) ∧
      RoundsTo (1 / 10 ^ 3) (Dyadic.toRat ⟨true, 257, -12⟩) (-63 / 1000) ∧
      Fits 3 (-63 / 1000) ∧
      (∃ d : Decimal, componentText 3 (.finite ⟨true, 1, -4⟩) = some d.text ∧
        d.value = -63 / 1000) ∧
      componentText 3 (.finite ⟨true, 1, -4⟩) =
        componentText 3 (.finite ⟨true, 257, -12⟩) := by
  have hrounds : ∀ x : Dyadic, x.negative = true →
    x.roundTo .awayFromZero 3 = 63 →
      RoundsTo (1 / 10 ^ 3) x.toRat (-63 / 1000) := by
    intro x hsign hunits
    have hrounded : x.rounded 3 = -63 / 1000 := by
      rw [Dyadic.rounded, hunits, Dyadic.sign, if_pos hsign]
      norm_num
    rw [← hrounded]
    exact Dyadic.roundsTo_rounded 3 x
  have hx := hrounds ⟨true, 1, -4⟩ rfl (by decide)
  have hy := hrounds ⟨true, 257, -12⟩ rfl (by decide)
  have hfits : Fits 3 (-63 / 1000) := by
    rw [Fits, abs_div, abs_neg]
    norm_num
  obtain ⟨hall, hpairs⟩ := componentText_rounded (by decide : 0 < 3)
  obtain ⟨m, hm, -, hwritten, -⟩ := hall ⟨true, 1, -4⟩
  have hvalue : -63 / 1000 = m := (hm _).mp hx
  subst hvalue
  exact ⟨by decide, hx, hy, hfits, hwritten hfits,
    ((hpairs _ _ _ _ hx hy).2 hfits hfits).mpr rfl⟩

example : componentText 3 (.finite ⟨true, 1, -4⟩) = some "-0.063".toList := by
  decide

end OklchGate
