import OklchGate.Number.FixedPlaces
import Mathlib.Algebra.Order.Field.Power
import Mathlib.Algebra.Order.Round
import Mathlib.Data.Rat.Floor
import Mathlib.Tactic.Linarith
import Mathlib.Tactic.Positivity

/-!
# Rounding to a multiple of a unit

What it means to round an exact value, and what the rounding of dyadic numbers
does.

There are three groups.

* `Dyadic.toRat`, the exact value of a dyadic number.
* `RoundsTo`: the nearest multiple of a unit, a half going away from zero.
  There is one for every value (`RoundsTo.unique`), it is at most half a unit
  away and does not decrease when the value grows.
* `Dyadic.rounded`, the value that `Dyadic.roundTo` stands for, and
  `roundsTo_iff`: it is the nearest multiple.
-/

namespace OklchGate

/-! ## Exact values -/

namespace Dyadic

/-- The sign of a number as a factor. -/
def sign (x : Dyadic) : ℚ := if x.negative then -1 else 1

/-- The exact value of a number. -/
def toRat (x : Dyadic) : ℚ := x.sign * (x.mantissa * 2 ^ x.exponent)

theorem abs_sign (x : Dyadic) : |x.sign| = 1 := by
  rw [sign]
  split <;> simp

theorem abs_toRat (x : Dyadic) : |x.toRat| = x.mantissa * 2 ^ x.exponent := by
  have hsize : (0 : ℚ) ≤ x.mantissa * 2 ^ x.exponent := by positivity
  rw [toRat, abs_mul, abs_sign, one_mul, abs_of_nonneg hsize]

theorem denominator_pos (x : Dyadic) : 0 < x.denominator := Nat.two_pow_pos _

/-- The size of a number is its fraction of naturals. -/
theorem abs_toRat_eq_div (x : Dyadic) :
    |x.toRat| = x.numerator / x.denominator := by
  have hexponent : x.exponent =
      (x.exponent.toNat : ℤ) - ((-x.exponent).toNat : ℤ) := by omega
  have htwo : (2 : ℚ) ≠ 0 := two_ne_zero
  have hpower : (2 : ℚ) ^ x.exponent =
      2 ^ x.exponent.toNat / 2 ^ (-x.exponent).toNat := by
    conv_lhs => rw [hexponent, zpow_sub₀ htwo, zpow_natCast, zpow_natCast]
  rw [abs_toRat, hpower, ← mul_div_assoc, numerator, denominator, twoTo, twoTo]
  norm_cast

theorem toRat_eq_sign_mul (x : Dyadic) : x.toRat = x.sign * |x.toRat| := by
  rw [abs_toRat, toRat]

/-- Comparing sizes is comparing exact values. -/
theorem sizeLt_iff (x y : Dyadic) :
    x.sizeLt y = true ↔ |x.toRat| < |y.toRat| := by
  have hx : (0 : ℚ) < x.denominator := Nat.cast_pos.mpr x.denominator_pos
  have hy : (0 : ℚ) < y.denominator := Nat.cast_pos.mpr y.denominator_pos
  rw [abs_toRat_eq_div, abs_toRat_eq_div, div_lt_div_iff₀ hx hy, sizeLt,
    decide_eq_true_eq]
  exact_mod_cast Iff.rfl

end Dyadic

/-! ## The nearest multiple -/

/-- `m` is the multiple of `unit` nearest to `x`, and of two such multiples the
one away from zero. -/
structure RoundsTo (unit x m : ℚ) : Prop where
  multiple : ∃ k : ℤ, m = k * unit
  nearest : ∀ k : ℤ, |x - m| ≤ |x - k * unit|
  away : ∀ k : ℤ, |x - k * unit| = |x - m| → |k * unit| ≤ |m|

namespace RoundsTo

variable {unit x y m n : ℚ}

theorem neg (h : RoundsTo unit x m) : RoundsTo unit (-x) (-m) := by
  have hflip : ∀ k : ℤ, |-x - k * unit| = |x - (-k : ℤ) * unit| := by
    intro k
    rw [← abs_neg]
    congr 1
    push_cast
    ring
  have hself : |-x - -m| = |x - m| := by rw [← abs_neg]; congr 1; ring
  obtain ⟨k, hk⟩ := h.multiple
  refine ⟨⟨-k, by rw [hk]; push_cast; ring⟩, fun k => ?_, fun k hk => ?_⟩
  · rw [hself, hflip]
    exact h.nearest (-k)
  · rw [hself, hflip] at hk
    have haway := h.away (-k) hk
    rwa [Int.cast_neg, neg_mul, abs_neg, ← abs_neg m] at haway

/-- Different multiples are at least a unit apart. -/
theorem unit_le_of_ne (hunit : 0 < unit) {j k : ℤ} (h : j ≠ k) :
    unit ≤ |x - j * unit| + |x - k * unit| := by
  have hone : (1 : ℚ) ≤ |(j : ℚ) - k| := by
    exact_mod_cast Int.one_le_abs (sub_ne_zero.mpr h)
  calc unit = 1 * unit := (one_mul unit).symm
    _ ≤ |(j : ℚ) - k| * unit := mul_le_mul_of_nonneg_right hone hunit.le
    _ = |j * unit - k * unit| := by rw [← sub_mul, abs_mul, abs_of_pos hunit]
    _ ≤ |j * unit - x| + |x - k * unit| := abs_sub_le _ _ _
    _ = |x - j * unit| + |x - k * unit| := by rw [abs_sub_comm]

/-- A value that is not negative rounds to the multiple whose half-open
interval holds it: the lower bound, a half, belongs to it. -/
theorem of_bounds (hunit : 0 < unit) {k : ℕ} (hx : 0 ≤ x)
    (hlow : (k - 1 / 2) * unit ≤ x) (hhigh : x < (k + 1 / 2) * unit) :
    RoundsTo unit x (k * unit) := by
  have hhalf : |x - k * unit| ≤ unit / 2 :=
    abs_le.mpr ⟨by linarith, by linarith⟩
  have hfar : ∀ j : ℤ, j ≠ k → unit / 2 ≤ |x - j * unit| := by
    intro j hj
    have happart := unit_le_of_ne (x := x) hunit hj
    rw [Int.cast_natCast] at happart
    linarith
  refine ⟨⟨k, by rw [Int.cast_natCast]⟩, fun j => ?_, fun j hj => ?_⟩
  · by_cases hjk : j = k
    · rw [hjk, Int.cast_natCast]
    · exact hhalf.trans (hfar j hjk)
  · by_cases hjk : j = k
    · rw [hjk, Int.cast_natCast]
    · -- The other multiple at this distance is below the value.
      have hdistance : |x - j * unit| = unit / 2 :=
        le_antisymm (hj ▸ hhalf) (hfar j hjk)
      have hkdistance : |x - k * unit| = unit / 2 := hj ▸ hdistance
      have hbelow : x - k * unit = -(unit / 2) := by
        rcases (abs_eq (by linarith)).mp hkdistance with habove | hbelow
        · linarith
        · exact hbelow
      have hk : (0 : ℚ) ≤ k * unit := by positivity
      rw [abs_of_nonneg hk]
      rcases (abs_eq (by linarith)).mp hdistance with hupper | hlower
      · exact abs_le.mpr ⟨by linarith, by linarith⟩
      · refine absurd ?_ hjk
        have hsame : (j : ℚ) * unit = k * unit := by linarith
        exact_mod_cast mul_right_cancel₀ hunit.ne' hsame

/-- The nearest multiple is at most half a unit away. -/
theorem abs_sub_le (hunit : 0 < unit) (h : RoundsTo unit x m) :
    |x - m| ≤ unit / 2 := by
  have hround : |x / unit - round (x / unit)| ≤ 1 / 2 := abs_sub_round _
  calc |x - m| ≤ |x - round (x / unit) * unit| := h.nearest _
    _ = |x / unit - round (x / unit)| * unit := by
      rw [← abs_of_pos hunit, ← abs_mul, abs_of_pos hunit, sub_mul,
        div_mul_cancel₀ x hunit.ne']
    _ ≤ 1 / 2 * unit := mul_le_mul_of_nonneg_right hround hunit.le
    _ = unit / 2 := by ring

/-- Two nearest multiples are as far from the value and from zero. -/
theorem unique (h : RoundsTo unit x m) (h' : RoundsTo unit x n) : m = n := by
  obtain ⟨j, hj⟩ := h.multiple
  obtain ⟨k, hk⟩ := h'.multiple
  have hdistance : |x - m| = |x - n| :=
    le_antisymm (hk ▸ h.nearest k) (hj ▸ h'.nearest j)
  have hsize : |m| = |n| :=
    le_antisymm (hj ▸ h'.away j (hj ▸ hdistance))
      (hk ▸ h.away k (hk ▸ hdistance.symm))
  rcases abs_eq_abs.mp hsize with heq | hneg
  · exact heq
  -- Opposite multiples are equally near to zero only, which is a multiple
  -- itself.
  have hzero : |x - m| ≤ |x| := by simpa using h.nearest 0
  rcases abs_eq_abs.mp hdistance with hsame | hopposite
  · linarith
  · have hx : x = 0 := by linarith
    rw [hx, abs_zero, zero_sub, abs_neg] at hzero
    have hm : m = 0 := abs_nonpos_iff.mp hzero
    linarith

/-- Of two values, the one that is nearer to the greater multiple is not below
the middle. -/
theorem middle_le (hlt : n < m) (h : |x - m| ≤ |x - n|) : (m + n) / 2 ≤ x := by
  by_contra hbelow
  rw [not_le] at hbelow
  have hnear : |x - n| < m - x := abs_lt.mpr ⟨by linarith, by linarith⟩
  have hfar : m - x ≤ |x - m| := by
    rw [abs_sub_comm]
    exact le_abs_self _
  linarith

/-- A value that is nearer to the lesser multiple is not above the middle. -/
theorem le_middle (hlt : n < m) (h : |x - n| ≤ |x - m|) : x ≤ (m + n) / 2 := by
  have hflip : |-x - -n| ≤ |-x - -m| := by
    simpa only [neg_sub_neg, abs_sub_comm] using h
  have hneg := middle_le (neg_lt_neg hlt) hflip
  linarith

/-- Rounding keeps the order. -/
theorem mono (h : RoundsTo unit x m) (h' : RoundsTo unit y n) (hle : x ≤ y) :
    m ≤ n := by
  by_contra hlt
  rw [not_le] at hlt
  obtain ⟨j, hj⟩ := h.multiple
  obtain ⟨k, hk⟩ := h'.multiple
  -- Both values are in the middle of the two multiples, so they are one value.
  have hx : (m + n) / 2 ≤ x := middle_le hlt (hk ▸ h.nearest k)
  have hy : y ≤ (m + n) / 2 := le_middle hlt (hj ▸ h'.nearest j)
  have hsame : x = y := le_antisymm hle (hy.trans hx)
  exact hlt.ne' (h.unique (hsame ▸ h'))

/-- A value rounds to zero exactly when it is less than half a unit away from
zero. -/
theorem eq_zero_iff (hunit : 0 < unit) (h : RoundsTo unit x m) :
    m = 0 ↔ |x| < unit / 2 := by
  constructor
  · intro hm
    have hhalf : |x| ≤ unit / 2 := by
      simpa only [hm, sub_zero] using h.abs_sub_le hunit
    refine lt_of_le_of_ne hhalf fun hx => ?_
    -- A half is as near to a multiple that is not zero.
    have hother : ∀ k : ℤ, |x - k * unit| = |x - m| → (k : ℚ) = 0 := by
      intro k hk
      have haway : |k * unit| ≤ 0 := by
        simpa only [hm, abs_zero] using h.away k hk
      exact (mul_eq_zero.mp (abs_nonpos_iff.mp haway)).resolve_right hunit.ne'
    rw [hm, sub_zero, hx] at hother
    rcases (abs_eq (by linarith)).mp hx with hpos | hneg
    · have hdistance : |x - (1 : ℤ) * unit| = unit / 2 := by
        rw [hpos, Int.cast_one, one_mul, abs_sub_comm,
          abs_of_nonneg (by linarith)]
        linarith
      have hone := hother 1 hdistance
      norm_num at hone
    · have hdistance : |x - (-1 : ℤ) * unit| = unit / 2 := by
        rw [hneg, Int.cast_neg, Int.cast_one, neg_one_mul,
          abs_of_nonneg (by linarith)]
        linarith
      have hone := hother (-1) hdistance
      norm_num at hone
  · intro hx
    obtain ⟨k, hk⟩ := h.multiple
    have hsmall : |m| < unit := by
      have hdistance : |x - m| ≤ |x| := by simpa using h.nearest 0
      calc |m| = |x - (x - m)| := by rw [sub_sub_cancel]
        _ ≤ |x| + |x - m| := abs_sub _ _
        _ < unit := by linarith
    rw [hk, abs_mul, abs_of_pos hunit] at hsmall
    have hbelow : |(k : ℚ)| < 1 :=
      lt_of_mul_lt_mul_right (by rwa [one_mul]) hunit.le
    have hcast : |k| < 1 := by exact_mod_cast hbelow
    rw [hk, Int.abs_lt_one_iff.mp hcast, Int.cast_zero, zero_mul]

end RoundsTo

/-! ## The rounding of dyadic numbers -/

theorem roundDiv_awayFromZero (num den : ℕ) :
    roundDiv .awayFromZero num den =
      if 2 * (num % den) < den then num / den else num / den + 1 := by
  unfold roundDiv
  dsimp only
  split
  · rfl
  · exact ite_self _

/-- The rounded quotient of naturals is the integer whose half-open interval
holds it. -/
theorem roundDiv_bounds (num : ℕ) {den : ℕ} (hden : 0 < den) :
    2 * (den * roundDiv .awayFromZero num den) ≤ 2 * num + den ∧
      2 * num < 2 * (den * roundDiv .awayFromZero num den) + den := by
  have hdivision : den * (num / den) + num % den = num :=
    Nat.div_add_mod num den
  have hsucc : den * (num / den + 1) = den * (num / den) + den :=
    Nat.mul_succ _ _
  have hmod : num % den < den := Nat.mod_lt num hden
  rw [roundDiv_awayFromZero]
  split
  · omega
  · rw [hsucc]
    omega

namespace Dyadic

/-- The multiple of the last place that a number is rounded to. -/
def rounded (places : ℕ) (x : Dyadic) : ℚ :=
  x.sign * (x.roundTo .awayFromZero places / 10 ^ places)

theorem abs_rounded (places : ℕ) (x : Dyadic) :
    |x.rounded places| = x.roundTo .awayFromZero places / 10 ^ places := by
  have hsize : (0 : ℚ) ≤ x.roundTo .awayFromZero places / 10 ^ places := by
    positivity
  rw [rounded, abs_mul, abs_sign, one_mul, abs_of_nonneg hsize]

/-- The size of a number rounds to the size of its rounded value. -/
theorem roundsTo_abs (places : ℕ) (x : Dyadic) :
    RoundsTo (1 / 10 ^ places) |x.toRat|
      (x.roundTo .awayFromZero places * (1 / 10 ^ places)) := by
  have hden : (0 : ℚ) < x.denominator := Nat.cast_pos.mpr x.denominator_pos
  have hten : (0 : ℚ) < 10 ^ places := by positivity
  obtain ⟨hlow, hhigh⟩ :=
    roundDiv_bounds (x.numerator * tenTo places) x.denominator_pos
  have hlow' : (2 : ℚ) * (x.denominator * x.roundTo .awayFromZero places) ≤
      2 * (x.numerator * 10 ^ places) + x.denominator := by
    exact_mod_cast hlow
  have hhigh' : (2 : ℚ) * (x.numerator * 10 ^ places) <
      2 * (x.denominator * x.roundTo .awayFromZero places) + x.denominator := by
    exact_mod_cast hhigh
  refine RoundsTo.of_bounds (by positivity) (abs_nonneg _) ?_ ?_
  · rw [abs_toRat_eq_div, mul_one_div, div_le_div_iff₀ hten hden]
    linarith
  · rw [abs_toRat_eq_div, mul_one_div, div_lt_div_iff₀ hden hten]
    linarith

/-- A number rounds to its rounded value. -/
theorem roundsTo_rounded (places : ℕ) (x : Dyadic) :
    RoundsTo (1 / 10 ^ places) x.toRat (x.rounded places) := by
  have habs := roundsTo_abs places x
  rw [mul_one_div] at habs
  rw [toRat_eq_sign_mul, rounded, sign]
  split
  · rw [neg_one_mul, neg_one_mul]
    exact habs.neg
  · rwa [one_mul, one_mul]

/-- The rounded value is the only one that a number rounds to. -/
theorem roundsTo_iff (places : ℕ) (x : Dyadic) (m : ℚ) :
    RoundsTo (1 / 10 ^ places) x.toRat m ↔ m = x.rounded places := by
  constructor
  · intro h
    exact h.unique (roundsTo_rounded places x)
  · rintro rfl
    exact roundsTo_rounded places x

end Dyadic

end OklchGate
