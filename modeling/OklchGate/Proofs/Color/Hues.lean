import OklchGate.Proofs.Color.Components
import Mathlib.Data.List.Basic
import Mathlib.Tactic.NormNum

/-!
# The hue of a color without chroma

A chroma is too small for a hue below `achromaticThreshold`, and it is written
as zero below half a unit of its last place.  No binary64 number lies between
the two bounds, so the two tests agree.

There are three groups.

* `IsBinary64`, the mantissas and exponents of binary64 numbers, and
  `lt_threshold_iff`: where the threshold lies between them.
* `isAchromatic_iff` and `componentText_eq_zero_iff`, the two tests.
* `hue_zero_of_chroma_zero`, about the text of a color.
-/

namespace OklchGate

/-! ## Binary64 numbers around the threshold -/

/-- The mantissas and exponents of finite binary64 numbers.  Where the mantissa
is short, the exponent is the least one. -/
structure IsBinary64 (x : Dyadic) : Prop where
  short : x.mantissa < 2 ^ 53
  full : x.exponent ≠ -1074 → 2 ^ 52 ≤ x.mantissa

theorem isBinary64_of_ofBits {bits : ℕ} {x : Dyadic}
    (h : Binary64.ofBits bits = .finite x) :
    IsBinary64 x := by
  have hfraction : bits % twoTo 52 < 2 ^ 52 := Nat.mod_lt _ (Nat.two_pow_pos 52)
  unfold Binary64.ofBits Binary64.ofParts at h
  split at h
  · split at h
    · cases h
    · cases h
  · split at h
    · cases h
      constructor
      · show bits % twoTo 52 < 2 ^ 53
        omega
      · intro hleast
        exact absurd rfl hleast
    · cases h
      have htwo : twoTo 52 = 2 ^ 52 := rfl
      constructor
      · show twoTo 52 + bits % twoTo 52 < 2 ^ 53
        omega
      · intro _
        exact Nat.le_add_right _ _

theorem toRat_threshold :
    achromaticThreshold.toRat = 4611686018427388 / 2 ^ 63 := by
  rw [Dyadic.toRat, Dyadic.sign, achromaticThreshold]
  norm_num

/-- The threshold is the first binary64 number above half a unit of the third
place. -/
theorem lt_threshold_iff {x : Dyadic} (h : IsBinary64 x) :
    |x.toRat| < achromaticThreshold.toRat ↔ |x.toRat| < 1 / 10 ^ 3 / 2 := by
  rw [toRat_threshold, Dyadic.abs_toRat]
  have hshort : (x.mantissa : ℚ) < 2 ^ 53 := by exact_mod_cast h.short
  constructor
  · intro hlt
    rcases lt_trichotomy x.exponent (-63) with hbelow | hequal | habove
    · have hpower : (2 : ℚ) ^ x.exponent ≤ 2 ^ (-64 : ℤ) :=
        zpow_le_zpow_right₀ one_le_two (by omega)
      calc (x.mantissa : ℚ) * 2 ^ x.exponent
          ≤ 2 ^ 53 * 2 ^ (-64 : ℤ) := by gcongr
        _ < 1 / 10 ^ 3 / 2 := by norm_num
    · have hmantissa : x.mantissa < 4611686018427388 := by
        rw [hequal] at hlt
        have hcast : (x.mantissa : ℚ) < 4611686018427388 := by
          norm_num at hlt
          linarith
        exact_mod_cast hcast
      have hcast : (x.mantissa : ℚ) ≤ 4611686018427387 := by
        exact_mod_cast Nat.le_of_lt_succ hmantissa
      calc (x.mantissa : ℚ) * 2 ^ x.exponent
          ≤ 4611686018427387 * 2 ^ (-63 : ℤ) := by
            rw [hequal]
            gcongr
        _ < 1 / 10 ^ 3 / 2 := by norm_num
    · have hfull : (2 : ℚ) ^ 52 ≤
          x.mantissa := by exact_mod_cast h.full (by omega)
      have hpower : (2 : ℚ) ^ (-62 : ℤ) ≤ 2 ^ x.exponent :=
        zpow_le_zpow_right₀ one_le_two (by omega)
      have hlarge : (2 : ℚ) ^ 52 * 2 ^ (-62 : ℤ) ≤
          x.mantissa * 2 ^ x.exponent := by gcongr
      norm_num at hlarge hlt
      linarith
  · intro hlt
    refine hlt.trans ?_
    norm_num

/-! ## The two tests -/

/-- A chroma is achromatic if its exact value is below the threshold. -/
theorem isAchromatic_iff (x : Dyadic) :
    isAchromatic (.finite x) = true ↔ x.toRat < achromaticThreshold.toRat := by
  have hpos : 0 < achromaticThreshold.toRat := by
    rw [toRat_threshold]
    norm_num
  rw [isAchromatic, Bool.or_eq_true, Dyadic.sizeLt_iff, abs_of_pos hpos,
    x.toRat_eq_sign_mul, Dyadic.sign]
  cases x.negative with
  | true =>
    have hsize := abs_nonneg x.toRat
    simp
    linarith
  | false => simp

/-- A component is written as zero if it is less than half a unit away from
zero. -/
theorem componentText_eq_zero_iff {places : ℕ} (hplaces : 0 < places)
    (x : Dyadic) :
    componentText places (.finite x) = some ['0'] ↔ |x.toRat| <
      1 / 10 ^ places / 2 := by
  have hunit : (0 : ℚ) < 1 / 10 ^ places := by positivity
  rw [componentText_eq_some_iff hplaces,
    ← (Dyadic.roundsTo_rounded places x).eq_zero_iff hunit]
  constructor
  · rintro ⟨-, d, htext, hvalue⟩
    have hzero : d = Decimal.zero := Decimal.text_injective htext
    rw [← hvalue, hzero, Decimal.value_zero]
  · intro hzero
    rw [hzero]
    refine ⟨?_, Decimal.zero, rfl, Decimal.value_zero⟩
    rw [Fits, abs_zero, zero_mul]
    positivity

/-! ## The text of a color -/

/-- The text of a color with these components. -/
def componentsText (lightness chroma hue : Text) : Text :=
  "oklch(".toList ++ lightness ++ [' '] ++ chroma ++ [' '] ++ hue ++ [')']

/-- The components can be read off the text of a color. -/
theorem componentsText_injective {l c h l' c' h' : Text} (hl : ' ' ∉ l)
    (hl' : ' ' ∉ l') (hc : ' ' ∉ c) (hc' : ' ' ∉ c')
    (heq : componentsText l c h = componentsText l' c' h') :
    c = c' ∧ h = h' := by
  have hblank : ∀ rest : Text, ' ' :: rest = [] ∨ [' '] <+: ' ' :: rest :=
    fun rest =>
    Or.inr (List.prefix_append [' '] rest)
  have hassoc : ∀ l c h : Text, componentsText l c h =
      "oklch(".toList ++ (l ++ ' ' :: (c ++ ' ' :: (h ++ [')']))) := by
    intro l c h
    unfold componentsText
    -- The letters in front are not to be looked into.
    generalize "oklch(".toList = front
    simp
  rw [hassoc, hassoc, List.append_cancel_left_eq] at heq
  obtain ⟨-, hrest⟩ :=
    Text.append_inj_of_not_mem hl hl' (hblank _) (hblank _) heq
  obtain ⟨hchroma, hrest⟩ :=
    Text.append_inj_of_not_mem hc hc' (hblank _) (hblank _)
    (List.tail_eq_of_cons_eq hrest)
  exact ⟨hchroma, List.append_cancel_right (List.tail_eq_of_cons_eq hrest)⟩

theorem not_mem_text (d : Decimal) : ' ' ∉ d.text := by
  have hdigits : ∀ {digits : Text}, Digits digits → ' ' ∉ digits := by
    intro digits h hmem
    cases h ' ' hmem
  rw [Decimal.text, List.mem_append, List.mem_append, not_or, not_or]
  refine ⟨⟨?_, hdigits d.digits_whole⟩, ?_⟩
  · split
    · decide
    · exact List.not_mem_nil
  · unfold Decimal.pointed
    split
    · exact List.not_mem_nil
    · exact List.not_mem_cons_of_ne_of_not_mem (by decide)
        (hdigits d.digits_fraction)

theorem not_mem_componentText {places : ℕ} (hplaces : 0 < places)
    {component : Binary64} {text : Text}
    (h : componentText places component = some text) : ' ' ∉ text := by
  cases component with
  | finite x =>
    obtain ⟨-, d, rfl, -⟩ := (componentText_eq_some_iff hplaces x text).mp h
    exact not_mem_text d
  | infinite negative => cases h
  | nan =>
    cases h
    decide

/-- The coordinates of a color that is converted are measured, and its text is
made of the texts of its components. -/
theorem exists_of_oklchOfHexBy {measure : Measure} {value text : Text}
    (h : oklchOfHexBy (Perceptual.ofHexBy measure) value = .ok text) :
    ∃ polar l c h, optionalComponentText 3 (some polar.lightness) = some l ∧
      optionalComponentText 3 (some polar.chroma) = some c ∧
      optionalComponentText 2 (Perceptual.ofPolar polar).hue = some h ∧
      text = componentsText l c h := by
  unfold oklchOfHexBy at h
  split at h
  · cases h
  · cases h
  · next color hcolor =>
    obtain ⟨polar, rfl⟩ : ∃ polar, color = Perceptual.ofPolar polar := by
      unfold Perceptual.ofHexBy at hcolor
      split at hcolor
      · split at hcolor
        · next rgba _ =>
          cases hmeasure : measure rgba.channels with
          | error reason =>
            rw [hmeasure] at hcolor
            cases hcolor
          | ok polar =>
            rw [hmeasure] at hcolor
            cases hcolor
            exact ⟨polar, rfl⟩
        · cases hcolor
      · cases hcolor
    split at h
    · next written hwritten =>
      cases h
      simp only [oklchText, Option.bind_eq_bind, Option.bind_eq_some_iff,
        Option.pure_def, Option.some.injEq] at hwritten
      obtain ⟨l, hl, c, hc, h, hh, rfl⟩ := hwritten
      exact ⟨polar, l, c, h, hl, hc, hh, rfl⟩
    · cases h

/-- A color whose chroma is written as zero has no hue. -/
theorem hue_of_chroma_zero {polar : Polar}
    (h : optionalComponentText 3 (some polar.chroma) = some ['0']) :
    (Perceptual.ofPolar polar).hue = none := by
  have hachromatic : isAchromatic (Binary64.ofFloat polar.chroma) = true := by
    rw [optionalComponentText, Option.getD_some] at h
    cases hchroma : Binary64.ofFloat polar.chroma with
    | finite x =>
      rw [hchroma, componentText_eq_zero_iff (by decide)] at h
      rw [← lt_threshold_iff (isBinary64_of_ofBits hchroma)] at h
      exact (isAchromatic_iff x).mpr ((le_abs_self _).trans_lt h)
    | infinite negative =>
      rw [hchroma] at h
      cases h
    | nan =>
      rw [hchroma] at h
      cases h
  rw [Perceptual.ofPolar]
  dsimp only
  rw [hachromatic, Bool.true_or, if_pos rfl]

theorem optionalComponentText_none :
    optionalComponentText 2 none = some ['0'] := by
  decide +kernel

/-- A binary64 number that is not negative is below the threshold exactly when
it is written as zero.  So, whatever the coordinates of a color are, one that is
written with chroma zero is written with hue zero. -/
theorem hue_zero_of_chroma_zero :
    (∀ (bits : ℕ) (x : Dyadic), Binary64.ofBits bits = .finite x → 0 ≤ x.toRat →
      (isAchromatic (.finite x) = true ↔ x.toRat < achromaticThreshold.toRat) ∧
      (x.toRat < achromaticThreshold.toRat ↔ componentText 3 (.finite x) =
        some ['0'])) ∧
    ∀ (measure : Measure) (value l c h : Text), ' ' ∉ l → ' ' ∉ c →
      oklchOfHexBy (Perceptual.ofHexBy measure) value =
        .ok ("oklch(".toList ++ l ++ [' '] ++ c ++ [' '] ++ h ++ [')']) →
      c = ['0'] → h = ['0'] := by
  constructor
  · intro bits x hbits hx
    refine ⟨isAchromatic_iff x, ?_⟩
    have hthreshold := lt_threshold_iff (isBinary64_of_ofBits hbits)
    rw [abs_of_nonneg hx] at hthreshold
    rw [hthreshold, componentText_eq_zero_iff (by decide), abs_of_nonneg hx]
  · rintro measure value l c h hl hc htext rfl
    obtain ⟨polar, l', c', h', hl', hc', hh', heq⟩ :=
      exists_of_oklchOfHexBy htext
    obtain ⟨hchroma, hhue⟩ :=
      componentsText_injective hl (not_mem_componentText (by decide) hl')
      hc (not_mem_componentText (by decide) hc') heq
    rw [← hchroma] at hc'
    rw [hue_of_chroma_zero hc', optionalComponentText_none] at hh'
    rw [hhue, ← Option.some.inj hh']

/-- The last number below the threshold, as a chroma with a hue. -/
theorem hue_zero_of_chroma_zero_below :
    Binary64.ofBits 0x3F40624DD2F1A9FB = .finite
      ⟨false, 0x10624DD2F1A9FB, -63⟩ ∧
      0 ≤ Dyadic.toRat ⟨false, 0x10624DD2F1A9FB, -63⟩ ∧
      componentText 3 (.finite ⟨false, 0x10624DD2F1A9FB, -63⟩) = some ['0'] ∧
      ∃ hue, oklchOfHexBy
        (Perceptual.ofHexBy fun _ => .ok
          ⟨0.5, Float.ofBits 0x3F40624DD2F1A9FB, 17.0⟩) "#abc".toList =
        .ok ("oklch(".toList ++ "0.5".toList ++ [' '] ++ ['0'] ++ [' '] ++
          hue ++ [')']) ∧
        hue = ['0'] := by
  have hbits : Binary64.ofBits 0x3F40624DD2F1A9FB =
      .finite ⟨false, 0x10624DD2F1A9FB, -63⟩ := by decide
  have hvalue : Dyadic.toRat ⟨false, 0x10624DD2F1A9FB, -63⟩ =
      4611686018427387 / 2 ^ 63 := by
    rw [Dyadic.toRat, Dyadic.sign]
    norm_num
  have hnonneg : 0 ≤ Dyadic.toRat ⟨false, 0x10624DD2F1A9FB, -63⟩ := by
    rw [hvalue]
    positivity
  have hbelow : Dyadic.toRat ⟨false, 0x10624DD2F1A9FB, -63⟩ <
      achromaticThreshold.toRat := by
    rw [hvalue, toRat_threshold]
    norm_num
  have hconverted : (oklchOfHexBy
      (Perceptual.ofHexBy fun _ => .ok
        ⟨0.5, Float.ofBits 0x3F40624DD2F1A9FB, 17.0⟩) "#abc".toList).toOption =
      some ("oklch(".toList ++ "0.5".toList ++ [' '] ++ ['0'] ++ [' '] ++
        ['0'] ++ [')']) := by
    decide +kernel
  have htext : oklchOfHexBy
      (Perceptual.ofHexBy fun _ => .ok
        ⟨0.5, Float.ofBits 0x3F40624DD2F1A9FB, 17.0⟩) "#abc".toList =
      .ok ("oklch(".toList ++ "0.5".toList ++ [' '] ++ ['0'] ++ [' '] ++
        ['0'] ++ [')']) := by
    generalize oklchOfHexBy _ _ = answer at hconverted ⊢
    cases answer with
    | error failure => cases hconverted
    | ok text => rw [Option.some.inj hconverted]
  obtain ⟨htests, hhue⟩ := hue_zero_of_chroma_zero
  exact ⟨hbits, hnonneg, (htests _ _ hbits hnonneg).2.mp hbelow, ['0'], htext,
    hhue _ _ _ _ _ (by decide) (by decide) htext rfl⟩

example : Binary64.ofFloat 0.0005 = .finite achromaticThreshold := by
  decide +kernel

end OklchGate
