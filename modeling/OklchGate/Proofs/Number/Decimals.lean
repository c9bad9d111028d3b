import OklchGate.Number.FixedPlaces
import OklchGate.Number.Numeral
import OklchGate.Proofs.Text.Digits
import OklchGate.Proofs.Text.Slice
import Mathlib.Data.Rat.Cast.Order
import Mathlib.Tactic.FieldSimp
import Mathlib.Tactic.Linarith
import Mathlib.Tactic.Positivity
import Mathlib.Tactic.Ring

/-!
# Plain decimals

A plain decimal is a minus sign perhaps, digits, and a point with more digits
perhaps.  It has no exponent.

There are three groups.

* What a text of digits is worth, and which texts of digits are worth the same.
* `Decimal`: the canonical decimals, with their text and their value.  A text
  stands for one value (`Decimal.text_injective`), and a value has one text
  (`Decimal.value_injective`).
* `Decimal.ofUnits`: a number of units of the last place is written as a
  canonical decimal (`Decimal.text_ofUnits`).
-/

namespace OklchGate

/-! ## Texts of digits -/

theorem digitsValue_eq (digits : Text) :
    digitsValue digits = Nat.ofDigitChars 10 digits 0 := rfl

theorem digitsValue_append (front back : Text) :
    digitsValue (front ++ back) = 10 ^ back.length * digitsValue front +
      digitsValue back := by
  rw [digitsValue_eq, Nat.ofDigitChars_append,
    Nat.ofDigitChars_eq_ofDigitChars_zero]
  rfl

theorem digitsValue_concat (front : Text) (c : Char) :
    digitsValue (front ++ [c]) = 10 * digitsValue front + (c.toNat - 48) := by
  rw [digitsValue, List.foldl_append]
  rfl

theorem digitsValue_zeros (n : Nat) :
    digitsValue (List.replicate n '0') = 0 := by
  rw [digitsValue_eq, Nat.ofDigitChars_replicate_zero, Nat.mul_zero]

theorem ofNat_eq (n : Nat) : Text.ofNat n = Nat.toDigits 10 n := by
  rw [Text.ofNat, Nat.repr_eq_ofList_toDigits, String.toList_ofList]

theorem digitsValue_ofNat (n : Nat) : digitsValue (Text.ofNat n) = n := by
  rw [ofNat_eq, digitsValue_eq, Nat.ofDigitChars_ten_toDigits]

theorem ofNat_ne_nil (n : Nat) : Text.ofNat n ≠ [] := by
  rw [ofNat_eq]
  exact Nat.toDigits_ne_nil

/-- The text holds digits only. -/
def Digits (text : Text) : Prop := ∀ c ∈ text, isDigit c = true

theorem Digits.append {a b : Text} (ha : Digits a) (hb : Digits b) :
    Digits (a ++ b) :=
  List.forall_mem_append.mpr ⟨ha, hb⟩

theorem digits_zeros (n : Nat) : Digits (List.replicate n '0') := by
  intro c hc
  rw [List.eq_of_mem_replicate hc]
  decide

theorem digits_ofNat (n : Nat) : Digits (Text.ofNat n) := by
  intro c hc
  rw [ofNat_eq] at hc
  have hdigit := Nat.isDigit_of_mem_toDigits (by decide) (by decide) hc
  simp only [Char.isDigit, Bool.and_eq_true, decide_eq_true_eq, ge_iff_le,
    UInt32.le_iff_toNat_le] at hdigit
  exact isDigit_iff.mpr hdigit

theorem digitsValue_lt {digits : Text} (h : Digits digits) :
    digitsValue digits < 10 ^ digits.length := by
  induction digits using List.reverseRecOn with
  | nil => decide
  | append_singleton front c ih =>
    have hfront := ih fun d hd => h d (List.mem_append_left _ hd)
    have hc := isDigit_iff.mp (h c (List.mem_append_right _ List.mem_cons_self))
    rw [digitsValue_concat, List.length_append, List.length_singleton,
      Nat.pow_succ]
    omega

/-- Digits of one number with equally many places are the same. -/
theorem eq_of_digitsValue_eq {a b : Text} (ha : Digits a) (hb : Digits b)
    (hlength : a.length = b.length) (h : digitsValue a = digitsValue b) :
    a = b := by
  induction a using List.reverseRecOn generalizing b with
  | nil => exact (List.length_eq_zero_iff.mp hlength.symm).symm
  | append_singleton front c ih =>
    obtain rfl | ⟨other, d, rfl⟩ := b.eq_nil_or_concat'
    · simp at hlength
    · have hc :=
        isDigit_iff.mp (ha c (List.mem_append_right _ List.mem_cons_self))
      have hd :=
        isDigit_iff.mp (hb d (List.mem_append_right _ List.mem_cons_self))
      rw [digitsValue_concat, digitsValue_concat] at h
      have hfront : front = other := by
        apply ih
        · exact fun e he => ha e (List.mem_append_left _ he)
        · exact fun e he => hb e (List.mem_append_left _ he)
        · simpa using hlength
        · omega
      have hlast : c = d := Char.toNat_inj.mp (by omega)
      rw [hfront, hlast]

theorem ofNat_zero : Text.ofNat 0 = ['0'] := by
  rw [ofNat_eq, Nat.toDigits_zero]

/-- A number other than zero is written without a zero in front. -/
theorem head_ofNat {n : Nat} (h : (Text.ofNat n).head? = some '0') : n = 0 := by
  induction n using Nat.strongRecOn with
  | _ n ih =>
    rw [ofNat_eq, Nat.toDigits_eq_if (by decide)] at h
    split at h
    · exact Nat.digitChar_eq_zero.mp (Option.some.inj h)
    · next hlarge =>
      rw [List.head?_append_of_ne_nil _ Nat.toDigits_ne_nil, ← ofNat_eq] at h
      have hquotient := ih (n / 10) (by omega) h
      omega

theorem digitChar_of_digit {c : Char} (h : isDigit c = true) :
    Nat.digitChar (c.toNat - 48) = c := by
  have hrange := isDigit_iff.mp h
  apply Char.toNat_inj.mp
  rw [Nat.toNat_digitChar_of_lt_ten (by omega)]
  omega

/-- Digits without a zero in front are what their number is written with. -/
theorem ofNat_digitsValue {digits : Text} (h : Digits digits)
    (hne : digits ≠ []) (hfirst : digits.head? = some '0' → digits = ['0']) :
    Text.ofNat (digitsValue digits) = digits := by
  induction digits using List.reverseRecOn with
  | nil => exact absurd rfl hne
  | append_singleton front c ih =>
    have hc : isDigit c = true :=
      h c (List.mem_append_right _ List.mem_cons_self)
    have hrange := isDigit_iff.mp hc
    rw [digitsValue_concat, ofNat_eq]
    cases front with
    | nil =>
      show Nat.toDigits 10 (10 * 0 + (c.toNat - 48)) = [c]
      rw [Nat.mul_zero, Nat.zero_add, Nat.toDigits_of_lt_base (by omega),
        digitChar_of_digit hc]
    | cons d front =>
      have hd : (d :: front).head? ≠ some '0' := by
        intro hzero
        have hall := hfirst hzero
        simp at hall
      have hfront : Text.ofNat (digitsValue (d :: front)) = d :: front := by
        apply ih
        · exact fun e he => h e (List.mem_append_left _ he)
        · exact List.cons_ne_nil _ _
        · exact fun hzero => absurd hzero hd
      have hpos : digitsValue (d :: front) ≠ 0 := by
        intro hzero
        rw [hzero, ofNat_zero] at hfront
        exact hd (by rw [← hfront]; rfl)
      rw [Nat.toDigits_of_base_le (by decide) (by omega)]
      have hdiv : (10 * digitsValue (d :: front) + (c.toNat - 48)) / 10 =
          digitsValue (d :: front) := by omega
      have hmod : (10 * digitsValue (d :: front) + (c.toNat - 48)) % 10 =
          c.toNat - 48 := by omega
      rw [hdiv, hmod, ← ofNat_eq, hfront, digitChar_of_digit hc]

/-- Digits end in a zero exactly when their number is a multiple of ten. -/
theorem getLast?_eq_zero_iff {digits : Text} (h : Digits digits)
    (hne : digits ≠ []) :
    digits.getLast? = some '0' ↔ digitsValue digits % 10 = 0 := by
  obtain rfl | ⟨front, c, rfl⟩ := digits.eq_nil_or_concat'
  · exact absurd rfl hne
  · have hc := isDigit_iff.mp (h c (List.mem_append_right _ List.mem_cons_self))
    have hzero : c = '0' ↔ c.toNat = 48 := Char.toNat_inj.symm
    rw [List.getLast?_concat, Option.some.injEq, digitsValue_concat, hzero]
    omega

/-! ## Canonical decimals -/

/-- A canonical decimal: digits without needless zeros, a fraction that may be
missing and does not end in a zero, and a minus sign except before zero. -/
structure Decimal where
  negative : Bool
  whole : Text
  fraction : Text
  digits_whole : Digits whole
  whole_ne_nil : whole ≠ []
  head_whole : whole.head? = some '0' → whole = ['0']
  digits_fraction : Digits fraction
  last_fraction : fraction.getLast? ≠ some '0'
  not_negative_zero : negative = true → ¬ (whole = ['0'] ∧ fraction = [])

namespace Decimal

/-- The point in front of the digits of a fraction.  Without digits there is
none. -/
def pointed (fraction : Text) : Text :=
  if fraction.isEmpty then [] else '.' :: fraction

/-- The text of a decimal. -/
def text (d : Decimal) : Text :=
  (if d.negative then ['-'] else []) ++ d.whole ++ pointed d.fraction

/-- The size of the number that a decimal denotes. -/
def size (d : Decimal) : ℚ :=
  digitsValue d.whole + digitsValue d.fraction / 10 ^ d.fraction.length

/-- The number that a decimal denotes. -/
def value (d : Decimal) : ℚ := if d.negative then -d.size else d.size

/-- Zero. -/
def zero : Decimal where
  negative := false
  whole := ['0']
  fraction := []
  digits_whole := digits_zeros 1
  whole_ne_nil := List.cons_ne_nil _ _
  head_whole := fun _ => rfl
  digits_fraction := digits_zeros 0
  last_fraction := nofun
  not_negative_zero := nofun

theorem value_zero : zero.value = 0 := by
  simp [value, size, zero, digitsValue]

/-! ### One value for each text -/

/-- A point is the first character or there is none. -/
theorem pointed_cases (fraction : Text) :
    pointed fraction = [] ∨ ['.'] <+: pointed fraction := by
  unfold pointed
  split
  · exact Or.inl rfl
  · exact Or.inr (List.prefix_append ['.'] fraction)

theorem pointed_injective {a b : Text} (h : pointed a = pointed b) : a = b := by
  cases a <;> cases b <;> simp_all [pointed]

/-- An unsigned decimal starts with a digit. -/
theorem head_unsigned (d : Decimal) :
    (d.whole ++ pointed d.fraction).head? ≠ some '-' := by
  intro hminus
  rw [List.head?_append_of_ne_nil _ d.whole_ne_nil] at hminus
  have hdigit := d.digits_whole '-' (List.mem_of_head? hminus)
  cases hdigit

/-- A text is the text of one decimal only. -/
theorem text_injective {d e : Decimal} (h : d.text = e.text) : d = e := by
  have hsign : d.negative = e.negative ∧
      d.whole ++ pointed d.fraction = e.whole ++ pointed e.fraction := by
    have hd := d.head_unsigned
    have he := e.head_unsigned
    rw [text, text, List.append_assoc, List.append_assoc] at h
    cases hdneg : d.negative <;> cases heneg : e.negative <;>
      rw [hdneg, heneg] at h
    · exact ⟨rfl, h⟩
    · have hminus : d.whole ++ pointed d.fraction =
          '-' :: (e.whole ++ pointed e.fraction) := h
      rw [hminus] at hd
      exact absurd rfl hd
    · have hminus : '-' :: (d.whole ++ pointed d.fraction) =
          e.whole ++ pointed e.fraction := h
      rw [← hminus] at he
      exact absurd rfl he
    · exact ⟨rfl, List.tail_eq_of_cons_eq h⟩
  obtain ⟨hnegative, hunsigned⟩ := hsign
  have hpoint : ∀ f : Decimal, '.' ∉ f.whole := fun f hmem => by
    cases f.digits_whole '.' hmem
  obtain ⟨hwhole, hpointed⟩ := Text.append_inj_of_not_mem (hpoint d) (hpoint e)
    (pointed_cases d.fraction) (pointed_cases e.fraction) hunsigned
  have hfraction := pointed_injective hpointed
  cases d
  cases e
  simp_all

/-! ### One text for each value -/

/-- The number of units of the last place. -/
def units (d : Decimal) : Nat := digitsValue (d.whole ++ d.fraction)

theorem units_eq (d : Decimal) :
    d.units = 10 ^ d.fraction.length * digitsValue d.whole +
      digitsValue d.fraction :=
  digitsValue_append _ _

theorem size_eq (d : Decimal) : d.size = d.units / 10 ^ d.fraction.length := by
  have hten : (10 : ℚ) ^ d.fraction.length ≠ 0 := by positivity
  rw [size, units_eq]
  push_cast
  field_simp

theorem size_nonneg (d : Decimal) : 0 ≤ d.size := by
  rw [size_eq]
  positivity

/-- The decimal of size zero is zero. -/
theorem eq_zero_of_size (d : Decimal) (h : d.size = 0) :
    d.whole = ['0'] ∧ d.fraction = [] := by
  have hten : (10 : ℚ) ^ d.fraction.length ≠ 0 := by positivity
  have hunits : d.units = 0 := by
    rw [size_eq, div_eq_zero_iff, or_iff_left hten] at h
    exact_mod_cast h
  rw [units_eq] at hunits
  have hwhole : digitsValue d.whole = 0 := by
    have hpos : 0 < 10 ^ d.fraction.length := by positivity
    have hproduct : 10 ^ d.fraction.length * digitsValue d.whole = 0 := by omega
    exact (Nat.mul_eq_zero.mp hproduct).resolve_left hpos.ne'
  constructor
  · rw [← ofNat_digitsValue d.digits_whole d.whole_ne_nil d.head_whole, hwhole,
      ofNat_zero]
  · by_contra hne
    refine d.last_fraction ((getLast?_eq_zero_iff d.digits_fraction hne).mpr ?_)
    omega

/-- The sign of a decimal is the sign of its value. -/
theorem negative_iff (d : Decimal) : d.negative = true ↔ d.value < 0 := by
  have hsize := d.size_nonneg
  cases hsign : d.negative with
  | false => simp [value, hsign, hsize]
  | true =>
    have hne : d.size ≠ 0 :=
      fun hzero => d.not_negative_zero hsign (d.eq_zero_of_size hzero)
    have hpos : 0 < d.size := lt_of_le_of_ne hsize hne.symm
    simp [value, hsign, hpos]

/-- As a fraction does not end in a zero, its length is the least one for its
value. -/
theorem length_fraction_le {d e : Decimal} (h : d.size = e.size) :
    e.fraction.length ≤ d.fraction.length := by
  by_contra hlt
  rw [not_le] at hlt
  obtain ⟨more, hmore⟩ := Nat.exists_eq_add_of_lt hlt
  have hscaled : e.units = d.units * 10 ^ (more + 1) := by
    have hd : (10 : ℚ) ^ d.fraction.length ≠ 0 := by positivity
    have he : (10 : ℚ) ^ e.fraction.length ≠ 0 := by positivity
    rw [size_eq, size_eq, div_eq_div_iff hd he] at h
    have hcross : d.units * 10 ^ e.fraction.length =
        e.units * 10 ^ d.fraction.length := by
      exact_mod_cast h
    apply Nat.eq_of_mul_eq_mul_right
      (Nat.pow_pos (by decide : 0 < 10) (n := d.fraction.length))
    calc e.units * 10 ^ d.fraction.length =
      d.units * 10 ^ (d.fraction.length + more + 1) := by
          rw [← hcross, hmore]
      _ = d.units * 10 ^ (more + 1) * 10 ^ d.fraction.length := by ring
  have hne : e.fraction ≠ [] := by
    intro hnil
    rw [hnil] at hmore
    simp at hmore
  have hlast : (e.whole ++ e.fraction).getLast? = e.fraction.getLast? :=
    List.getLast?_append_of_ne_nil _ hne
  refine e.last_fraction (hlast ▸ (getLast?_eq_zero_iff ?_ ?_).mpr ?_)
  · exact e.digits_whole.append e.digits_fraction
  · exact List.append_ne_nil_of_right_ne_nil _ hne
  · show e.units % 10 = 0
    rw [hscaled, Nat.pow_succ, ← Nat.mul_assoc, Nat.mul_mod_left]

/-- A number is the value of one decimal only. -/
theorem value_injective {d e : Decimal} (h : d.value = e.value) : d = e := by
  have hnegative : d.negative = e.negative := by
    rw [Bool.eq_iff_iff, negative_iff, negative_iff, h]
  have hsize : d.size = e.size := by
    rw [value, value, hnegative] at h
    split at h
    · exact neg_injective h
    · exact h
  have hlength : d.fraction.length = e.fraction.length :=
    le_antisymm (length_fraction_le hsize.symm) (length_fraction_le hsize)
  have hunits : d.units = e.units := by
    have hten : (10 : ℚ) ^ e.fraction.length ≠ 0 := by positivity
    rw [size_eq, size_eq, hlength, div_left_inj' hten] at hsize
    exact_mod_cast hsize
  rw [units_eq, units_eq, hlength] at hunits
  have hd := digitsValue_lt d.digits_fraction
  have he := digitsValue_lt e.digits_fraction
  rw [hlength] at hd
  have hwhole : digitsValue d.whole = digitsValue e.whole := by
    have hdiv := congrArg (· / 10 ^ e.fraction.length) hunits
    simpa [Nat.mul_add_div (Nat.pow_pos (by decide : 0 < 10)),
      Nat.div_eq_of_lt hd,
      Nat.div_eq_of_lt he] using hdiv
  have hfraction : digitsValue d.fraction = digitsValue e.fraction := by
    rw [hwhole] at hunits
    exact Nat.add_left_cancel hunits
  have hwhole' : d.whole = e.whole := by
    rw [← ofNat_digitsValue d.digits_whole d.whole_ne_nil d.head_whole, hwhole,
      ofNat_digitsValue e.digits_whole e.whole_ne_nil e.head_whole]
  have hfraction' : d.fraction = e.fraction :=
    eq_of_digitsValue_eq d.digits_fraction e.digits_fraction hlength hfraction
  cases d
  cases e
  simp_all

end Decimal

/-! ## Numbers with a fixed number of places -/

/-- A fraction without the zeros at its end. -/
def withoutZeros (fraction : Text) : Text :=
  (fraction.reverse.dropWhile (· = '0')).reverse

/-- What is left out of a fraction are zeros, and no zero is left at its end. -/
theorem exists_withoutZeros (fraction : Text) :
    (∃ n, fraction = withoutZeros fraction ++ List.replicate n '0') ∧
      (withoutZeros fraction).getLast? ≠ some '0' := by
  constructor
  · refine ⟨(fraction.reverse.takeWhile (· = '0')).length, ?_⟩
    have hzeros : fraction.reverse.takeWhile (· = '0') =
        List.replicate (fraction.reverse.takeWhile (· = '0')).length '0' := by
      rw [List.eq_replicate_iff]
      exact ⟨rfl, fun c hc =>
        of_decide_eq_true (List.all_eq_true.mp List.all_takeWhile c hc)⟩
    have hparts := congrArg List.reverse
      (List.takeWhile_append_dropWhile (p := (· = '0')) (l := fraction.reverse))
    rw [List.reverse_append, List.reverse_reverse, hzeros,
      List.reverse_replicate] at hparts
    exact hparts.symm
  · rw [withoutZeros, List.getLast?_reverse]
    intro hzero
    have hhead :=
      List.head?_dropWhile_not (fun c => decide (c = '0')) fraction.reverse
    rw [hzero] at hhead
    cases hhead

theorem shortText_eq (places : Nat) (negative : Bool) (units : Nat) :
    shortText places negative units =
      (if negative && units ≠ 0 then ['-'] else []) ++
        Text.ofNat (units / tenTo places) ++
        Decimal.pointed (withoutZeros (fractionDigits places units)) := rfl

theorem digits_fractionDigits (places units : Nat) :
    Digits (fractionDigits places units) :=
  (digits_zeros _).append (digits_ofNat _)

theorem digitsValue_fractionDigits (places units : Nat) :
    digitsValue (fractionDigits places units) = units % 10 ^ places := by
  unfold fractionDigits
  dsimp only
  rw [digitsValue_append, digitsValue_zeros, Nat.mul_zero, Nat.zero_add,
    digitsValue_ofNat]
  rfl

theorem length_fractionDigits {places : Nat} (hplaces : 0 < places)
    (units : Nat) :
    (fractionDigits places units).length = places := by
  have hlength : (Text.ofNat (units % tenTo places)).length ≤ places := by
    rw [ofNat_eq, Nat.length_toDigits_le_iff (by decide) hplaces]
    exact Nat.mod_lt _ (Nat.pow_pos (by decide))
  unfold fractionDigits
  dsimp only
  rw [List.length_append, List.length_replicate]
  omega

theorem digits_withoutZeros {fraction : Text} (h : Digits fraction) :
    Digits (withoutZeros fraction) := by
  obtain ⟨n, hsplit⟩ := (exists_withoutZeros fraction).1
  intro c hc
  apply h
  rw [hsplit]
  exact List.mem_append_left _ hc

/-- The value of a fraction does not depend on the zeros at its end. -/
theorem value_withoutZeros {places : Nat} (hplaces : 0 < places) (units : Nat) :
    (digitsValue (withoutZeros (fractionDigits places units)) /
        10 ^ (withoutZeros (fractionDigits places units)).length : ℚ) =
      (units % 10 ^ places : ℕ) / 10 ^ places := by
  obtain ⟨n, hsplit⟩ := (exists_withoutZeros (fractionDigits places units)).1
  have hlength := length_fractionDigits hplaces units
  have hvalue := digitsValue_fractionDigits places units
  rw [hsplit, List.length_append, List.length_replicate] at hlength
  rw [hsplit, digitsValue_append, List.length_replicate, digitsValue_zeros,
    Nat.add_zero] at hvalue
  have hten : (10 : ℚ) ^ n ≠ 0 := by positivity
  have hpower : (10 : ℚ) ^ places =
      10 ^ n * 10 ^ (withoutZeros (fractionDigits places units)).length := by
    rw [← pow_add, Nat.add_comm, hlength]
  rw [← hvalue, hpower]
  push_cast
  rw [mul_div_mul_left _ _ hten]

/-- Nothing is left of a fraction of zeros only. -/
theorem mod_eq_zero_of_withoutZeros {places : Nat} (hplaces : 0 < places)
    {units : Nat} (h : withoutZeros (fractionDigits places units) = []) :
    units % 10 ^ places = 0 := by
  have hten : (10 : ℚ) ^ places ≠ 0 := by positivity
  have hvalue := value_withoutZeros hplaces units
  rw [h, digitsValue, List.foldl_nil, Nat.cast_zero, zero_div, eq_comm,
    div_eq_zero_iff, or_iff_left hten] at hvalue
  exact_mod_cast hvalue

/-- The decimal of a number of units of the last place. -/
def Decimal.ofUnits (places : Nat) (hplaces : 0 < places) (negative : Bool)
    (units : Nat) :
    Decimal where
  negative := negative && units ≠ 0
  whole := Text.ofNat (units / tenTo places)
  fraction := withoutZeros (fractionDigits places units)
  digits_whole := digits_ofNat _
  whole_ne_nil := ofNat_ne_nil _
  head_whole := fun hzero => by rw [head_ofNat hzero, ofNat_zero]
  digits_fraction := digits_withoutZeros (digits_fractionDigits places units)
  last_fraction := (exists_withoutZeros _).2
  not_negative_zero := by
    rintro hsign ⟨hwhole, hfraction⟩
    rw [Bool.and_eq_true, decide_eq_true_eq] at hsign
    have hquotient : units / 10 ^ places = 0 := by
      have hvalue := congrArg digitsValue hwhole
      rwa [digitsValue_ofNat] at hvalue
    have hdivision := Nat.div_add_mod units (10 ^ places)
    rw [hquotient, mod_eq_zero_of_withoutZeros hplaces hfraction] at hdivision
    exact hsign.2 hdivision.symm

namespace Decimal

variable {places : Nat} (hplaces : 0 < places) (negative : Bool) (units : Nat)

theorem text_ofUnits :
    (ofUnits places hplaces negative units).text =
      shortText places negative units := by
  rw [shortText_eq, text, ofUnits]

theorem size_ofUnits :
    (ofUnits places hplaces negative units).size = units / 10 ^ places := by
  have hten : (10 : ℚ) ^ places ≠ 0 := by positivity
  have hdivision := Nat.div_add_mod units (10 ^ places)
  have hwhole : digitsValue (Text.ofNat (units / tenTo places)) =
      units / 10 ^ places :=
    digitsValue_ofNat _
  rw [size, ofUnits, hwhole, value_withoutZeros hplaces, eq_div_iff hten,
    add_mul, div_mul_cancel₀ _ hten, mul_comm]
  exact_mod_cast hdivision

theorem value_ofUnits :
    (ofUnits places hplaces negative units).value =
      (if negative then -1 else 1) * (units / 10 ^ places) := by
  rw [value, size_ofUnits]
  cases negative with
  | false => exact (one_mul _).symm
  | true =>
    by_cases hunits : units = 0
    · simp [hunits]
    · have hsign : (ofUnits places hplaces true units).negative = true :=
        decide_eq_true hunits
      rw [if_pos hsign, if_pos rfl, neg_one_mul]

end Decimal

end OklchGate
