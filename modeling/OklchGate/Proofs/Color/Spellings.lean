import OklchGate.Color.Oklch
import OklchGate.Proofs.Color.Hex
import Mathlib.Logic.Relation

/-!
# The spellings of a hex color

A hex color can be written in many ways: with blanks around it, with letters in
either case, with three digits or with six, and with alpha or without.

There are three groups.

* `channelText_of_trim`: the digits from which a hex color is read.
* `exists_ofHex_eq`: a hex color is read, and its channels come from the values
  of its digits (`shade`).
* `Respelled`, one change of the spelling, and `spellings_of_color`: texts spell
  one color, alpha apart, exactly when they are connected by such changes.
-/

namespace OklchGate

/-! ## The digits of a color -/

/-- Every digit twice. -/
def doubleDigits (digits : Text) : Text := digits.flatMap fun c => [c, c]

theorem length_doubleDigits (digits : Text) :
    (doubleDigits digits).length = 2 * digits.length := by
  induction digits with
  | nil => rfl
  | cons c digits ih =>
    rw [doubleDigits, List.flatMap_cons, List.length_append, ← doubleDigits, ih,
      List.length_cons]
    show 2 + 2 * digits.length = 2 * (digits.length + 1)
    omega

theorem HexDigits.doubled {digits : Text} (h : HexDigits digits) :
    HexDigits (doubleDigits digits) := by
  intro c hc
  obtain ⟨d, hd, hmem⟩ := List.mem_flatMap.mp hc
  have hsame : c = d := by simpa using hmem
  rw [hsame]
  exact h d hd

/-- The digits from which the channels are read: a short form is doubled. -/
theorem channelText_of_trim {text digits : Text}
    (htrim : text.trim = '#' :: digits) (h : HexDigits digits) :
    channelText text =
      if digits.length = 3 ∨ digits.length = 4 then doubleDigits digits
      else digits := by
  have hdrop : digits.dropWhile (· = '#') = digits := by
    cases digits with
    | nil => rfl
    | cons c digits =>
      apply List.dropWhile_cons_of_neg
      intro hhash
      have hc := h c List.mem_cons_self
      rw [of_decide_eq_true hhash] at hc
      cases hc
  unfold channelText
  dsimp only
  rw [htrim, List.dropWhile_cons_of_pos (by decide), hdrop]
  rfl

/-- A color has two digits for each of its three or four channels. -/
theorem exists_channelText_eq {text : Text} (h : isHexColor text = true) :
    ∃ a b c d e f alpha, channelText text =
      a :: b :: c :: d :: e :: f :: alpha ∧
      HexDigits (a :: b :: c :: d :: e :: f :: alpha) ∧
      (alpha = [] ∨ ∃ g i, alpha = [g, i]) := by
  obtain ⟨digits, htrim, hdigits, hlength⟩ := isHexColor_iff_digits.mp h
  have hchannels : HexDigits (channelText text) ∧
      ((channelText text).length = 6 ∨ (channelText text).length = 8) := by
    rw [channelText_of_trim htrim hdigits]
    split
    · next hshort =>
      rw [length_doubleDigits]
      exact ⟨hdigits.doubled, by omega⟩
    · next hlong =>
      refine ⟨hdigits, ?_⟩
      simp only [List.mem_cons, List.not_mem_nil, or_false] at hlength
      omega
  generalize channelText text = channels at hchannels
  obtain ⟨hall, hlength⟩ := hchannels
  match channels, hlength with
  | [a, b, c, d, e, f], _ => exact ⟨a, b, c, d, e, f, [], rfl, hall, Or.inl rfl⟩
  | [a, b, c, d, e, f, g, i], _ =>
    exact ⟨a, b, c, d, e, f, [g, i], rfl, hall, Or.inr ⟨g, i, rfl⟩⟩

/-! ## The channels of a color -/

/-- The value of two digits. -/
def pairValue (a b : Char) : Nat := 16 * hexDigitValue a + hexDigitValue b

/-- No digit is padding or a sign. -/
theorem hexDigit_plain {c : Char} (h : isHexDigit c = true) :
    isPadding c = false ∧ c ≠ '-' ∧ c ≠ '+' := by
  refine ⟨?_, ?_, ?_⟩
  · rw [isPadding, isBlank_of_isHexDigit h, Bool.false_and]
  · rintro rfl
    cases h
  · rintro rfl
    cases h

theorem channel?_pair {a b : Char} (ha : isHexDigit a = true)
    (hb : isHexDigit b = true) :
    channel? [a, b] = some (pairValue a b : Int) := by
  obtain ⟨hapad, hminus, hplus⟩ := hexDigit_plain ha
  obtain ⟨hbpad, -, -⟩ := hexDigit_plain hb
  have htrim : Text.trimClass isPadding [a, b] = [a, b] := by
    simp [Text.trimClass, hapad, hbpad]
  have hvalues : channelDigits? [a, b] = some (pairValue a b) := by
    simp [channelDigits?, channelDigit?, ha, hb, pairValue]
  unfold channel?
  rw [htrim]
  split
  · next heq =>
    cases heq
    exact absurd rfl hminus
  · next heq =>
    cases heq
    exact absurd rfl hplus
  · rw [hvalues]
    rfl

theorem readChannel_eq (offset : Nat) {digits : Text} {a b : Char}
    (hslice : digits.slice offset (offset + 2) = [a, b])
    (ha : isHexDigit a = true) (hb : isHexDigit b = true) :
    Rgba.readChannel digits offset = .ok (pairValue a b : Int) := by
  unfold Rgba.readChannel
  dsimp only
  rw [hslice, channel?_pair ha hb]

/-- A channel lies between zero and one, in units of 1/255. -/
def InRange (channel : Int) : Prop := 0 ≤ channel ∧ channel ≤ 255

theorem inRange_pairValue {a b : Char} (ha : isHexDigit a = true)
    (hb : isHexDigit b = true) :
    InRange (pairValue a b) := by
  have ha' := hexDigitValue_lt ha
  have hb' := hexDigitValue_lt hb
  unfold InRange pairValue
  omega

/-- A color is read. -/
theorem ofHex_eq {text alpha : Text} {a b c d e f : Char}
    (hchannels : channelText text = a :: b :: c :: d :: e :: f :: alpha)
    (hdigits : HexDigits (a :: b :: c :: d :: e :: f :: alpha))
    (halpha : alpha = [] ∨ ∃ g i, alpha = [g, i]) :
    ∃ value, InRange value ∧
      Rgba.ofHex text = .ok ⟨pairValue a b, pairValue c d, pairValue e f,
        value⟩ := by
  simp only [HexDigits, List.forall_mem_cons] at hdigits
  obtain ⟨ha, hb, hc, hd, he, hf, hrest⟩ := hdigits
  unfold Rgba.ofHex
  dsimp only
  rw [hchannels, readChannel_eq 0 rfl ha hb, readChannel_eq 2 rfl hc hd,
    readChannel_eq 4 rfl he hf]
  rcases halpha with rfl | ⟨g, i, rfl⟩
  · exact ⟨255, ⟨by decide, by decide⟩, rfl⟩
  · simp only [List.forall_mem_cons] at hrest
    rw [readChannel_eq 6 rfl hrest.1 hrest.2.1]
    exact ⟨pairValue g i, inRange_pairValue hrest.1 hrest.2.1, rfl⟩

/-- The values of the digits of a color without its alpha. -/
def shade (text : Text) : List Nat :=
  ((channelText text).take 6).map hexDigitValue

/-- The channels of a color are read from the values of its digits, and they are
in range. -/
theorem exists_ofHex_eq {text : Text} (h : isHexColor text = true) :
    ∃ color, Rgba.ofHex text = .ok color ∧
      (InRange color.red ∧ InRange color.green ∧ InRange color.blue ∧
        InRange color.alpha) ∧
      ∃ a b c d e f : Nat, shade text = [a, b, c, d, e, f] ∧
        b < 16 ∧ d < 16 ∧ f < 16 ∧
        color.red = (16 * a + b : Nat) ∧ color.green = (16 * c + d : Nat) ∧
        color.blue = (16 * e + f : Nat) := by
  obtain ⟨a, b, c, d, e, f, alpha, hchannels, hdigits, halpha⟩ :=
    exists_channelText_eq h
  obtain ⟨value, hvalue, hread⟩ := ofHex_eq hchannels hdigits halpha
  simp only [HexDigits, List.forall_mem_cons] at hdigits
  obtain ⟨ha, hb, hc, hd, he, hf, -⟩ := hdigits
  refine ⟨_, hread,
    ⟨inRange_pairValue ha hb, inRange_pairValue hc hd, inRange_pairValue he hf,
    hvalue⟩, hexDigitValue a, hexDigitValue b, hexDigitValue c, hexDigitValue d,
    hexDigitValue e, hexDigitValue f, ?_, hexDigitValue_lt hb,
      hexDigitValue_lt hd,
    hexDigitValue_lt hf, rfl, rfl, rfl⟩
  rw [shade, hchannels]
  rfl

/-- Two colors have the same red, green and blue. -/
def Rgba.SameShade (color other : Rgba) : Prop :=
  color.red = other.red ∧ color.green = other.green ∧ color.blue = other.blue

/-- Red, green and blue are determined by the values of the digits, and
determine them. -/
theorem sameShade_iff {v w : Text} {color other : Rgba}
    (hv : isHexColor v = true) (hw : isHexColor w = true)
    (hcolor : Rgba.ofHex v = .ok color) (hother : Rgba.ofHex w = .ok other) :
    color.SameShade other ↔ shade v = shade w := by
  obtain ⟨_, hread, -, a, b, c, d, e, f, hshade, hb, hd, hf, hred, hgreen,
      hblue⟩ :=
    exists_ofHex_eq hv
  obtain ⟨_, hread', -, a', b', c', d', e', f', hshade', hb', hd', hf', hred',
      hgreen', hblue'⟩ :=
    exists_ofHex_eq hw
  rw [hcolor] at hread
  rw [hother] at hread'
  cases hread
  cases hread'
  rw [Rgba.SameShade, hshade, hshade', hred, hgreen, hblue, hred', hgreen',
    hblue']
  simp only [List.cons.injEq, and_true]
  omega

/-! ## Changes of the spelling -/

/-- One change of the spelling that leaves the color as it is. -/
inductive Respelled : Text → Text → Prop
  /-- Other blanks around the text. -/
  | blanks {v w : Text} (h : v.trim = w.trim) : Respelled v w
  /-- Letters in another case. -/
  | letters {digits others : Text} (h : HexDigits digits)
    (h' : HexDigits others)
      (hcase : digits.map Char.toLower = others.map Char.toLower) :
      Respelled ('#' :: digits) ('#' :: others)
  /-- Every digit of a short form twice. -/
  | doubled {digits : Text} (h : HexDigits digits)
      (hlength : digits.length = 3 ∨ digits.length = 4) :
      Respelled ('#' :: digits) ('#' :: doubleDigits digits)
  /-- One or two digits of alpha. -/
  | alpha {digits alpha : Text} (h : HexDigits digits)
    (halpha : HexDigits alpha)
      (hlength : digits.length = 3 ∧ alpha.length = 1 ∨ digits.length = 6 ∧
        alpha.length = 2) :
      Respelled ('#' :: digits) ('#' :: (digits ++ alpha))

/-- Two texts are connected by changes of the spelling, there or back. -/
abbrev Spellings : Text → Text → Prop := Relation.EqvGen Respelled

theorem channelText_hash {digits : Text} (h : HexDigits digits) :
    channelText ('#' :: digits) =
      if digits.length = 3 ∨ digits.length = 4 then doubleDigits digits
      else digits :=
  channelText_of_trim (trim_hash h) h

/-- Digits differ in the case of letters only if they have the same values. -/
theorem map_toLower_eq_iff {digits others : Text} (h : HexDigits digits)
    (h' : HexDigits others) :
    digits.map Char.toLower = others.map Char.toLower ↔
      digits.map hexDigitValue = others.map hexDigitValue := by
  induction digits generalizing others with
  | nil => cases others <;> simp
  | cons c digits ih =>
    cases others with
    | nil => simp
    | cons d others =>
      rw [HexDigits, List.forall_mem_cons] at h h'
      simp only [List.map_cons, List.cons.injEq, toLower_eq_iff h.1 h'.1,
        ih h.2 h'.2]

theorem map_doubleDigits (digits : Text) :
    (doubleDigits digits).map hexDigitValue =
      (digits.map hexDigitValue).flatMap fun value => [value, value] := by
  rw [doubleDigits, List.map_flatMap, List.flatMap_map]
  rfl

/-- The texts of a color and only they spell it after a change. -/
theorem Respelled.isHexColor_iff {v w : Text} (h : Respelled v w) :
    isHexColor v = true ↔ isHexColor w = true := by
  cases h with
  | blanks h => rw [isHexColor_iff_digits, isHexColor_iff_digits, h]
  | letters h h' hcase =>
    have hlength := congrArg List.length hcase
    rw [List.length_map, List.length_map] at hlength
    rw [isHexColor_hash h, isHexColor_hash h', hlength]
  | doubled h hlength =>
    rw [isHexColor_hash h, isHexColor_hash h.doubled, length_doubleDigits]
    rcases hlength with hlength | hlength <;> rw [hlength] <;> decide
  | alpha h halpha hlength =>
    rw [isHexColor_hash h,
      isHexColor_hash (List.forall_mem_append.mpr ⟨h, halpha⟩),
      List.length_append]
    rcases hlength with ⟨hdigits, hone⟩ | ⟨hdigits, htwo⟩
    · rw [hdigits, hone]
      decide
    · rw [hdigits, htwo]
      decide

/-- A change keeps red, green and blue. -/
theorem Respelled.shade_eq {v w : Text} (h : Respelled v w) :
    shade v = shade w := by
  cases h with
  | blanks h => rw [shade, shade, channelText, channelText, h]
  | letters h h' hcase =>
    have hlength := congrArg List.length hcase
    have hvalues := (map_toLower_eq_iff h h').mp hcase
    rw [List.length_map, List.length_map] at hlength
    rw [shade, shade, channelText_hash h, channelText_hash h', hlength,
      List.map_take, List.map_take]
    split
    · rw [map_doubleDigits, map_doubleDigits, hvalues]
    · rw [hvalues]
  | doubled h hlength =>
    rw [shade, shade, channelText_hash h, channelText_hash h.doubled,
      if_pos hlength, if_neg]
    rw [length_doubleDigits]
    omega
  | @alpha digits alpha h halpha hlength =>
    rw [shade, shade, channelText_hash h,
      channelText_hash (List.forall_mem_append.mpr ⟨h, halpha⟩),
      List.length_append]
    rcases hlength with ⟨hdigits, hone⟩ | ⟨hdigits, htwo⟩
    · have hsplit : doubleDigits (digits ++ alpha) = doubleDigits digits ++
          doubleDigits alpha :=
        List.flatMap_append
      have hsix : 6 ≤ (doubleDigits digits).length := by
        rw [length_doubleDigits]
        omega
      rw [if_pos (Or.inl hdigits), if_pos (Or.inr (by omega)), hsplit,
        List.take_append_of_le_length hsix]
    · rw [if_neg (by omega), if_neg (by omega),
        List.take_append_of_le_length (by omega)]

/-- Changes, there or back, keep red, green and blue. -/
theorem Spellings.keeps {v w : Text} (h : Spellings v w) :
    (isHexColor v = true ↔ isHexColor w = true) ∧ shade v = shade w := by
  induction h with
  | rel v w h => exact ⟨h.isHexColor_iff, h.shade_eq⟩
  | refl v => exact ⟨Iff.rfl, rfl⟩
  | symm v w _ ih => exact ⟨ih.1.symm, ih.2.symm⟩
  | trans u v w _ _ ih ih' => exact ⟨ih.1.trans ih'.1, ih.2.trans ih'.2⟩

/-- A color can be written with its first six digits alone. -/
theorem spellings_six {text : Text} (h : isHexColor text = true) :
    Spellings text ('#' :: (channelText text).take 6) := by
  obtain ⟨digits, htrim, hdigits, hlength⟩ := isHexColor_iff_digits.mp h
  have hbare : Spellings text ('#' :: digits) := by
    apply Relation.EqvGen.rel
    apply Respelled.blanks
    rw [htrim, trim_hash hdigits]
  have hlong : Spellings ('#' :: digits) ('#' :: channelText text) := by
    rw [channelText_of_trim htrim hdigits]
    split
    · next hshort => exact .rel _ _ (.doubled hdigits hshort)
    · exact .refl _
  have hsix : Spellings ('#' :: channelText text)
      ('#' :: (channelText text).take 6) := by
    obtain ⟨a, b, c, d, e, f, alpha, hchannels, hall, halpha⟩ :=
      exists_channelText_eq h
    rw [hchannels]
    show Spellings ('#' :: ([a, b, c, d, e, f] ++ alpha))
      ('#' :: [a, b, c, d, e, f])
    obtain ⟨hfirst, hrest⟩ : HexDigits [a, b, c, d, e, f] ∧ HexDigits alpha :=
      List.forall_mem_append.mp hall
    rcases halpha with rfl | ⟨g, i, rfl⟩
    · exact .refl _
    · exact .symm _ _ (.rel _ _ (.alpha hfirst hrest (Or.inr ⟨rfl, rfl⟩)))
  exact .trans _ _ _ hbare (.trans _ _ _ hlong hsix)

/-- Texts spell one color, alpha apart, exactly when they are connected by
changes of the spelling. -/
theorem spellings_iff {v w : Text} (hv : isHexColor v = true) :
    Spellings v w ↔ isHexColor w = true ∧ shade v = shade w := by
  constructor
  · intro h
    exact ⟨h.keeps.1.mp hv, h.keeps.2⟩
  · rintro ⟨hw, hshade⟩
    have hdigits : ∀ {text : Text}, isHexColor text = true →
        HexDigits ((channelText text).take 6) := by
      intro text h
      obtain ⟨a, b, c, d, e, f, alpha, hchannels, hall, -⟩ :=
        exists_channelText_eq h
      rw [hchannels]
      exact fun c hc => hall c (List.mem_of_mem_take hc)
    have hcase := (map_toLower_eq_iff (hdigits hv) (hdigits hw)).mpr hshade
    exact .trans _ _ _ (spellings_six hv) (.trans _ _ _
      (.rel _ _ (.letters (hdigits hv) (hdigits hw) hcase))
        (.symm _ _ (spellings_six hw)))

/-- The conversion of a color depends on its red, green and blue only. -/
theorem oklchOfHexBy_congr {v w : Text} {color other : Rgba}
    (hv : isHexColor v = true) (hw : isHexColor w = true)
    (hcolor : Rgba.ofHex v = .ok color) (hother : Rgba.ofHex w = .ok other)
    (h : color.SameShade other) (measure : Measure) :
    oklchOfHexBy (Perceptual.ofHexBy measure) v =
      oklchOfHexBy (Perceptual.ofHexBy measure) w := by
  have hchannels : color.channels = other.channels := by
    rw [Rgba.channels, Rgba.channels, h.1, h.2.1, h.2.2]
  unfold oklchOfHexBy Perceptual.ofHexBy
  rw [if_pos hv, if_pos hw, hcolor, hother]
  dsimp only
  rw [hchannels]

/-- A hex color is read, with channels from zero to one.  The texts connected to
it by changes of the spelling are the hex colors with the same red, green and
blue, and all of them convert alike. -/
theorem spellings_of_color {v : Text} (hv : isHexColor v = true) :
    ∃ color, Rgba.ofHex v = .ok color ∧
      (InRange color.red ∧ InRange color.green ∧ InRange color.blue ∧
        InRange color.alpha) ∧
      ∀ w, (Spellings v w ↔ isHexColor w = true ∧
          ∃ other, Rgba.ofHex w = .ok other ∧ color.SameShade other) ∧
        (Spellings v w → ∀ measure,
          oklchOfHexBy (Perceptual.ofHexBy measure) w =
          oklchOfHexBy (Perceptual.ofHexBy measure) v) := by
  obtain ⟨color, hcolor, hrange, -⟩ := exists_ofHex_eq hv
  refine ⟨color, hcolor, hrange, fun w => ?_⟩
  have hsame : Spellings v w ↔ isHexColor w = true ∧
      ∃ other, Rgba.ofHex w = .ok other ∧ color.SameShade other := by
    rw [spellings_iff hv]
    apply and_congr_right
    intro hw
    obtain ⟨other, hother, -⟩ := exists_ofHex_eq hw
    rw [← sameShade_iff hv hw hcolor hother]
    constructor
    · intro h
      exact ⟨other, hother, h⟩
    · rintro ⟨_, hread, h⟩
      rw [hother] at hread
      cases hread
      exact h
  refine ⟨hsame, fun h measure => ?_⟩
  obtain ⟨hw, other, hother, hshade⟩ := hsame.mp h
  exact (oklchOfHexBy_congr hv hw hcolor hother hshade measure).symm

/-- A short form, and a long one in another case with blanks and alpha. -/
theorem spellings_of_color_padded :
    isHexColor "#aBc".toList = true ∧
      Spellings "#aBc".toList " #AABBCC80\n".toList ∧
      Rgba.ofHex "#aBc".toList = .ok ⟨0xAA, 0xBB, 0xCC, 255⟩ ∧
      (InRange 0xAA ∧ InRange 0xBB ∧ InRange 0xCC ∧ InRange 255) ∧
      ∀ measure, oklchOfHexBy (Perceptual.ofHexBy measure)
        " #AABBCC80\n".toList =
        oklchOfHexBy (Perceptual.ofHexBy measure) "#aBc".toList := by
  have hshort : isHexColor "#aBc".toList = true := by decide
  have hread : Rgba.ofHex "#aBc".toList = .ok ⟨0xAA, 0xBB, 0xCC, 255⟩ := by rfl
  have hother : Rgba.ofHex " #AABBCC80\n".toList = .ok ⟨0xAA, 0xBB, 0xCC,
      0x80⟩ := by rfl
  obtain ⟨color, hcolor, hrange, hspellings⟩ := spellings_of_color hshort
  rw [hread] at hcolor
  cases hcolor
  obtain ⟨hsame, hconverts⟩ := hspellings " #AABBCC80\n".toList
  have hspelled := hsame.mpr ⟨by decide, _, hother, rfl, rfl, rfl⟩
  exact ⟨hshort, hspelled, hread, hrange, hconverts hspelled⟩

end OklchGate
