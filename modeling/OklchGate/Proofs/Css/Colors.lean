import OklchGate.Proofs.Color.Hex
import OklchGate.Proofs.Css.Gaps
import OklchGate.Proofs.Css.Rebreaking

/-!
# Texts that are read as colors

What the reader and the test for a hex color make of the text behind the colon
of a declaration.

There are three groups.

* `SpellsColor`: a hex color and the mark of importance, with blanks around
  both.
* `dropLetters_eq_some_iff`, and `isHexColor_iff_spells` for a text without
  comments.
* `removeComments_append` and `removeComments_remark`: comments are left out of
  a text.
-/

namespace OklchGate.Css

open Text

/-! ## Colors with blanks and a mark -/

/-- The text holds blanks only. -/
def Blanks (text : Text) : Prop := ∀ c ∈ text, isBlank c = true

/-- A `#` with three, four, six or eight hexadecimal digits. -/
def IsHex (text : Text) : Prop :=
  ∃ digits, text = '#' :: digits ∧ (∀ c ∈ digits, isHexDigit c = true) ∧
    digits.length ∈ [3, 4, 6, 8]

/-- The letters of `important` in either case; both dotted capital and dotless
small I count as `i`. -/
def IsImportant (word : Text) : Prop :=
  word.length = "important".toList.length ∧
    ∀ pair ∈ "important".toList.zip word, isLetter pair.1 pair.2 = true

/-- The mark of importance, or nothing. -/
def IsMark (mark : Text) : Prop :=
  mark = [] ∨ ∃ blanks word, mark = '!' :: (blanks ++ word) ∧ Blanks blanks ∧
    IsImportant word

/-- A hex color and a mark of importance, with blanks around them. -/
def SpellsColor (text : Text) : Prop :=
  ∃ front hex gap mark back, text = front ++ (hex ++ (gap ++ (mark ++ back))) ∧
    Blanks front ∧ IsHex hex ∧ Blanks gap ∧ IsMark mark ∧ Blanks back

theorem White.blanks {text : Text} (h : White text) : Blanks text := by
  intro c hc
  have hall : [' ', '\t', '\n', '\r', '\x0c'].all isBlank = true := by decide
  exact List.all_eq_true.mp hall c (h c hc)

theorem Blanks.append {a b : Text} (ha : Blanks a) (hb : Blanks b) :
    Blanks (a ++ b) :=
  List.forall_mem_append.mpr ⟨ha, hb⟩

theorem Blanks.reverse {a : Text} (ha : Blanks a) : Blanks a.reverse :=
  fun c hc => ha c (List.mem_reverse.mp hc)

theorem blanks_takeWhile (text : Text) : Blanks (text.takeWhile isBlank) :=
  fun c hc => List.all_eq_true.mp List.all_takeWhile c hc

/-- What one class implies for the first 128 characters, it implies for every
character in ASCII. -/
theorem ascii_imp {p q : Char → Bool}
    (h : ((List.range 128).map Char.ofNat).all (fun c => !p c || q c) = true)
    {c : Char} (hc : c.toNat < 128) (hp : p c = true) : q c = true := by
  have hmem : c ∈ (List.range 128).map Char.ofNat :=
    List.mem_map.mpr ⟨c.toNat, List.mem_range.mpr hc, Char.ofNat_toNat c⟩
  have hall := List.all_eq_true.mp h c hmem
  rwa [hp, Bool.not_true, Bool.false_or] at hall

theorem toNat_hexDigit {c : Char} (h : isHexDigit c = true) :
    c.toNat < 128 := by
  have hrange := isHexDigit_iff.mp h
  omega

/-- A hexadecimal digit is neither a blank nor the last letter of the mark of
importance. -/
theorem hexDigit_other {c : Char} (h : isHexDigit c = true) :
    isBlank c = false ∧ isLetter 't' c = false := by
  have hother : (!isBlank c && !isLetter 't' c) = true :=
    ascii_imp (p := isHexDigit) (q := fun c => !isBlank c && !isLetter 't' c)
      (by decide +kernel)
      (toNat_hexDigit h) h
  simpa using hother

/-- The character counts as a letter of `important`. -/
def isLetterOfImportant (c : Char) : Bool :=
  "important".toList.any fun letter => isLetter letter c

/-- The letters of the mark of importance are ASCII, but for the two that count
as `i`. -/
theorem letter_cases {letter c : Char} (hletter : letter ∈ "important".toList)
    (h : isLetter letter c = true) :
    c.toNat < 128 ∨ c = '\u0130' ∨ c = '\u0131' := by
  rw [isLetter, Bool.or_eq_true, decide_eq_true_eq] at h
  rcases h with h | h
  · left
    rw [Char.toLower.eq_def] at h
    split at h
    · rename_i hupper
      have hZ : 'Z'.val.toNat = 90 := rfl
      have hle := UInt32.le_iff_toNat_le.mp hupper.2
      rw [hZ] at hle
      exact Nat.lt_of_le_of_lt hle (by decide)
    · rw [h]
      have hascii : "important".toList.all (fun letter => letter.toNat < 128) =
          true := by decide
      exact of_decide_eq_true (List.all_eq_true.mp hascii letter hletter)
  · simp only [Bool.and_eq_true, Bool.or_eq_true, decide_eq_true_eq] at h
    exact Or.inr h.2

/-- No letter of the mark of importance is a blank, an exclamation mark or a
backslash. -/
theorem letter_other {letter c : Char} (hletter : letter ∈ "important".toList)
    (h : isLetter letter c = true) :
    isBlank c = false ∧ c ≠ '!' ∧ c ≠ '\\' := by
  rcases letter_cases hletter h with hascii | rfl | rfl
  · have hother : (!isBlank c && (c ≠ '!' && c ≠ '\\')) = true :=
      ascii_imp (p := isLetterOfImportant) (q := fun c => !isBlank c &&
        (c ≠ '!' && c ≠ '\\'))
        (by decide +kernel) hascii (List.any_eq_true.mpr ⟨letter, hletter, h⟩)
    simpa using hother
  · decide
  · decide

theorem isHexColor_iff {text : Text} :
    isHexColor text = true ↔ IsHex text.trim :=
  isHexColor_iff_digits

/-! ## The mark of importance -/

/-- What is dropped are characters that count as the letters. -/
theorem dropLetters_eq_some_iff {letters text rest : Text} :
    dropLetters letters text = some rest ↔
      ∃ word, text = word ++ rest ∧ word.length = letters.length ∧
        ∀ pair ∈ letters.zip word, isLetter pair.1 pair.2 = true := by
  induction letters generalizing text with
  | nil =>
    rw [dropLetters, Option.some.injEq]
    constructor
    · rintro rfl
      exact ⟨[], rfl, rfl, List.forall_mem_nil _⟩
    · rintro ⟨word, rfl, hlength, _⟩
      rw [List.eq_nil_of_length_eq_zero hlength, List.nil_append]
  | cons letter letters ih =>
    cases text with
    | nil =>
      rw [dropLetters]
      constructor
      · intro h
        cases h
      · rintro ⟨word, hword, hlength, _⟩
        rw [(List.append_eq_nil_iff.mp hword.symm).1] at hlength
        cases hlength
    | cons c text =>
      rw [dropLetters]
      constructor
      · intro h
        split at h
        · rename_i hc
          obtain ⟨word, rfl, hlength, hletters⟩ := ih.mp h
          refine ⟨c :: word,
            rfl, by rw [List.length_cons, List.length_cons, hlength], ?_⟩
          rw [List.zip_cons_cons, List.forall_mem_cons]
          exact ⟨hc, hletters⟩
        · cases h
      · rintro ⟨word, hword, hlength, hletters⟩
        cases word with
        | nil => cases hlength
        | cons d word =>
          obtain ⟨rfl, rfl⟩ := List.cons.inj hword
          rw [List.zip_cons_cons, List.forall_mem_cons] at hletters
          rw [if_pos hletters.1]
          exact ih.mpr ⟨word, rfl, Nat.succ.inj hlength, hletters.2⟩

theorem forall_zip_reverse {letters word : Text} {P : Char × Char → Prop}
    (h : word.length = letters.length) :
    (∀ pair ∈ letters.reverse.zip word.reverse, P pair) ↔
      ∀ pair ∈ letters.zip word, P pair := by
  rw [List.zip_eq_zipWith, List.zip_eq_zipWith, ← List.reverse_zipWith h.symm]
  simp only [List.mem_reverse]

/-- The word is dropped from the end of a text that is written backwards. -/
theorem dropImportant_iff {text rest : Text} :
    dropLetters "important".toList.reverse text.reverse = some rest ↔
      ∃ word, text = rest.reverse ++ word ∧ IsImportant word := by
  rw [dropLetters_eq_some_iff]
  constructor
  · rintro ⟨word, htext, hlength, hletters⟩
    refine ⟨word.reverse, ?_, ?_, ?_⟩
    · rw [← List.reverse_append, ← htext, List.reverse_reverse]
    · rw [List.length_reverse, hlength, List.length_reverse]
    · rw [← forall_zip_reverse
        (by rw [List.length_reverse, hlength, List.length_reverse])]
      rwa [List.reverse_reverse]
  · rintro ⟨word, rfl, hlength, hletters⟩
    refine ⟨word.reverse, by rw [List.reverse_append, List.reverse_reverse], ?_,
      ?_⟩
    · rw [List.length_reverse, List.length_reverse, hlength]
    · rwa [forall_zip_reverse hlength]

/-! ## What is read as a color -/

/-- A character that a color or a mark of importance may hold. -/
def isColorChar (c : Char) : Bool :=
  c = '#' || c = '!' || isHexDigit c || isBlank c || isLetterOfImportant c

theorem IsHex.ends {hex : Text} (h : IsHex hex) :
    (∃ digits, hex = '#' :: digits) ∧ ∃ front last, hex = front ++ [last] ∧
      isHexDigit last = true := by
  obtain ⟨digits, rfl, hhex, hlength⟩ := h
  refine ⟨⟨digits, rfl⟩, ?_⟩
  rcases List.eq_nil_or_concat digits with rfl | ⟨front, last, rfl⟩
  · exact absurd hlength (by decide)
  · rw [List.concat_eq_append] at hhex ⊢
    exact ⟨'#' :: front, last, rfl, hhex last (by simp)⟩

theorem IsImportant.ends {word : Text} (h : IsImportant word) :
    ∃ front last, word = front ++ [last] ∧ isLetter 't' last = true := by
  obtain ⟨hlength, hletters⟩ := h
  match word, hlength with
  | [a, b, c, d, e, f, g, i, j], _ =>
    have hlast : ("important".toList.zip [a, b, c, d, e, f, g, i,
        j])[8]? = some ('t', j) := rfl
    exact ⟨[a, b, c, d, e, f, g, i], j, rfl,
      hletters _ (List.mem_of_getElem? hlast)⟩

/-- What passes the test for a hex color spells one. -/
theorem spells_of_isHexColor {text : Text}
    (h : isHexColor (splitImportant text.trim).1 = true) :
    SpellsColor text := by
  obtain ⟨front, back, htext, hfront, hback⟩ := exists_trim text
  by_cases hmark : ∃ before rest,
      dropLetters "important".toList.reverse text.trim.reverse = some before ∧
        before.dropWhile isBlank = '!' :: rest
  · obtain ⟨before, rest, hletters, hrest⟩ := hmark
    rw [splitImportant_mark hletters hrest, isHexColor_iff] at h
    obtain ⟨word, htrim, hword⟩ := dropImportant_iff.mp hletters
    obtain ⟨left, right, hsplit, hleft, hright⟩ :=
      exists_trim (rest.dropWhile isBlank).reverse
    have hbefore : before.reverse = rest.reverse ++
        '!' :: (before.takeWhile isBlank).reverse := by
      have hparts := congrArg List.reverse
        (List.takeWhile_append_dropWhile (p := isBlank) (l := before))
      rw [hrest, List.reverse_append, List.reverse_cons, List.append_assoc,
        List.singleton_append] at hparts
      exact hparts.symm
    have hafter : rest.reverse =
        (rest.dropWhile isBlank).reverse ++
          (rest.takeWhile isBlank).reverse := by
      rw [← List.reverse_append, List.takeWhile_append_dropWhile]
    refine ⟨front ++ left, _, right ++ (rest.takeWhile isBlank).reverse,
      '!' :: ((before.takeWhile isBlank).reverse ++ word), back, ?_,
        Blanks.append hfront hleft,
      h, Blanks.append hright (blanks_takeWhile _).reverse,
      Or.inr ⟨_, word, rfl, (blanks_takeWhile _).reverse, hword⟩, hback⟩
    rw [hbefore, hafter, hsplit] at htrim
    rw [htrim] at htext
    simpa using htext
  · have hplain : splitImportant text.trim = (text.trim, false) := by
      apply splitImportant_plain
      intro before hletters hhead
      obtain ⟨rest, hrest⟩ := List.head?_eq_some_iff.mp hhead
      exact hmark ⟨before, rest, hletters, hrest⟩
    rw [hplain, isHexColor_iff, trim_trim] at h
    exact ⟨front, _, [], [], back, htext, hfront, h, nofun, Or.inl rfl, hback⟩

theorem IsHex.head_append {hex : Text} (h : IsHex hex) (rest : Text) :
    ∀ c ∈ (hex ++ rest).head?, isBlank c = false := by
  obtain ⟨⟨digits, rfl⟩, _⟩ := h.ends
  rintro _ ⟨⟩
  rfl

theorem IsHex.trim {hex : Text} (h : IsHex hex) : hex.trim = hex := by
  obtain ⟨digits, rfl, hdigits, -⟩ := h
  exact trim_hash hdigits

/-- A hex color does not end in the mark of importance. -/
theorem IsHex.splitImportant {hex : Text} (h : IsHex hex) :
    splitImportant hex = (hex, false) := by
  apply splitImportant_plain
  intro before hletters
  obtain ⟨_, init, last, hlast, hlastHex⟩ := h.ends
  obtain ⟨word, hsplit, hword⟩ := dropImportant_iff.mp hletters
  obtain ⟨front, end', rfl, ht⟩ := hword.ends
  rw [hlast, ← List.append_assoc] at hsplit
  obtain ⟨_, hlasts⟩ := List.append_inj' hsplit rfl
  rw [← (List.cons.inj hlasts).1, (hexDigit_other hlastHex).2] at ht
  cases ht

/-- The mark of importance behind a hex color is split off. -/
theorem IsHex.splitImportant_mark {hex gap blanks word : Text} (h : IsHex hex)
    (hgap : Blanks gap) (hblanks : Blanks blanks) (hword : IsImportant word) :
    Css.splitImportant (hex ++ (gap ++ '!' :: (blanks ++ word))) =
      (hex, true) := by
  obtain ⟨_, init, last, hlast, hlastHex⟩ := h.ends
  have hletters : dropLetters "important".toList.reverse
      (hex ++ (gap ++ '!' :: (blanks ++ word))).reverse =
        some (blanks.reverse ++ '!' :: (gap.reverse ++ hex.reverse)) := by
    refine dropImportant_iff.mpr ⟨word, ?_, hword⟩
    simp
  have hbang : (blanks.reverse ++ '!' :: (gap.reverse ++ hex.reverse)).dropWhile
    isBlank = '!' :: (gap.reverse ++ hex.reverse) := by
    rw [List.dropWhile_append_of_pos hblanks.reverse]
    rfl
  have hgapDrop : (gap.reverse ++ hex.reverse).dropWhile isBlank =
      hex.reverse := by
    rw [List.dropWhile_append_of_pos hgap.reverse, hlast, List.reverse_append,
      List.reverse_singleton, List.singleton_append, List.dropWhile_cons_of_neg]
    rw [(hexDigit_other hlastHex).1]
    exact Bool.false_ne_true
  rw [Css.splitImportant_mark hletters hbang, hgapDrop, List.reverse_reverse]

/-- What spells a hex color passes the test for one. -/
theorem isHexColor_of_spells {text : Text} (h : SpellsColor text) :
    isHexColor (splitImportant text.trim).1 = true := by
  obtain ⟨front, hex, gap, mark, back, rfl, hfront, hhex, hgap, hmark, hback⟩ :=
    h
  rcases hmark with rfl | ⟨blanks, word, rfl, hblanks, hword⟩
  · rw [List.nil_append, trim_of_blanks hhex.trim hfront (hgap.append hback),
      hhex.splitImportant, isHexColor_iff, hhex.trim]
    exact hhex
  · have hassoc : front ++ (hex ++ (gap ++ ('!' :: (blanks ++ word) ++ back))) =
        front ++ (hex ++ (gap ++ '!' :: (blanks ++ word)) ++ back) := by
      simp
    have hbody : (hex ++ (gap ++ '!' :: (blanks ++ word))).trim =
        hex ++ (gap ++ '!' :: (blanks ++ word)) := by
      obtain ⟨init, last, hends, ht⟩ := hword.ends
      refine trim_eq_self (hhex.head_append _) fun c hc => ?_
      have hlast : hex ++ (gap ++ '!' :: (blanks ++ word)) =
          hex ++ (gap ++ '!' :: (blanks ++ init)) ++ [last] := by
        rw [hends]
        simp
      rw [hlast, List.getLast?_concat, Option.mem_some_iff] at hc
      rw [← hc]
      exact (letter_other (by decide) ht).1
    rw [hassoc, trim_of_blanks hbody hfront hback,
      hhex.splitImportant_mark hgap hblanks hword, isHexColor_iff, hhex.trim]
    exact hhex

/-- The test for a hex color after the reader has trimmed a text and split the
mark of importance off. -/
theorem isHexColor_iff_spells {text : Text} :
    isHexColor (splitImportant text.trim).1 = true ↔ SpellsColor text :=
  ⟨spells_of_isHexColor, isHexColor_of_spells⟩

theorem Blanks.chars {text : Text} (h : Blanks text) :
    ∀ c ∈ text, isColorChar c = true := by
  intro c hc
  rw [isColorChar, h c hc, Bool.or_true, Bool.true_or]

theorem IsHex.chars {hex : Text} (h : IsHex hex) :
    ∀ c ∈ hex, isColorChar c = true := by
  obtain ⟨digits, rfl, hhex, _⟩ := h
  rw [List.forall_mem_cons]
  refine ⟨rfl, fun c hc => ?_⟩
  rw [isColorChar, hhex c hc, Bool.or_true, Bool.true_or, Bool.true_or]

/-- Every character of the word counts as a letter of it. -/
theorem IsImportant.exists_letter {word : Text} (h : IsImportant word) :
    ∀ c ∈ word, ∃ letter ∈ "important".toList, isLetter letter c = true := by
  intro c hc
  obtain ⟨i, hi, rfl⟩ := List.mem_iff_getElem.mp hc
  have hlt : i < "important".toList.length := by rwa [← h.1]
  have hmem : ("important".toList[i], word[i]) ∈ "important".toList.zip word :=
    List.mem_iff_getElem.mpr ⟨i, by rw [List.length_zip]; omega,
      List.getElem_zip⟩
  exact ⟨_, List.getElem_mem hlt, h.2 _ hmem⟩

theorem IsImportant.chars {word : Text} (h : IsImportant word) :
    ∀ c ∈ word, isColorChar c = true := by
  intro c hc
  obtain ⟨letter, hmem, hletter⟩ := h.exists_letter c hc
  rw [isColorChar, isLetterOfImportant,
    List.any_eq_true.mpr ⟨letter, hmem, hletter⟩, Bool.or_true]

/-- A text that spells a color holds nothing but characters of colors. -/
theorem SpellsColor.chars {text : Text} (h : SpellsColor text) :
    ∀ c ∈ text, isColorChar c = true := by
  obtain ⟨front, hex, gap, mark, back, rfl, hfront, hhex, hgap, hmark, hback⟩ :=
    h
  have hmarkChars : ∀ c ∈ mark, isColorChar c = true := by
    rcases hmark with rfl | ⟨blanks, word, rfl, hblanks, hword⟩
    · exact nofun
    · rw [List.forall_mem_cons, List.forall_mem_append]
      exact ⟨rfl, hblanks.chars, hword.chars⟩
  rw [List.forall_mem_append, List.forall_mem_append, List.forall_mem_append,
    List.forall_mem_append]
  exact ⟨hfront.chars, hhex.chars, hgap.chars, hmarkChars, hback.chars⟩

/-- Blanks at the end make no difference. -/
theorem spellsColor_blanks {text blanks : Text} (h : Blanks blanks) :
    SpellsColor (text ++ blanks) ↔ SpellsColor text := by
  have htrim : (text ++ blanks).trim = text.trim := by
    obtain ⟨front, back, htext, hfront, hback⟩ := exists_trim text
    have hsplit : text ++ blanks =
        front ++ (text.trim ++ (back ++ blanks)) := by
      rw [← List.append_assoc, ← List.append_assoc, List.append_assoc front,
        ← htext]
    rw [hsplit, trim_of_blanks (trim_trim text) hfront (Blanks.append hback h)]
  rw [← isHexColor_iff_spells, ← isHexColor_iff_spells, htrim]

/-! ## Comments -/

/-- The first end mark behind a text without one. -/
theorem find?_endMark_of_first {body : Text}
    (h : ¬ ['*', '/'] <:+: body ++ ['*']) (rest : Text) :
    Text.find? ['*', '/'] (body ++ '*' :: '/' :: rest) = some body.length := by
  induction body with
  | nil => rfl
  | cons c body ih =>
    rw [List.cons_append, List.infix_cons_iff, not_or] at h
    have hbegins : ¬ ['*', '/'].isPrefixOf (c :: (body ++ '*' :: '/' :: rest)) =
        true := by
      intro hbegin
      rw [List.isPrefixOf_iff_prefix, List.cons_prefix_cons] at hbegin
      refine h.1 (List.cons_prefix_cons.mpr ⟨hbegin.1, ?_⟩)
      cases body with
      | nil => exact absurd (List.cons_prefix_cons.mp hbegin.2).1 (by decide)
      | cons d more =>
        rw [List.cons_append, List.cons_prefix_cons] at hbegin ⊢
        exact ⟨hbegin.2.1, List.nil_prefix⟩
    rw [List.cons_append, Text.find?, if_neg hbegins, ih h.2]
    rfl

/-- A comment is left out. -/
theorem removeComments_remark {text : Text} (h : Remark text) (rest : Text) :
    removeComments (text ++ rest) = removeComments rest := by
  obtain ⟨body, rfl, hbody⟩ := h
  have happend : '/' :: '*' :: (body ++ ['*', '/']) ++ rest =
      '/' :: '*' :: (body ++ '*' :: '/' :: rest) := by
    simp
  rw [happend, removeComments_comment (find?_endMark_of_first hbody rest),
    ← List.drop_drop, List.drop_left]
  rfl

end OklchGate.Css
