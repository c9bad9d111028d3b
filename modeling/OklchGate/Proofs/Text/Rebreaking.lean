import OklchGate.Color.Hex
import OklchGate.Proofs.Text.Breaks
import OklchGate.Proofs.Text.Trimming
import OklchGate.Proofs.Text.Weave

/-!
# Texts with other line breaks

A text that breaks its lines with LF can be written with CR LF or CR instead.
What the reader does to a text does the same to the text with other breaks,
and an offset moves by what the breaks before it have become longer.

There are seven groups.

* `Text.rebreak` writes a text with another break.  `IsBreak` is what a break
  is made of, and `Style` the two breaks other than LF.
* Writing the breaks twice: `length_rebreak_rebreak` and `rebreak_rebreak`.
* Offsets.  `Text.stretch` is an offset in the text with other breaks, and
  `slice_rebreak` reads a slice there.
* Trimming and searching: `trim_rebreak`, `find?_rebreak` and
  `isHexColor_rebreak`.
* Lines: `lineIndent_rebreak` and `newlineStyle_rebreak`.
* `rebreak_textOf_weave`, a text into which others are put.
* `strokes_rebreak`, from which `normalizeBreaks_rebreak` follows.
-/

namespace OklchGate

namespace Text

/-! ## Other breaks -/

/-- The text with every LF written as `mark`. -/
def rebreak (mark text : Text) : Text := replaceChar '\n' mark text

/-- A line break is made of CR and LF. -/
def IsBreak (mark : Text) : Prop := mark ≠ [] ∧ ∀ c ∈ mark, c = '\r' ∨ c = '\n'

/-- The line breaks of a style sheet other than LF. -/
def Style (mark : Text) : Prop := mark = ['\r', '\n'] ∨ mark = ['\r']

theorem Style.isBreak {mark : Text} (h : Style mark) : IsBreak mark := by
  rcases h with rfl | rfl <;> simp [IsBreak]

theorem IsBreak.reverse {mark : Text} (h : IsBreak mark) :
    IsBreak mark.reverse := by
  constructor
  · intro hnil
    exact h.1 (List.reverse_eq_nil_iff.mp hnil)
  · intro c hc
    exact h.2 c (List.mem_reverse.mp hc)

/-- A break starts with CR or LF. -/
theorem IsBreak.exists_cons {mark : Text} (h : IsBreak mark) :
    ∃ c rest, mark = c :: rest ∧ (c = '\r' ∨ c = '\n') := by
  cases mark with
  | nil => exact absurd rfl h.1
  | cons c rest => exact ⟨c, rest, rfl, h.2 c List.mem_cons_self⟩

@[simp] theorem rebreak_nil (mark : Text) : rebreak mark [] = [] := rfl

@[simp] theorem rebreak_break (mark rest : Text) :
    rebreak mark ('\n' :: rest) = mark ++ rebreak mark rest := rfl

theorem rebreak_other (mark : Text) {c : Char} (hc : c ≠ '\n') (rest : Text) :
    rebreak mark (c :: rest) = c :: rebreak mark rest := by
  simp [rebreak, replaceChar, hc]

theorem rebreak_singleton (mark : Text) {c : Char} (hc : c ≠ '\n') :
    rebreak mark [c] = [c] :=
  rebreak_other mark hc []

@[simp] theorem rebreak_append (mark a b : Text) :
    rebreak mark (a ++ b) = rebreak mark a ++ rebreak mark b :=
  List.flatMap_append

theorem rebreak_flatten (mark : Text) (texts : List Text) :
    rebreak mark texts.flatten = (texts.map (rebreak mark)).flatten := by
  induction texts with
  | nil => rfl
  | cons text rest ih => simp [ih]

/-- A text without breaks stays as it is. -/
theorem rebreak_eq_self (mark : Text) {text : Text} (h : '\n' ∉ text) :
    rebreak mark text = text := by
  induction text with
  | nil => rfl
  | cons c rest ih =>
    rw [List.mem_cons, not_or] at h
    rw [rebreak_other mark (Ne.symm h.1), ih h.2]

/-- Written with LF, a text stays as it is. -/
theorem rebreak_lf (text : Text) : rebreak ['\n'] text = text := by
  induction text with
  | nil => rfl
  | cons c rest ih =>
    by_cases hc : c = '\n'
    · rw [hc, rebreak_break, ih]
      rfl
    · rw [rebreak_other _ hc, ih]

theorem reverse_rebreak (mark text : Text) :
    (rebreak mark text).reverse = rebreak mark.reverse text.reverse := by
  induction text with
  | nil => rfl
  | cons c rest ih =>
    by_cases hc : c = '\n'
    · rw [hc, rebreak_break, List.reverse_append, ih, List.reverse_cons,
        rebreak_append, rebreak_break, rebreak_nil, List.append_nil]
    · rw [rebreak_other _ hc, List.reverse_cons, ih, List.reverse_cons,
        rebreak_append, rebreak_singleton _ hc]

/-- No LF is left where the break holds none. -/
theorem not_mem_rebreak {mark : Text} (h : '\n' ∉ mark) (text : Text) :
    '\n' ∉ rebreak mark text := by
  induction text with
  | nil => simp
  | cons c rest ih =>
    by_cases hc : c = '\n'
    · rw [hc, rebreak_break, List.mem_append, not_or]
      exact ⟨h, ih⟩
    · rw [rebreak_other _ hc, List.mem_cons, not_or]
      exact ⟨Ne.symm hc, ih⟩

/-- The text starts with a character that is no break exactly when it does so
with other breaks. -/
theorem head?_rebreak {mark : Text} (hmark : IsBreak mark) (text : Text)
    {c : Char} (hr : c ≠ '\r') (hn : c ≠ '\n') :
    (rebreak mark text).head? = some c ↔ text.head? = some c := by
  cases text with
  | nil => simp
  | cons d rest =>
    by_cases hd : d = '\n'
    · obtain ⟨e, others, hcons, he⟩ := hmark.exists_cons
      rw [hd, rebreak_break, hcons]
      rcases he with rfl | rfl <;> simp [Ne.symm hr, Ne.symm hn]
    · rw [rebreak_other _ hd]
      rfl

theorem rebreak_eq_nil_iff {mark : Text} (hmark : mark ≠ []) {text : Text} :
    rebreak mark text = [] ↔ text = [] := by
  cases text with
  | nil => simp
  | cons c rest =>
    by_cases hc : c = '\n'
    · simp [hc, hmark]
    · simp [rebreak_other _ hc]

/-- The breaks are read back as LF. -/
theorem unifyNewlines_rebreak {mark : Text} (hmark : Style mark) {text : Text}
    (h : '\r' ∉ text) : unifyNewlines (rebreak mark text) = text := by
  induction text with
  | nil => rfl
  | cons c rest ih =>
    rw [List.mem_cons, not_or] at h
    by_cases hc : c = '\n'
    · subst hc
      rcases hmark with rfl | rfl
      · rw [rebreak_break]
        simpa [unifyNewlines] using ih h.2
      · -- a CR is read together with an LF after it, but there is no LF left
        have hnot : '\n' ∉ rebreak ['\r'] rest := not_mem_rebreak (by simp) rest
        have hunify : unifyNewlines ('\r' :: rebreak ['\r'] rest) =
            '\n' :: unifyNewlines (rebreak ['\r'] rest) := by
          cases hrest : rebreak ['\r'] rest with
          | nil => rfl
          | cons d others =>
            have hd : d ≠ '\n' := by
              intro hd
              exact hnot (by rw [hrest, hd]; exact List.mem_cons_self)
            rw [unifyNewlines]
            · rfl
            · intro others' _ heq
              exact hd (List.cons.inj heq).1
        rw [rebreak_break, List.singleton_append, hunify, ih h.2]
    · rw [rebreak_other _ hc, unifyNewlines]
      · rw [ih h.2, if_neg (Ne.symm h.1)]
      · intro others hr
        exact absurd hr.symm h.1

/-- Texts without CR are told apart by what they are with other breaks. -/
theorem rebreak_inj {mark : Text} (hmark : Style mark) {a b : Text}
    (ha : '\r' ∉ a) (hb : '\r' ∉ b) :
    rebreak mark a = rebreak mark b ↔ a = b := by
  constructor
  · intro h
    rw [← unifyNewlines_rebreak hmark ha, h, unifyNewlines_rebreak hmark hb]
  · rintro rfl
    rfl

/-! ## Breaks written twice -/

/-- A text grows by what each of its breaks grows by. -/
theorem length_rebreak {mark : Text} (hmark : mark ≠ []) (text : Text) :
    (rebreak mark text).length = text.length + (mark.length - 1) *
      text.count '\n' := by
  have hpos : 1 ≤ mark.length := List.length_pos_iff.mpr hmark
  induction text with
  | nil => simp
  | cons c rest ih =>
    by_cases hc : c = '\n'
    · rw [hc, rebreak_break, List.length_append, ih, List.length_cons,
        List.count_cons_self, Nat.mul_add]
      omega
    · rw [rebreak_other _ hc, List.length_cons, ih, List.length_cons,
        List.count_cons_of_ne hc]
      omega

/-- Writing the breaks of a text twice writes the LF in them once more. -/
theorem length_rebreak_rebreak {mark : Text} (hmark : Style mark)
    (text : Text) :
    (rebreak mark (rebreak mark text)).length =
      (rebreak mark text).length + (mark.length - 1) * text.count '\n' := by
  rcases hmark with rfl | rfl
  · have hcount : (rebreak ['\r', '\n'] text).count '\n' = text.count '\n' := by
      induction text with
      | nil => rfl
      | cons c rest ih =>
        by_cases hc : c = '\n'
        · simp [hc, ih]
        · rw [rebreak_other _ hc, List.count_cons_of_ne hc,
            List.count_cons_of_ne hc, ih]
    rw [length_rebreak (by simp) (rebreak _ text), hcount]
  · rw [rebreak_eq_self _ (not_mem_rebreak (by simp) text)]
    simp

/-- Writing the breaks of a text twice is writing them once if they hold no LF
or the text has none. -/
theorem rebreak_rebreak {mark text : Text} (h : mark = ['\r'] ∨ '\n' ∉ text) :
    rebreak mark (rebreak mark text) = rebreak mark text := by
  rcases h with rfl | h
  · exact rebreak_eq_self _ (not_mem_rebreak (by simp) text)
  · rw [rebreak_eq_self mark h, rebreak_eq_self mark h]

/-! ## Offsets -/

/-- Where an offset of a text lies in the text with other breaks. -/
def stretch (mark source : Text) (offset : Nat) : Nat :=
  (rebreak mark (source.take offset)).length

theorem stretch_zero (mark source : Text) : stretch mark source 0 = 0 := rfl

/-- The end of the text stays its end. -/
theorem stretch_length (mark source : Text) :
    stretch mark source source.length = (rebreak mark source).length := by
  rw [stretch, List.take_length]

/-- An offset after some more of the text. -/
theorem stretch_add (mark : Text) {source front part back : Text}
    (h : source = front ++ part ++ back) :
    stretch mark source (front.length + part.length) =
      stretch mark source front.length + (rebreak mark part).length := by
  have hfront : source.take front.length = front := by
    simp [h]
  have hpart : source.take (front.length + part.length) = front ++ part := by
    rw [h, ← List.length_append, List.take_left']
    rfl
  rw [stretch, stretch, hfront, hpart, rebreak_append, List.length_append]

theorem stretch_mono (mark source : Text) {a b : Nat} (h : a ≤ b) :
    stretch mark source a ≤ stretch mark source b := by
  rw [stretch, stretch, take_eq_take_append_slice source h, rebreak_append,
    List.length_append]
  omega

/-- The slice between two stretched offsets is the slice with other breaks. -/
theorem slice_rebreak (mark source : Text) (a b : Nat) :
    (rebreak mark source).slice (stretch mark source a)
      (stretch mark source b) = rebreak mark (source.slice a b) := by
  rcases Nat.le_total a b with hab | hba
  · have htake := take_eq_take_append_slice source hab
    have hsplit : rebreak mark source =
        rebreak mark (source.take a) ++ rebreak mark (source.slice a b) ++
          rebreak mark (source.drop b) := by
      rw [← rebreak_append, ← htake, ← rebreak_append, List.take_append_drop]
    rw [hsplit, stretch, stretch, htake, rebreak_append, List.length_append]
    exact slice_of_append _ _ _
  · rw [slice_eq_nil _ hba, slice_eq_nil _ (stretch_mono mark source hba),
      rebreak_nil]

/-- What stands after a stretched offset. -/
theorem drop_rebreak (mark text : Text) (a : Nat) :
    (rebreak mark text).drop (stretch mark text a) =
      rebreak mark (text.drop a) := by
  have hsplit : rebreak mark text = rebreak mark (text.take a) ++
      rebreak mark (text.drop a) := by
    rw [← rebreak_append, List.take_append_drop]
  rw [hsplit, stretch, List.drop_left]

/-- Before a character other than LF, an offset moves by one. -/
theorem stretch_succ (mark : Text) {source : Text} {a : Nat} {c : Char}
    (hc : c ≠ '\n') (h : source[a]? = some c) :
    stretch mark source (a + 1) = stretch mark source a + 1 := by
  rw [stretch, stretch, List.take_add_one, h]
  simp [rebreak_singleton _ hc]

/-! ## Trimming and searching -/

theorem dropWhile_rebreak {mark : Text} {isIn : Char → Bool}
    (hmark : ∀ c ∈ mark, isIn c = true) (hbreak : isIn '\n' = true)
    (text : Text) :
    (rebreak mark text).dropWhile isIn =
      rebreak mark (text.dropWhile isIn) := by
  induction text with
  | nil => rfl
  | cons c rest ih =>
    by_cases hc : c = '\n'
    · rw [hc, rebreak_break, List.dropWhile_append_of_pos hmark, ih,
        List.dropWhile_cons_of_pos hbreak]
    · rw [rebreak_other _ hc]
      by_cases hin : isIn c = true
      · rw [List.dropWhile_cons_of_pos hin, List.dropWhile_cons_of_pos hin, ih]
      · rw [List.dropWhile_cons_of_neg hin, List.dropWhile_cons_of_neg hin,
          rebreak_other _ hc]

theorem IsBreak.isBlank {mark : Text} (h : IsBreak mark) :
    ∀ c ∈ mark, isBlank c = true := by
  intro c hc
  rcases h.2 c hc with rfl | rfl <;> rfl

theorem dropBlanks_rebreak {mark : Text} (hmark : IsBreak mark) (text : Text) :
    (rebreak mark text).dropWhile isBlank =
      rebreak mark (text.dropWhile isBlank) :=
  dropWhile_rebreak hmark.isBlank rfl text

/-- Trimming does not look at how lines are broken. -/
theorem trim_rebreak {mark : Text} (hmark : IsBreak mark) (text : Text) :
    trim (rebreak mark text) = rebreak mark (trim text) := by
  rw [trim, trim, trimEnd, trimEnd, trimStart, trimStart,
    dropBlanks_rebreak hmark, reverse_rebreak, dropBlanks_rebreak hmark.reverse,
    reverse_rebreak, List.reverse_reverse]

/-- The end mark of a comment is found at the stretched offset. -/
theorem find?_rebreak {mark : Text} (hmark : IsBreak mark) (text : Text) :
    find? ['*', '/'] (rebreak mark text) =
      (find? ['*', '/'] text).map (stretch mark text) := by
  induction text with
  | nil => rfl
  | cons c rest ih =>
    have hskip : ∀ {c : Char}, c ≠ '*' → ∀ rest,
        find? ['*', '/'] (c :: rest) = (find? ['*', '/'] rest).map (· + 1) := by
      intro c hc rest
      rw [find?, if_neg (by simp [List.isPrefixOf, Ne.symm hc])]
    by_cases hc : c = '\n'
    · subst hc
      have hmarks : ∀ before : Text, (∀ c ∈ before, c = '\r' ∨ c = '\n') →
        ∀ rest,
          find? ['*', '/'] (before ++ rest) =
            (find? ['*', '/'] rest).map (· + before.length) := by
        intro before hbefore rest
        induction before with
        | nil => simp
        | cons d others ih =>
          have hd : d ≠ '*' := by
            rcases hbefore d List.mem_cons_self with rfl | rfl <;> simp
          rw [List.cons_append, hskip hd, ih fun c hc =>
            hbefore c (List.mem_cons_of_mem _ hc), Option.map_map]
          rfl
      rw [rebreak_break, hmarks mark hmark.2, ih, hskip (by simp),
        Option.map_map,
        Option.map_map]
      congr 1
      funext offset
      simp [stretch, Nat.add_comm]
    · have hstretch : ∀ offset, stretch mark (c :: rest) (offset + 1) =
          stretch mark rest offset + 1 := by
        intro offset
        simp [stretch, rebreak_other _ hc]
      have hprefix : ['*', '/'].isPrefixOf (c :: rebreak mark rest) =
          ['*', '/'].isPrefixOf (c :: rest) := by
        cases rest with
        | nil => rfl
        | cons d others =>
          by_cases hd : d = '\n'
          · obtain ⟨e, more, hmore, he⟩ := hmark.exists_cons
            rw [hd, rebreak_break, hmore]
            rcases he with rfl | rfl <;> simp [List.isPrefixOf]
          · rw [rebreak_other _ hd]
            simp [List.isPrefixOf]
      rw [rebreak_other _ hc, find?, find?, hprefix, ih]
      split
      · rfl
      · rw [Option.map_map, Option.map_map]
        congr 1
        funext offset
        exact (hstretch offset).symm

/-- The end mark of a comment keeps its length. -/
theorem stretch_find? (mark : Text) {text : Text} {length : Nat}
    (h : find? ['*', '/'] text = some length) :
    stretch mark text (length + 2) = stretch mark text length + 2 := by
  have hmarks : text[length]? = some '*' ∧ text[length + 1]? = some '/' := by
    induction text generalizing length with
    | nil => exact absurd h nofun
    | cons c rest ih =>
      rw [find?] at h
      split at h
      · rename_i hprefix
        obtain rfl := Option.some.inj h
        cases rest with
        | nil => simp [List.isPrefixOf] at hprefix
        | cons d others =>
          simp only [List.isPrefixOf, Bool.and_true, Bool.and_eq_true,
            beq_iff_eq] at hprefix
          obtain ⟨rfl, rfl⟩ := hprefix
          exact ⟨rfl, rfl⟩
      · obtain ⟨n, hn, rfl⟩ := Option.map_eq_some_iff.mp h
        simpa using ih hn
  rw [stretch_succ mark (by decide) hmarks.2,
    stretch_succ mark (by decide) hmarks.1]

/-- Whether a text is a hex color does not depend on how it breaks its lines. -/
theorem isHexColor_rebreak {mark : Text} (hmark : IsBreak mark) (text : Text) :
    isHexColor (rebreak mark text) = isHexColor text := by
  have hdigits : ∀ digits : Text,
      (digits.all isHexDigit = true ∨
        (rebreak mark digits).all isHexDigit = true) →
        rebreak mark digits = digits := by
    intro digits hall
    apply rebreak_eq_self
    intro hmem
    rcases hall with hall | hall
    · exact absurd (List.all_eq_true.mp hall _ hmem) (by decide)
    · obtain ⟨c, rest, hcons, hc⟩ := hmark.exists_cons
      obtain ⟨front, back, rfl⟩ := List.append_of_mem hmem
      have hcmem : c ∈ rebreak mark (front ++ '\n' :: back) := by
        simp [hcons]
      have := List.all_eq_true.mp hall _ hcmem
      rcases hc with rfl | rfl <;> exact absurd this (by decide)
  rw [isHexColor, isHexColor, trim_rebreak hmark]
  cases htrim : trim text with
  | nil => rfl
  | cons c digits =>
    by_cases hc : c = '\n'
    · obtain ⟨d, rest, hcons, hd⟩ := hmark.exists_cons
      rw [hc, rebreak_break, hcons]
      rcases hd with rfl | rfl <;> rfl
    · rw [rebreak_other _ hc]
      by_cases hall : digits.all isHexDigit = true ∨
        (rebreak mark digits).all isHexDigit = true
      · rw [hdigits digits hall]
      · rw [not_or, Bool.not_eq_true, Bool.not_eq_true] at hall
        by_cases hhash : c = '#'
        · subst hhash
          simp [hall.1, hall.2]
        · split
          · rename_i h
            exact absurd (List.cons.inj h).1 hhash
          · split
            · rename_i h
              exact absurd (List.cons.inj h).1 hhash
            · rfl

/-! ## Lines -/

theorem lastLine_rebreak {mark : Text} (hmark : IsBreak mark) (text : Text) :
    lastLine (rebreak mark text) = lastLine text := by
  have htake : ∀ (mark : Text), IsBreak mark → ∀ text : Text,
      (rebreak mark text).takeWhile (fun c => c ≠ '\n' && c ≠ '\r') =
        text.takeWhile fun c => c ≠ '\n' && c ≠ '\r' := by
    intro mark hmark text
    induction text with
    | nil => rfl
    | cons c rest ih =>
      by_cases hc : c = '\n'
      · obtain ⟨d, others, hcons, hd⟩ := hmark.exists_cons
        rw [hc, rebreak_break, hcons]
        rcases hd with rfl | rfl <;> simp
      · rw [rebreak_other _ hc, List.takeWhile_cons, List.takeWhile_cons, ih]
  rw [lastLine, lastLine, reverse_rebreak, htake _ hmark.reverse]

/-- The indent before an offset does not depend on how lines are broken. -/
theorem lineIndent_rebreak {mark : Text} (hmark : IsBreak mark) (source : Text)
    (offset : Nat) :
    lineIndent (rebreak mark source) (stretch mark source offset) =
      lineIndent source offset := by
  have htake : (rebreak mark source).take (stretch mark source offset) =
      rebreak mark (source.take offset) := by
    have h := slice_rebreak mark source 0 offset
    rw [stretch_zero] at h
    simpa [slice] using h
  rw [lineIndent, lineIndent, htake, lastLine_rebreak hmark]

/-- Lines are broken with LF, CR LF or CR. -/
theorem newlineStyle_cases (source : Text) :
    newlineStyle source = ['\n'] ∨ Style (newlineStyle source) := by
  fun_induction newlineStyle source with
  | case1 => exact Or.inl rfl
  | case2 => exact Or.inr (Or.inl rfl)
  | case3 c rest _ hc =>
    rcases hc with rfl | rfl
    · exact Or.inr (Or.inr rfl)
    · exact Or.inl rfl
  | case4 c rest _ _ ih => exact ih

/-- The newline style of a text that breaks its lines with LF. -/
theorem newlineStyle_of_lf {source : Text} (hcr : '\r' ∉ source) :
    newlineStyle source = ['\n'] := by
  induction source with
  | nil => rfl
  | cons c rest ih =>
    rw [List.mem_cons, not_or] at hcr
    rw [newlineStyle]
    · by_cases hc : c = '\n'
      · simp [hc]
      · rw [if_neg (by simp [hc, Ne.symm hcr.1]), ih hcr.2]
    · intro others hr
      exact absurd hr.symm hcr.1

/-- The newline style of a text with other breaks. -/
theorem newlineStyle_rebreak {mark : Text} (hmark : Style mark) {source : Text}
    (hcr : '\r' ∉ source) (hlf : '\n' ∈ source) :
    newlineStyle (rebreak mark source) = mark := by
  induction source with
  | nil => exact absurd hlf nofun
  | cons c rest ih =>
    rw [List.mem_cons, not_or] at hcr
    by_cases hc : c = '\n'
    · rw [hc, rebreak_break]
      rcases hmark with rfl | rfl
      · rfl
      · have hnot : '\n' ∉ rebreak ['\r'] rest := not_mem_rebreak (by simp) rest
        cases hrest : rebreak ['\r'] rest with
        | nil => rfl
        | cons d others =>
          rw [List.singleton_append, newlineStyle]
          · simp
          · intro others' _ heq
            exact hnot
              (by rw [hrest, (List.cons.inj heq).1]; exact List.mem_cons_self)
    · have hrest : '\n' ∈ rest := by
        rcases List.mem_cons.mp hlf with h | h
        · exact absurd h.symm hc
        · exact h
      rw [rebreak_other _ hc, newlineStyle]
      · rw [if_neg (by simp [hc, Ne.symm hcr.1]), ih hcr.2 hrest]
      · intro others hr
        exact absurd hr.symm hcr.1

/-! ## Weaving -/

/-- A patch of the text with other breaks. -/
def Patch.rebreak (mark source : Text) (patch : Patch) : Patch :=
  ⟨stretch mark source patch.offset, mark.rebreak patch.text⟩

theorem stretch_lt (mark source : Text) (hmark : mark ≠ []) {a b : Nat}
    (h : a < b) (hb : b ≤ source.length) :
    stretch mark source a < stretch mark source b := by
  have ha : source[a]? = some source[a] := List.getElem?_eq_getElem (by omega)
  have hpart : rebreak mark [source[a]] ≠ [] := by
    rw [Ne, rebreak_eq_nil_iff hmark]
    exact List.cons_ne_nil _ _
  have hsucc : stretch mark source (a + 1) =
      stretch mark source a + (rebreak mark [source[a]]).length := by
    rw [stretch, stretch, List.take_add_one, ha, rebreak_append,
      List.length_append]
    rfl
  have hpos := List.length_pos_iff.mpr hpart
  have hmono := stretch_mono mark source (show a + 1 ≤ b from h)
  omega

/-- What is put in at a stretched offset. -/
theorem patchesAt_rebreak {mark : Text} (hmark : mark ≠ []) {source : Text}
    {patches : List Patch}
    (hpatches : ∀ patch ∈ patches, patch.offset ≤ source.length) {offset : Nat}
    (hoffset : offset ≤ source.length) :
    patchesAt (patches.map (Patch.rebreak mark source))
      (stretch mark source offset) =
      mark.rebreak (patchesAt patches offset) := by
  induction patches with
  | nil => rfl
  | cons patch rest ih =>
    have hpatch := hpatches patch List.mem_cons_self
    have hsame : (patch.rebreak mark source).offset =
      stretch mark source offset ↔ patch.offset = offset := by
      constructor
      · intro h
        have h : stretch mark source patch.offset =
            stretch mark source offset := h
        rcases Nat.lt_trichotomy patch.offset offset with hlt | heq | hgt
        · exact absurd h
            (Nat.ne_of_lt (stretch_lt mark source hmark hlt hoffset))
        · exact heq
        · exact absurd h.symm
            (Nat.ne_of_lt (stretch_lt mark source hmark hgt hpatch))
      · intro h
        rw [← h]
        rfl
    rw [List.map_cons, patchesAt_cons, patchesAt_cons, rebreak_append,
      ih fun p hp => hpatches p (List.mem_cons_of_mem _ hp)]
    by_cases h : patch.offset = offset
    · rw [if_pos h, if_pos (hsame.mpr h)]
      rfl
    · rw [if_neg h, if_neg fun h' => h (hsame.mp h')]
      rfl

/-- Nothing is put in inside of a break. -/
theorem patchesAt_inside {source : Text} (patches : List Patch) {offset : Nat}
    (h : source[offset]? = some '\n') :
    patchesAt (patches.map (Patch.rebreak ['\r', '\n'] source))
      (stretch ['\r', '\n'] source offset + 1) = [] := by
  apply patchesAt_eq_nil
  intro patch hpatch
  obtain ⟨own, _, rfl⟩ := List.mem_map.mp hpatch
  have hsucc : stretch ['\r', '\n'] source (offset + 1) =
      stretch ['\r', '\n'] source offset + 2 := by
    rw [stretch, stretch, List.take_add_one, h, rebreak_append,
      List.length_append]
    rfl
  show stretch _ source own.offset ≠ _
  rcases Nat.lt_or_ge offset own.offset with hlt | hge
  · have := stretch_mono ['\r', '\n'] source
      (show offset + 1 ≤ own.offset from hlt)
    omega
  · have := stretch_mono ['\r', '\n'] source hge
    omega

theorem weaveAfter_rebreak {mark : Text} (hmark : Style mark) {source : Text}
    {patches : List Patch}
    (hpatches : ∀ patch ∈ patches, patch.offset ≤ source.length)
    (front text : Text) (hsource : source = front ++ text) :
    mark.rebreak (weaveAfter patches front.length text) =
      weaveAfter (patches.map (Patch.rebreak mark source))
        (stretch mark source front.length) (mark.rebreak text) := by
  induction text generalizing front with
  | nil => rfl
  | cons c rest ih =>
    have hsplit : source = (front ++ [c]) ++ rest := by
      rw [hsource]
      simp
    have hadd :=
      stretch_add mark (show source = front ++ [c] ++ rest from hsplit)
    have hhere : source[front.length]? = some c := by
      rw [hsource]
      simp
    have hlength : front.length + 1 ≤ source.length := by
      rw [hsource]
      simp
    have hrest := ih (front ++ [c]) hsplit
    have hat := patchesAt_rebreak hmark.isBreak.1 hpatches hlength
    rw [List.length_append, List.length_singleton] at hrest
    rw [List.length_singleton] at hadd
    rw [weaveAfter]
    by_cases hc : c = '\n'
    · subst hc
      rw [rebreak_break, rebreak_append, rebreak_break, hrest, ← hat, hadd]
      rcases hmark with rfl | rfl
      · have hinside := patchesAt_inside patches hhere
        simp only [rebreak_break, rebreak_nil, List.append_nil,
          List.cons_append, List.nil_append, weaveAfter, hinside,
          List.length_cons, List.length_nil]
      · simp only [rebreak_break, rebreak_nil, List.append_nil,
          List.cons_append, List.nil_append, weaveAfter, List.length_cons,
          List.length_nil]
    · rw [rebreak_other _ hc, rebreak_append, rebreak_other _ hc, hrest, ← hat,
        hadd, rebreak_singleton _ hc, weaveAfter]
      rfl

/-- A woven text is written with other breaks like the text and what is put
in. -/
theorem rebreak_textOf_weave {mark : Text} (hmark : Style mark) {source : Text}
    {patches : List Patch}
    (hpatches : ∀ patch ∈ patches, patch.offset ≤ source.length) :
    mark.rebreak (Stitch.textOf (weave patches source)) =
      Stitch.textOf (weave (patches.map (Patch.rebreak mark source))
        (mark.rebreak source)) := by
  have hat := patchesAt_rebreak hmark.isBreak.1 hpatches (Nat.zero_le _)
  have hafter := weaveAfter_rebreak hmark hpatches [] source rfl
  rw [List.length_nil, stretch_zero] at hafter
  rw [stretch_zero] at hat
  rw [textOf_weave, textOf_weave, rebreak_append, hat, hafter]

end Text

/-! ## Strokes -/

/-- A break other than LF is one stroke, like the LF that it stands for. -/
theorem strokes_rebreak {mark : Text} (hmark : Text.Style mark) {source : Text}
    (hcr : '\r' ∉ source) :
    strokes (Text.rebreak mark source) =
      (strokes source).map (Text.rebreak mark) := by
  induction source with
  | nil => rfl
  | cons c rest ih =>
    rw [List.mem_cons, not_or] at hcr
    have hstrokes : strokes (c :: rest) = [c] :: strokes rest := by
      rw [strokes]
      intro others hr
      exact absurd hr.symm hcr.1
    by_cases hc : c = '\n'
    · have hmarks : strokes (mark ++ Text.rebreak mark rest) =
          mark :: strokes (Text.rebreak mark rest) := by
        rcases hmark with rfl | rfl
        · rfl
        · have hnot : '\n' ∉ Text.rebreak ['\r'] rest :=
            Text.not_mem_rebreak (by simp) rest
          have happend :=
            strokes_append (a := ['\r']) (b := Text.rebreak ['\r'] rest)
            (Or.inr fun h => hnot (List.mem_of_mem_head? h))
          exact happend
      rw [hstrokes, hc, Text.rebreak_break, hmarks, ih hcr.2, List.map_cons,
        Text.rebreak_break, Text.rebreak_nil, List.append_nil]
    · have hother : strokes (c :: Text.rebreak mark rest) =
          [c] :: strokes (Text.rebreak mark rest) := by
        rw [strokes]
        intro others hr
        exact absurd hr.symm hcr.1
      rw [hstrokes, Text.rebreak_other _ hc, hother, ih hcr.2, List.map_cons,
        Text.rebreak_singleton _ hc]

/-- How lines are broken makes no difference to the normalized text. -/
theorem normalizeBreaks_rebreak {mark : Text} (hmark : Text.Style mark)
    {source : Text} (hcr : '\r' ∉ source) :
    normalizeBreaks (Text.rebreak mark source) = normalizeBreaks source := by
  have hchar : ∀ stroke ∈ strokes source,
    strokeChar (Text.rebreak mark stroke) = strokeChar stroke := by
    intro stroke hstroke
    rcases stroke_cases hstroke with rfl | ⟨c, rfl⟩
    · refine absurd ?_ hcr
      rw [← flatten_strokes source]
      exact List.mem_flatten.mpr ⟨_, hstroke, List.mem_cons_self⟩
    · by_cases hc : c = '\n'
      · rcases hmark with rfl | rfl <;> rw [hc] <;> rfl
      · rw [Text.rebreak_singleton _ hc]
  rw [normalizeBreaks_eq_map, normalizeBreaks_eq_map, strokes_rebreak hmark hcr,
    List.map_map]
  exact List.map_congr_left hchar

end OklchGate
