import OklchGate.Proofs.Css.Copying
import OklchGate.Proofs.Css.Tight
import OklchGate.Proofs.Gate.Rebreaking
import OklchGate.Proofs.Gate.Settling
import OklchGate.Proofs.Text.Digits

/-!
# How a gate is read
-/

namespace OklchGate

namespace Css

/-! ## Numbers -/

/-- The text is one number. -/
def IsNumber (text : Text) : Prop := numberLength text = some text.length

/-- A number is made of the characters of numbers. -/
theorem IsNumber.chars {text : Text} (h : IsNumber text) :
    ∀ c ∈ text, isNumberChar c = true := by
  have hchars := chars_number h
  rwa [List.take_length] at hchars

/-- A number starts with a digit or a point, with or without a sign before
it. -/
theorem start_of_numberLength {text : Text} {n : Nat}
    (h : numberLength text = some n) :
    ∃ d rest, text.drop (signLength text) = d :: rest ∧
      (isDigit d = true ∨ d = '.') := by
  rw [numberLength, ← List.drop_drop] at h
  cases hdrop : text.drop (signLength text) with
  | nil =>
    rw [hdrop] at h
    exact absurd h (by simp [digitLength, fractionLength])
  | cons d rest =>
    refine ⟨d, rest, rfl, ?_⟩
    by_cases hd : isDigit d = true
    · exact Or.inl hd
    · right
      have hwhole : digitLength (d :: rest) = 0 := by
        rw [digitLength, List.takeWhile_cons_of_neg hd]
        rfl
      rw [hdrop, hwhole, List.drop_zero] at h
      by_cases hpoint : d = '.'
      · exact hpoint
      · have hfraction : fractionLength (d :: rest) = 0 := by
          rw [fractionLength.eq_def]
          split
          · exact absurd (List.cons.inj ‹_›).1 hpoint
          · rfl
        rw [hfraction] at h
        exact absurd h (by simp)

theorem blank_digit {c : Char} (h : isDigit c = true) : isBlank c = false := by
  apply isBlank_of_isHexDigit
  rw [isHexDigit, h]
  rfl

theorem isNameStart_digit {c : Char} (h : isDigit c = true) :
    isNameStart c = false := by
  have hrange := isDigit_iff.mp h
  have hval : c.toNat = c.val.toNat := rfl
  have hne : c ≠ '_' := by
    rintro rfl
    cases h
  have ha : 'a'.val.toNat = 97 := rfl
  have hA : 'A'.val.toNat = 65 := rfl
  simp only [isNameStart, Bool.or_eq_false_iff, Bool.and_eq_false_iff,
    decide_eq_false_iff_not, Char.le_def, UInt32.le_iff_toNat_le, ha, hA, hval]
  refine ⟨⟨⟨Or.inl (by omega), Or.inl (by omega)⟩, hne⟩, by omega⟩

/-- A number starts neither white space nor a name, a range or an arrow. -/
theorem start_of_number {c : Char} {rest : Text} {n : Nat}
    (h : numberLength (c :: rest) = some n) :
    isSpace c = false ∧ c ≠ 'u' ∧ c ≠ 'U' ∧
      ['-', '-', '>'].isPrefixOf (c :: rest) = false ∧
      startsIdentifier (c :: rest) = false := by
  obtain ⟨d, others, hdrop, hd⟩ := start_of_numberLength h
  have hdigit : isSpace d = false ∧ d ≠ 'u' ∧ d ≠ 'U' ∧ d ≠ '-' ∧ d ≠ '\\' ∧
      isNameStart d = false := by
    rcases hd with hd | rfl
    · refine ⟨?_, ?_, ?_, ?_, ?_, isNameStart_digit hd⟩
      · refine Bool.eq_false_iff.mpr fun hspace => ?_
        have hcases : d = ' ' ∨ d = '\n' ∨ d = '\t' := by
          simpa [isSpace, or_assoc] using hspace
        rcases hcases with rfl | rfl | rfl <;> cases hd
      all_goals
        rintro rfl
        cases hd
    · decide
  obtain ⟨hspace, hu, hU, hdash, hslash, hname⟩ := hdigit
  rw [signLength] at hdrop
  split at hdrop
  · rename_i hsign
    rw [List.drop_succ_cons, List.drop_zero] at hdrop
    subst hdrop
    rcases hsign with rfl | rfl
    · exact ⟨rfl, by decide, by decide, rfl, rfl⟩
    · have hstart : isNameStart '-' = false := rfl
      refine ⟨rfl, by decide, by decide, ?_, ?_⟩
      · simp [List.isPrefixOf, hdash.symm]
      · simp [startsIdentifier, hstart, hname, hdash, startsEscape_cons hslash]
  · rw [List.drop_zero] at hdrop
    obtain ⟨rfl, rfl⟩ := List.cons.inj hdrop
    refine ⟨hspace, hu, hU, ?_, ?_⟩
    · simp [List.isPrefixOf, hdash.symm]
    · simp [startsIdentifier, hname, hdash, startsEscape_cons hslash]

theorem IsNumber.char_ne {text : Text} (h : IsNumber text) :
    ∀ c ∈ text, isBlank c = false ∧ c ≠ '\x00' ∧ c ≠ '/' := by
  intro c hc
  have hchar := h.chars c hc
  rw [isNumberChar, Bool.or_eq_true] at hchar
  rcases hchar with hdigit | hother
  · refine ⟨blank_digit hdigit, ?_, ?_⟩ <;> rintro rfl <;> cases hdigit
  · have hcases : c = '+' ∨ c = '-' ∨ c = '.' ∨ c = 'e' ∨
        c = 'E' := by simpa using hother
    rcases hcases with rfl | rfl | rfl | rfl | rfl <;> decide

theorem IsNumber.plain {text : Text} (h : IsNumber text) : Plain text := by
  intro c hc hblank
  rw [(h.char_ne c hc).1] at hblank
  cases hblank

/-- After a number there is no white space at its start. -/
theorem IsNumber.head {text : Text} (h : IsNumber text) (t : Text) :
    ∀ c ∈ (normalizeBreaks (text ++ t)).head?, isSpace c = false := by
  cases text with
  | nil => cases h
  | cons c own =>
    rw [head_space_of_plain h.plain _ (List.cons_ne_nil c own)]
    rintro _ ⟨⟩
    exact (start_of_number h).1

/-- A number before a space or a parenthesis is one word. -/
theorem spells_number {text : Text} (h : IsNumber text) {d : Char}
    (hd : d = ' ' ∨ d = ')') (t : Text) :
    Spells text [.leaf (same ⟨.numeric, text⟩)] (d :: t) := by
  have hhalt : isHalt d = true := by rcases hd with rfl | rfl <;> rfl
  have hnormal : normalizeBreaks (d :: t) = d :: normalizeBreaks t := by
    rcases hd with rfl | rfl <;> rfl
  have hkept : normalizeBreaks text = text := by
    rw [normalizeBreaks_eq_of_plain h.plain]
    exact (List.map_congr_left fun c hc => if_neg (h.char_ne c hc).2.1).trans
      (List.map_id _)
  have htext : Lexeme.plainOf [⟨.numeric, text⟩] = text := by simp
  refine spells_of_lexemes h.plain hkept htext ?_ rfl
    ⟨whole_leaf (Or.inr (Or.inl rfl)), trivial⟩
  cases text with
  | nil => cases h
  | cons c own =>
    have hlength : numberLength (c :: (own ++ d :: normalizeBreaks t)) =
        some (c :: own).length :=
      (numberLength_halt hhalt (c :: own) (normalizeBreaks t)).trans h
    obtain ⟨hspace, hu, hU, harrow, hstart⟩ := start_of_number hlength
    rw [hnormal]
    refine Lexeme.ofText_of_read ?_
    have hnumeric : Lexeme.readNumeric? (c :: (own ++ d :: normalizeBreaks t)) =
        some (.numeric, 1 + own.length) := by
      have hd' : startsIdentifier (d :: normalizeBreaks t) = false ∧
          d ≠ '%' := by
        rcases hd with rfl | rfl <;> exact ⟨rfl, by decide⟩
      rw [Lexeme.readNumeric?, hlength, Option.map_some, ← List.cons_append,
        List.drop_left]
      simp [hd'.1, hd'.2, Nat.add_comm]
    rw [Lexeme.read]
    simp only [hspace, hu, hU, harrow, hstart, hnumeric]
    rfl

end Css

namespace Gate

open Css (Spells Plain IsSegment)

/-! ## Declarations -/

/-- The text is a color in OKLCH: three numbers. -/
def IsOklch (value : Text) : Prop :=
  ∃ lightness chroma hue, Css.IsNumber lightness ∧ Css.IsNumber chroma ∧
    Css.IsNumber hue ∧
    value = "oklch(".toList ++ lightness ++ [' '] ++ chroma ++ [' '] ++
      hue ++ [')']

/-- One space before anything else is one word. -/
theorem spells_gap {t : Text}
    (ht : ∀ c ∈ (normalizeBreaks t).head?, Css.isSpace c = false) :
    Spells [' '] [.leaf (Css.spelled .space [' '])] t :=
  Css.spells_white (by simp) (by decide) ht

/-- The function of a color. -/
def oklchOpener : Css.Lexeme := ⟨.opening .round, "oklch(".toList⟩

/-- A color is read as one block. -/
theorem IsOklch.spells {value : Text} (h : IsOklch value) (t : Text) :
    ∃ content closer,
      Spells value [.block (Css.same oklchOpener) .round content closer] t := by
  obtain ⟨l, c, h, hl, hc, hh, rfl⟩ := h
  have hgap : ∀ {number : Text} (x t : Text), Css.IsNumber number →
      Spells [' '] [.leaf (Css.spelled .space [' '])] (number ++ x ++ t) := by
    intro number x t hnumber
    rw [List.append_assoc]
    exact spells_gap (hnumber.head _)
  have hhue := Css.spells_number hh (Or.inr rfl) t
  have hhue' := (hgap [] (')' :: t) hh)
  rw [List.append_nil] at hhue'
  have hchroma :=
    (Css.spells_number hc (Or.inl rfl) _).append (hhue'.append hhue)
  have hlightness :=
    (Css.spells_number hl (Or.inl rfl) _).append ((hgap _ _ hc).append hchroma)
  have hopen : ∀ u, Css.Lexeme.ofText ("oklch(".toList ++ u) =
      ⟨.opening .round, "oklch(".toList⟩ :: Css.Lexeme.ofText u := fun u => rfl
  have hblock := Css.spells_block (by decide) rfl hopen hlightness
  have htext : "oklch(".toList ++ l ++ [' '] ++ c ++ [' '] ++ h ++ [')'] =
      "oklch(".toList ++ (l ++ ([' '] ++ (c ++ ([' '] ++ h)))) ++
        [Css.Bracket.round.closer] := by
    simp only [List.append_assoc]
    rfl
  rw [htext]
  exact ⟨_, _, hblock⟩

/-- The mark of importance after a value. -/
def markOf (important : Bool) : Text :=
  if important then " !important".toList else []

/-- A color starts with a letter and ends in a parenthesis. -/
theorem IsOklch.exists_front {value : Text} (h : IsOklch value) :
    ∃ front, value = 'o' :: front ++ [')'] := by
  obtain ⟨l, c, h, _, _, _, rfl⟩ := h
  exact ⟨"klch(".toList ++ l ++ [' '] ++ c ++ [' '] ++ h, by simp⟩

/-- A color holds no character that stands neither in numbers nor around
them. -/
theorem IsOklch.not_mem {value : Text} (h : IsOklch value) {d : Char}
    (hnumber : ∀ {number : Text}, Css.IsNumber number → d ∉ number)
    (haround : d ∉ "oklch( )".toList) : d ∉ value := by
  obtain ⟨l, c, h, hl, hc, hh, rfl⟩ := h
  have hmem : ∀ {around : Text}, around ⊆ "oklch( )".toList → d ∉ around :=
    fun hsubset hd => haround (hsubset hd)
  simp only [List.mem_append, not_or]
  exact ⟨⟨⟨⟨⟨⟨hmem (by decide), hnumber hl⟩, hmem (by decide)⟩, hnumber hc⟩,
    hmem (by decide)⟩, hnumber hh⟩, hmem (by decide)⟩

/-- A color holds no slash and no line break. -/
theorem IsOklch.on_one_line {value : Text} (h : IsOklch value) :
    '/' ∉ value ∧ '\n' ∉ value := by
  constructor
  · exact h.not_mem (fun hnumber hmem => (hnumber.char_ne _ hmem).2.2 rfl)
      (by decide)
  · refine h.not_mem (fun hnumber hmem => ?_) (by decide)
    cases (hnumber.char_ne _ hmem).1

theorem IsOklch.plain {value : Text} (h : IsOklch value) : Plain value := by
  obtain ⟨l, c, h, hl, hc, hh, rfl⟩ := h
  simp only [Css.plain_append]
  exact ⟨⟨⟨⟨⟨⟨by decide, hl.plain⟩, by decide⟩, hc.plain⟩, by decide⟩,
    hh.plain⟩, by decide⟩

theorem removeComments_eq_self {text : Text} (h : '/' ∉ text) :
    Css.removeComments text = text := by
  have happend := Css.removeComments_append h []
  rwa [List.append_nil, Css.removeComments_nil, List.append_nil] at happend

/-- A color with a mark of importance is told apart from it. -/
theorem splitImportant_oklch {value : Text} (h : IsOklch value)
    (important : Bool) :
    Css.splitImportant
      (Text.trim (Css.removeComments ([' '] ++ (value ++ markOf important)))) =
      (value, important) := by
  have hslash := h.on_one_line.1
  obtain ⟨front, rfl⟩ := h.exists_front
  have htrim : Text.trim ('o' :: front ++ [')'] ++ markOf important) =
      'o' :: front ++ [')'] ++ markOf important := by
    refine Text.trim_eq_self ?_ ?_
    · rintro _ ⟨⟩
      rfl
    · cases important with
      | false =>
        rw [markOf, if_neg Bool.false_ne_true, List.append_nil,
          List.getLast?_concat]
        rintro _ ⟨⟩
        rfl
      | true =>
        rw [List.getLast?_append]
        rintro _ ⟨⟩
        rfl
  have hbare : Text.trim
    ([' '] ++ ('o' :: front ++ [')'] ++ markOf important)) =
      'o' :: front ++ [')'] ++ markOf important := by
    have hblanks :
      Text.trim ([' '] ++ ('o' :: front ++ [')'] ++ markOf important ++ [])) =
        'o' :: front ++ [')'] ++ markOf important :=
      Text.trim_of_blanks htrim (List.all_eq_true.mp rfl) nofun
    rwa [List.append_nil] at hblanks
  rw [removeComments_eq_self, hbare]
  · have hreverse : ('o' :: front ++ [')']).reverse =
        ')' :: ('o' :: front).reverse := by simp
    cases important with
    | false =>
      rw [markOf, if_neg Bool.false_ne_true, List.append_nil,
        Css.splitImportant_plain]
      intro before hbefore
      rw [hreverse] at hbefore
      cases hbefore
    | true =>
      have hletters : Css.dropLetters "important".toList.reverse
          ('o' :: front ++ [')'] ++ markOf true).reverse =
            some ('!' :: ' ' :: ')' :: ('o' :: front).reverse) := by
        rw [List.reverse_append, hreverse]
        rfl
      have hdrop : (' ' :: ')' :: ('o' :: front).reverse).dropWhile isBlank =
          ')' :: ('o' :: front).reverse := rfl
      rw [Css.splitImportant_mark hletters rfl, hdrop, ← hreverse,
        List.reverse_reverse]
  · cases important <;> simpa [markOf] using hslash

/-- The mark of importance before a semicolon. -/
theorem spells_markOf (important : Bool) (t : Text) :
    ∃ trees, Spells (markOf important) trees (';' :: t) ∧
      ∀ tree ∈ trees, tree.isCurly = false ∧ tree.isDelimiter ';' = false := by
  cases important with
  | false => exact ⟨[], Css.spells_nil _, List.forall_mem_nil _⟩
  | true =>
    refine ⟨[.leaf (Css.same ⟨.space, [' ']⟩),
      .leaf (Css.same ⟨.delimiter, ['!']⟩),
      .leaf (Css.same ⟨.identifier "important".toList, "important".toList⟩)],
        ?_, by decide⟩
    have hread : Css.Lexeme.ofText (markOf true ++ normalizeBreaks (';' :: t)) =
        [⟨.space, [' ']⟩, ⟨.delimiter, ['!']⟩,
          ⟨.identifier "important".toList, "important".toList⟩] ++
          Css.Lexeme.ofText (normalizeBreaks (';' :: t)) := rfl
    refine Css.spells_of_lexemes (by decide) rfl rfl hread rfl ?_
    exact ⟨Css.whole_leaf (Or.inl rfl), Css.whole_leaf (Or.inr (Or.inr rfl)),
      Css.whole_leaf (Or.inr (Or.inl rfl)), trivial⟩

theorem render_declaration (property value : Text) (important : Bool) :
    (Css.Leaf.declaration property value important).render =
      property ++ ([':'] ++
        ([' '] ++ (value ++ markOf important) ++ [';'])) := by
  have hrender : (Css.Leaf.declaration property value important).render =
      property ++ [':', ' '] ++ value ++ markOf important ++ [';'] := rfl
  rw [hrender]
  simp only [List.append_assoc, List.cons_append, List.nil_append]

/-- The declaration of an item is read as this declaration. -/
theorem readsAs_item {item : Item}
    (hproperty : Css.ReadsAsProperty item.property)
    (hvalue : IsOklch item.oklch) (t : Text) :
    Css.ReadsAs (Css.Leaf.declaration item.property item.oklch
      item.important).render [itemNode item] t := by
  obtain ⟨content, closer, hblock⟩ :=
    hvalue.spells (markOf item.important ++ ';' :: t)
  obtain ⟨mark, hmark, hinside⟩ := spells_markOf item.important t
  have hstart : ∀ c ∈ (normalizeBreaks
      (item.oklch ++ markOf item.important ++ ';' :: t)).head?,
      Css.isSpace c = false := by
    obtain ⟨front, hfront⟩ := hvalue.exists_front
    rw [List.append_assoc,
      Css.head_space_of_plain hvalue.plain _ (by rw [hfront]; simp), hfront]
    rintro _ ⟨⟩
    rfl
  have hbody := (spells_gap hstart).append (hblock.append hmark)
  have hreads := hproperty.readsAs hbody ?_
  · rw [splitImportant_oklch hvalue] at hreads
    rw [render_declaration]
    exact hreads
  · rw [List.forall_mem_append, List.forall_mem_append,
      List.forall_mem_singleton, List.forall_mem_singleton]
    exact ⟨⟨rfl, rfl⟩, ⟨rfl, rfl⟩, hinside⟩

/-! ## Gates -/

/-- The line break of a style sheet is white space, and the property of each
item is printed as it is with this line break. -/
structure PrintsAll (mark : Text) (items : List Item) : Prop where
  white : Css.White mark
  ne_nil : mark ≠ []
  property : ∀ item ∈ items, mark.rebreak item.property = item.property

/-- With LF, everything is printed as it is. -/
theorem printsAll_lf (items : List Item) : PrintsAll ['\n'] items :=
  ⟨by decide, List.cons_ne_nil _ _, fun item _ => Text.rebreak_lf item.property⟩

theorem PrintsAll.tail {mark : Text} {item : Item} {rest : List Item}
    (h : PrintsAll mark (item :: rest)) : PrintsAll mark rest :=
  ⟨h.white, h.ne_nil, (List.forall_mem_cons.mp h.property).2⟩

/-- A line break and white space after it. -/
theorem PrintsAll.newline {mark indent : Text} {items : List Item}
    (h : PrintsAll mark items) (hindent : Css.White indent) :
    mark ++ indent ≠ [] ∧ Css.White (mark ++ indent) :=
  ⟨List.append_ne_nil_of_left_ne_nil h.ne_nil _, h.white.append hindent⟩

/-- The declaration of an item is printed as it is if its property is. -/
theorem rebreak_declaration {mark : Text} {item : Item}
    (hvalue : IsOklch item.oklch)
    (h : mark.rebreak item.property = item.property) :
    mark.rebreak (Css.Leaf.declaration item.property item.oklch
      item.important).render =
      (Css.Leaf.declaration item.property item.oklch
        item.important).render := by
  have hkept : mark.rebreak item.oklch = item.oklch :=
    Text.rebreak_eq_self mark hvalue.on_one_line.2
  have hmark : mark.rebreak (markOf item.important) =
      markOf item.important := by
    cases item.important <;> exact Text.rebreak_eq_self mark (by decide)
  rw [render_declaration, Text.rebreak_append, Text.rebreak_append,
    Text.rebreak_append,
    Text.rebreak_append, Text.rebreak_append, h, hkept, hmark,
    Text.rebreak_singleton mark (by decide),
      Text.rebreak_singleton mark (by decide),
    Text.rebreak_singleton mark (by decide)]

/-- The declarations of items on lines of their own are read as these
declarations, in every style of line breaks in which they are printed as they
are. -/
theorem readsAs_printed {mark indent : Text} (unit : Text) {items : List Item}
    {w : Text} (hprints : PrintsAll mark items) (hindent : Css.White indent)
    (hne : w ≠ []) (hw : Css.White w)
    (hproperty : ∀ item ∈ items, Css.ReadsAsProperty item.property)
    (hvalue : ∀ item ∈ items, IsOklch item.oklch) (t : Text) :
    Css.ReadsAs (mark.rebreak
      (Css.renderLines indent unit (items.map itemNode)) ++ w)
      (items.map itemNode) ('\x7d' :: t) := by
  induction items with
  | nil =>
    exact Css.readsAs_white hne hw (by simp [normalizeBreaks, Css.isSpace])
  | cons item rest ih =>
    rw [List.forall_mem_cons] at hproperty hvalue
    have hkept :=
      rebreak_declaration hvalue.1 (List.forall_mem_cons.mp hprints.property).1
    obtain ⟨own, hown⟩ : ∃ own, own =
      mark.rebreak (Css.renderLines indent unit (rest.map itemNode)) ++ w :=
        ⟨_, rfl⟩
    have hrest := ih hprints.tail hproperty.2 hvalue.2
    have hitem := readsAs_item hproperty.1 hvalue.1 (own ++ '\x7d' :: t)
    obtain ⟨hgapNe, hgapWhite⟩ :=
      hprints.newline (hprints.white.rebreak hindent)
    have hgap : Css.ReadsAs (mark ++ mark.rebreak indent) [] _ :=
      Css.readsAs_white hgapNe hgapWhite
        (t := (Css.Leaf.declaration item.property item.oklch
          item.important).render ++
          (own ++ '\x7d' :: t)) (by
        rw [Css.Leaf.render, List.append_assoc, List.append_assoc,
          List.append_assoc, List.append_assoc]
        exact hproperty.1.head _)
    rw [← hown] at hrest
    have hlines := (hgap.append hitem).append hrest
    have htext : mark.rebreak
      (Css.renderLines indent unit ((item :: rest).map itemNode)) ++ w =
        mark ++ mark.rebreak indent ++
          (Css.Leaf.declaration item.property item.oklch
            item.important).render ++ own := by
      rw [List.map_cons, Css.renderLines, itemNode, Css.Node.render, hown]
      simp [hkept]
    rw [htext]
    exact hlines

/-- The declarations of items on lines of their own are read as these
declarations. -/
theorem readsAs_items {indent : Text} (unit : Text) {items : List Item}
    {w : Text} (hindent : Css.White indent) (hne : w ≠ []) (hw : Css.White w)
    (hproperty : ∀ item ∈ items, Css.ReadsAsProperty item.property)
    (hvalue : ∀ item ∈ items, IsOklch item.oklch) (t : Text) :
    Css.ReadsAs (Css.renderLines indent unit (items.map itemNode) ++ w)
      (items.map itemNode) ('\x7d' :: t) := by
  have hreads :=
    readsAs_printed unit (printsAll_lf items) hindent hne hw hproperty hvalue t
  rwa [Text.rebreak_lf] at hreads

/-- The head of a gate. -/
def gateHead : Css.Head := .atRule gateName condition true

/-- The words of the head of a gate before its block. -/
def gateLexemes : List Css.Lexeme :=
  [⟨.atKeyword gateName, '@' :: gateName⟩, ⟨.space, [' ']⟩,
    ⟨.opening .round, ['(']⟩, ⟨.identifier "color".toList, "color".toList⟩,
    ⟨.delimiter, [':']⟩, ⟨.space, [' ']⟩, oklchOpener, ⟨.numeric, ['0']⟩,
    ⟨.space, [' ']⟩, ⟨.numeric, ['0']⟩, ⟨.space, [' ']⟩, ⟨.numeric, ['0']⟩,
    ⟨.closing .round, [')']⟩, ⟨.closing .round, [')']⟩, ⟨.space, [' ']⟩]

/-- The head of a gate before its block. -/
theorem spells_gateHead (t : Text) :
    ∃ before, Spells (gateHead.render ++ [' ']) before ('\x7b' :: t) ∧
      IsSegment before ∧ Css.GivesHead before gateHead := by
  have hread : Css.Lexeme.ofText
    (gateHead.render ++ [' '] ++ normalizeBreaks ('\x7b' :: t)) =
      gateLexemes ++ Css.Lexeme.ofText (normalizeBreaks ('\x7b' :: t)) := rfl
  refine ⟨Css.Tree.nest [] [] (gateLexemes.map Css.same),
    Css.spells_of_lexemes (by decide) rfl rfl hread rfl ?_,
      ⟨by decide, by decide⟩,
    fun opener content closer => rfl⟩
  have hleaf : ∀ {lexeme : Css.Lexeme}, lexeme.kind = .space ∨
    lexeme.kind.isName = true ∨
      lexeme.kind = .delimiter → (Css.Tree.leaf (Css.same lexeme)).Whole :=
    fun h => Css.whole_leaf h
  exact ⟨hleaf (by decide), hleaf (by decide),
    ⟨rfl, ⟨_, rfl, rfl⟩, hleaf (by decide),
    hleaf (by decide), hleaf (by decide),
      ⟨rfl, ⟨_, rfl, rfl⟩, hleaf (by decide),
      hleaf (by decide), hleaf (by decide), hleaf (by decide),
        hleaf (by decide), trivial⟩,
    trivial⟩, hleaf (by decide), trivial⟩

/-- The head of a gate is read as such. -/
theorem readsAsHead_gate : Css.ReadsAsHead gateHead.render gateHead :=
  Css.readsAsHead_of_spells (by decide) (by decide) (by rintro _ ⟨⟩; rfl)
    spells_gateHead

/-- The lines of a gate are two blocks, one in the other. -/
theorem gateLines_eq {layout : Css.Layout} (hbefore : layout.before = ['\n'])
    (selector : Text) (items : List Item) :
    gateLines layout selector items =
      '\n' :: layout.indent ++ (gateHead.render ++ [' ']) ++ (['\x7b'] ++
        ('\n' :: (layout.indent ++ layout.unit) ++ (selector ++ [' ']) ++
          (['\x7b'] ++
          (Css.renderLines (layout.indent ++ layout.unit ++ layout.unit)
            layout.unit
            (items.map itemNode) ++ '\n' :: (layout.indent ++ layout.unit)) ++
              ['\x7d']) ++
          '\n' :: layout.indent) ++ ['\x7d']) := by
  have hopens : gateHead.opensBlock = true ∧
      (Css.Head.rule selector).opensBlock = true := ⟨rfl, rfl⟩
  have hrule : (Css.Head.rule selector).render = selector := rfl
  rw [gateLines, gateNode, ← gateHead, hbefore, Css.Node.render,
    if_pos hopens.1, Css.renderLines, Css.renderLines, Css.Node.render,
    if_pos hopens.2, hrule]
  simp only [List.append_assoc, List.cons_append, List.nil_append,
    List.append_nil]

/-- The node of a gate whose selector is read as this head. -/
def gateShape (head : Css.Head) (items : List Item) : Css.Node :=
  .container (.generated {}) none gateHead
    [.container (.generated {}) none head (items.map itemNode)]

/-- The lines of a gate in some style of line breaks. -/
theorem rebreak_gateLines_eq {mark selector : Text} {layout : Css.Layout}
    (hbefore : layout.before = ['\n'])
    (hselector : mark.rebreak selector = selector) (items : List Item) :
    mark.rebreak (gateLines layout selector items) =
      mark ++ mark.rebreak layout.indent ++ (gateHead.render ++ [' ']) ++
        (['\x7b'] ++
        (mark ++ mark.rebreak (layout.indent ++ layout.unit) ++
          (selector ++ [' ']) ++
          (['\x7b'] ++ (mark.rebreak (Css.renderLines
              (layout.indent ++ layout.unit ++ layout.unit) layout.unit
                (items.map itemNode)) ++
            (mark ++ mark.rebreak (layout.indent ++ layout.unit))) ++
              ['\x7d']) ++
          (mark ++ mark.rebreak layout.indent)) ++ ['\x7d']) := by
  have hhead : mark.rebreak gateHead.render = gateHead.render :=
    Text.rebreak_eq_self mark (by decide)
  have hspace := Text.rebreak_other mark (c := ' ') (by decide)
  have hopen := Text.rebreak_other mark (c := '\x7b') (by decide)
  have hclose := Text.rebreak_other mark (c := '\x7d') (by decide)
  rw [gateLines_eq hbefore]
  simp only [Text.rebreak_append, Text.rebreak_break, Text.rebreak_nil,
    hselector, hhead, hspace, hopen, hclose, List.cons_append, List.nil_append,
    List.append_assoc]

/-- The lines of a gate are read as a gate. -/
theorem spells_gateLines {mark selector : Text} {layout : Css.Layout}
    {head : Css.Head} {items : List Item} (hprints : PrintsAll mark items)
    (hbefore : layout.before = ['\n']) (hindent : Css.White layout.indent)
    (hunit : Css.White layout.unit) (hselector : Css.ReadsAsHead selector head)
    (hprinted : mark.rebreak selector = selector)
    (hproperty : ∀ item ∈ items, Css.ReadsAsProperty item.property)
    (hvalue : ∀ item ∈ items, IsOklch item.oklch) (t : Text) :
    ∃ before opener inside closer,
      Spells (mark.rebreak (gateLines layout selector items))
        (before ++ [.block opener .curly inside closer]) t ∧
      ∀ rest, Css.shapesOf
        (Css.group [] (before ++ [.block opener .curly inside closer] ++
        rest)) = gateShape head items :: Css.shapesOf (Css.group [] rest) := by
  have hinner : Css.White (layout.indent ++ layout.unit) := hindent.append hunit
  obtain ⟨houterNe, houterWhite⟩ :=
    hprints.newline (hprints.white.rebreak hindent)
  obtain ⟨hinnerNe, hinnerWhite⟩ :=
    hprints.newline (hprints.white.rebreak hinner)
  have hlines := readsAs_printed layout.unit hprints (hinner.append hunit)
    hinnerNe hinnerWhite
    hproperty hvalue (mark ++ mark.rebreak layout.indent ++ '\x7d' :: t)
  have hend : Css.ReadsAs (mark ++ mark.rebreak layout.indent) []
      ('\x7d' :: t) :=
    Css.readsAs_white houterNe houterWhite
      (by simp [normalizeBreaks, Css.isSpace])
  have hrule := (hselector.readsAs hinnerNe hinnerWhite hlines).append hend
  have hgate := readsAsHead_gate.spells_block houterNe houterWhite hrule
  rw [rebreak_gateLines_eq hbefore hprinted]
  exact hgate

/-- A text that is read as a block in braces, and its node is a gate. -/
theorem readsAsGate_of_spells {text : Text} {before inside : List Css.Tree}
    {opener : Css.Word} {closer : Option Css.Word} {gate : Css.Node}
    (h : Spells text (before ++ [.block opener .curly inside closer]) [])
    (hshapes : Css.shapesOf
      (Css.group [] (before ++ [.block opener .curly inside closer])) = [gate])
    (hgate : isGate gate = true) :
    readsAsGate text = true ∧ Css.bareOf (readBack text) = [gate] := by
  have hclosed : Css.Token.allClosed (Css.Token.ofText text) = true := by
    rw [Css.Tree.token_ofText, h.ofText_eq]
    exact Css.Tree.allClosed_of_whole _ h.whole
  have hlast : (Css.Token.ofText text).getLast?.any Css.Token.isCurly =
      true := by
    have hbare : ((Css.Token.ofText text).map Css.Token.bare).getLast?.any
      Css.Token.isCurly =
        true := by
      rw [Css.Tree.token_ofText, Css.map_bare_placeAll, h.ofText_eq,
        List.map_append, List.map_singleton, List.getLast?_concat]
      rfl
    rw [List.getLast?_map, Option.any_map] at hbare
    simpa [Function.comp_def] using hbare
  have hsteady : Css.Steady (Css.Part.ofText text) :=
    Css.steady_ofText (by rw [h.ofText_eq]; exact h.whole.faultless) hclosed
  have hbare : Css.bareOf (readBack text) = [gate] := by
    rw [bareOf_readBack hsteady, Css.Part.ofText, h.ofText_eq, hshapes]
  obtain ⟨node, hnode⟩ : ∃ node, readBack text = [node] := by
    rw [bareOf_eq_map, List.map_eq_singleton_iff] at hbare
    exact hbare.imp fun _ => And.left
  rw [hnode, Css.bareOf_cons, Css.bareOf_nil, List.singleton_inj] at hbare
  refine ⟨?_, by rw [hnode, Css.bareOf_cons, hbare]; rfl⟩
  rw [readsAsGate, hclosed, hlast, hnode]
  rw [← hbare] at hgate
  cases node with
  | leaf => cases hgate
  | container => exact hgate

/-- The lines of a gate are a gate, with the node that is printed if the
selector is read back. -/
theorem readsAsGate_gateLines {mark selector : Text} {layout : Css.Layout}
    {head : Css.Head} {items : List Item} (hprints : PrintsAll mark items)
    (hbefore : layout.before = ['\n']) (hindent : Css.White layout.indent)
    (hunit : Css.White layout.unit) (hselector : Css.ReadsAsHead selector head)
    (hprinted : mark.rebreak selector = selector)
    (hproperty : ∀ item ∈ items, Css.ReadsAsProperty item.property)
    (hvalue : ∀ item ∈ items, IsOklch item.oklch) :
    readsAsGate (mark.rebreak (gateLines layout selector items)) = true ∧
      Css.bareOf (readBack (mark.rebreak (gateLines layout selector items))) =
        [gateShape head items] := by
  obtain ⟨before, opener, inside, closer, hspells, hshapes⟩ :=
    spells_gateLines hprints hbefore hindent hunit hselector hprinted hproperty
      hvalue []
  refine readsAsGate_of_spells hspells ?_ rfl
  have hown := hshapes []
  rwa [List.append_nil] at hown

end Gate

end OklchGate
