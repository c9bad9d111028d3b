import OklchGate.Proofs.Mapping.Repeating
import OklchGate.Proofs.Mapping.Layout
import OklchGate.Proofs.Text.Rebreaking

/-!
# Mapping literals that end their lines in CR LF

What is put into a mapping literal does not depend on whether its lines end in
LF or in CR LF: the same entries are found, and the gated entry goes to the same
place.

There are five groups.

* Offsets in a text with other breaks, and what a class of characters takes of
  it.
* `Text.findLast?_rebreak`: a text without line breaks has the same last place.
* `hexPairs_rebreak`: the pairs of a text.
* `insertionOffset?_rebreak` and `indentAt_rebreak`: where a gated entry goes,
  and how far it is indented.
* `transform_rebreak_eq`, which puts this together, and `transform_crlf`.
-/

namespace OklchGate

namespace Text

variable {mark : Text}

/-! ## Offsets and classes of characters -/

/-- An offset at the end of the first part of a text. -/
theorem stretch_append (mark front back : Text) :
    stretch mark (front ++ back) front.length =
      (rebreak mark front).length := by
  rw [stretch, List.take_left]

theorem stretch_cons_of_ne (mark : Text) {c : Char} (hc : c ≠ '\n')
    (rest : Text) (n : Nat) :
    stretch mark (c :: rest) (n + 1) = stretch mark rest n + 1 := by
  rw [stretch, List.take_succ_cons, rebreak_other _ hc, List.length_cons,
    stretch]

theorem stretch_break (mark rest : Text) (n : Nat) :
    stretch mark ('\n' :: rest) (n + 1) =
      mark.length + stretch mark rest n := by
  rw [stretch, List.take_succ_cons, rebreak_break, List.length_append, stretch]

/-- What stands before a stretched offset. -/
theorem take_rebreak (mark text : Text) (a : Nat) :
    (rebreak mark text).take (stretch mark text a) =
      rebreak mark (text.take a) := by
  have hslice := slice_rebreak mark text 0 a
  rwa [stretch_zero, slice, slice, List.drop_zero, List.drop_zero, Nat.sub_zero,
    Nat.sub_zero] at hslice

/-- A class that holds the breaks takes the same part of a text. -/
theorem takeWhile_rebreak {isIn : Char → Bool}
    (hmark : ∀ c ∈ mark, isIn c = true) (hbreak : isIn '\n' = true)
    (text : Text) :
    (rebreak mark text).takeWhile isIn =
      rebreak mark (text.takeWhile isIn) := by
  have hparts :=
    List.takeWhile_append_dropWhile (p := isIn) (l := rebreak mark text)
  have hown := congrArg (rebreak mark)
      (List.takeWhile_append_dropWhile (p := isIn) (l := text))
  rw [rebreak_append, ← dropWhile_rebreak hmark hbreak] at hown
  exact List.append_cancel_right (hparts.trans hown.symm)

/-- A class that holds no break takes the same part of a text. -/
theorem takeWhile_rebreak_of_not (hmark : IsBreak mark) {isIn : Char → Bool}
    (hreturn : isIn '\r' = false) (hbreak : isIn '\n' = false) (text : Text) :
    (rebreak mark text).takeWhile isIn = text.takeWhile isIn := by
  induction text with
  | nil => rfl
  | cons c rest ih =>
    by_cases hc : c = '\n'
    · obtain ⟨d, others, hcons, hd⟩ := hmark.exists_cons
      have hfalse : isIn d = false := by rcases hd with rfl | rfl <;> assumption
      rw [hc, rebreak_break, hcons, List.cons_append,
        List.takeWhile_cons_of_neg (by simp [hfalse]),
        List.takeWhile_cons_of_neg (by simp [hbreak])]
    · rw [rebreak_other _ hc, List.takeWhile_cons, List.takeWhile_cons, ih]

/-- What is left after the characters of a class. -/
theorem drop_takeWhile_rebreak (mark text : Text) (isIn : Char → Bool) :
    (rebreak mark text).drop (rebreak mark (text.takeWhile isIn)).length =
      rebreak mark (text.drop (text.takeWhile isIn).length) := by
  have htake : text.take (text.takeWhile isIn).length = text.takeWhile isIn :=
    (List.prefix_iff_eq_take.mp (List.takeWhile_prefix isIn)).symm
  rw [← drop_rebreak, stretch, htake]

/-! ## Texts without line breaks -/

/-- A text without line breaks starts a text exactly if it starts it with other
breaks. -/
theorem isPrefixOf_rebreak (hmark : IsBreak mark) {needle : Text}
    (hreturn : '\r' ∉ needle) (hfeed : '\n' ∉ needle) (text : Text) :
    needle.isPrefixOf (rebreak mark text) = needle.isPrefixOf text := by
  induction needle generalizing text with
  | nil => rfl
  | cons a needle ih =>
    rw [List.mem_cons, not_or] at hreturn hfeed
    cases text with
    | nil => rfl
    | cons c rest =>
      by_cases hc : c = '\n'
      · obtain ⟨d, others, hcons, hd⟩ := hmark.exists_cons
        have hne : (a == d) = false := by
          rcases hd with rfl | rfl
          · simpa using Ne.symm hreturn.1
          · simpa using Ne.symm hfeed.1
        have hne' : (a == '\n') = false := by simpa using Ne.symm hfeed.1
        rw [hc, rebreak_break, hcons, List.cons_append, List.isPrefixOf,
          List.isPrefixOf, hne, hne', Bool.false_and, Bool.false_and]
      · rw [rebreak_other _ hc, List.isPrefixOf, List.isPrefixOf,
          ih hreturn.2 hfeed.2]

theorem prefix_rebreak (hmark : IsBreak mark) {needle : Text}
    (hreturn : '\r' ∉ needle) (hfeed : '\n' ∉ needle) (text : Text) :
    needle <+: rebreak mark text ↔ needle <+: text := by
  rw [← List.isPrefixOf_iff_prefix, isPrefixOf_rebreak hmark hreturn hfeed,
    List.isPrefixOf_iff_prefix]

/-- Breaks in front of a text move the last place of a text without line
breaks. -/
theorem findLast?_break_append {needle : Text} (hne : needle ≠ [])
    (hreturn : '\r' ∉ needle) (hfeed : '\n' ∉ needle) {mark : Text}
    (hmark : ∀ c ∈ mark, c = '\r' ∨ c = '\n') (rest : Text) :
    findLast? needle (mark ++ rest) =
      (findLast? needle rest).map (mark.length + ·) := by
  induction mark with
  | nil => simp
  | cons c mark ih =>
    rw [List.forall_mem_cons] at hmark
    obtain ⟨a, needle, rfl⟩ := List.exists_cons_of_ne_nil hne
    have hca : (a == c) = false := by
      rw [List.mem_cons, not_or] at hreturn hfeed
      rcases hmark.1 with rfl | rfl
      · simpa using Ne.symm hreturn.1
      · simpa using Ne.symm hfeed.1
    rw [List.cons_append, findLast?, ih hmark.2]
    cases findLast? (a :: needle) rest with
    | none => simp [List.isPrefixOf, hca]
    | some found =>
      simp only [Option.map_some, List.length_cons, Option.some.injEq]
      omega

/-- The last place of a text without line breaks is the stretched one. -/
theorem findLast?_rebreak (hmark : IsBreak mark) {needle : Text}
    (hne : needle ≠ []) (hreturn : '\r' ∉ needle) (hfeed : '\n' ∉ needle)
    (text : Text) :
    findLast? needle (rebreak mark text) =
      (findLast? needle text).map (stretch mark text) := by
  induction text with
  | nil => cases needle with
    | nil => exact absurd rfl hne
    | cons a needle => rfl
  | cons c rest ih =>
    have hbegins := isPrefixOf_rebreak hmark hreturn hfeed (c :: rest)
    by_cases hc : c = '\n'
    · subst hc
      have hnot : needle.isPrefixOf ('\n' :: rest) = false := by
        obtain ⟨a, needle, rfl⟩ := List.exists_cons_of_ne_nil hne
        rw [List.mem_cons, not_or] at hfeed
        simp [List.isPrefixOf, Ne.symm hfeed.1]
      rw [rebreak_break, findLast?_break_append hne hreturn hfeed hmark.2, ih,
        findLast?, hnot]
      cases findLast? needle rest with
      | none => rfl
      | some found => exact congrArg some (stretch_break mark rest found).symm
    · rw [rebreak_other _ hc] at hbegins ⊢
      rw [findLast?, ih, hbegins, findLast?]
      cases findLast? needle rest with
      | some found =>
        exact congrArg some (stretch_cons_of_ne mark hc rest found).symm
      | none =>
        dsimp only [Option.map_none]
        split
        · rfl
        · rfl

/-- A text without line breaks is a part of a text exactly if it is one with
other breaks. -/
theorem infix_rebreak (hmark : IsBreak mark) {needle : Text} (hne : needle ≠ [])
    (hreturn : '\r' ∉ needle) (hfeed : '\n' ∉ needle) (text : Text) :
    needle <:+: rebreak mark text ↔ needle <:+: text := by
  rw [← findLast?_isSome_iff, ← findLast?_isSome_iff,
    findLast?_rebreak hmark hne hreturn hfeed, Option.isSome_map]

/-- Lines that are joined by LF can be joined by another break. -/
theorem rebreak_joinWith (mark : Text) {lines : List Text}
    (h : ∀ line ∈ lines, '\n' ∉ line) :
    rebreak mark (joinWith ['\n'] lines) = joinWith mark lines := by
  induction lines with
  | nil => rfl
  | cons line rest ih =>
    rw [List.forall_mem_cons] at h
    cases rest with
    | nil => exact rebreak_eq_self mark h.1
    | cons next rest =>
      have hcons : ∀ newline : Text, joinWith newline (line :: next :: rest) =
          line ++ newline ++ joinWith newline (next :: rest) := fun _ => rfl
      rw [hcons, hcons, rebreak_append, rebreak_append,
        rebreak_eq_self mark h.1, ih h.2, rebreak_break, rebreak_nil,
        List.append_nil]

end Text

namespace Mapping

open Text (rebreak stretch)

variable {mark : Text}

/-! ## Pairs -/

/-- No value is read unless a quote and a hash come after the colon and
blanks. -/
theorem readValue?_eq_none {key rest : Text}
    (h : ¬ ['\'', '#'] <+: rest.drop (rest.takeWhile isBlank).length) :
    readValue? key (':' :: rest) = none := by
  rw [readValue?]
  dsimp only
  split
  · next value hvalue =>
    exact absurd (hvalue ▸ List.prefix_append ['\'', '#'] value) h
  · rfl

theorem readValue?_of_not_colon {key rest : Text} (h : ¬ [':'] <+: rest) :
    readValue? key rest = none := by
  cases rest with
  | nil => rfl
  | cons c rest =>
    have hc : c ≠ ':' := by
      rintro rfl
      exact h (List.prefix_append [':'] rest)
    simp [readValue?, hc]

/-- The end of a pair moves with the line breaks in its key and in the blanks
before its value. -/
theorem stretch_pair {digits : Text} (hdigits : rebreak mark digits = digits)
    (key blanks after : Text) :
    stretch mark (key ++
      '\'' :: ':' :: (blanks ++ '\'' :: '#' :: (digits ++ '\'' :: after)))
        (key.length + blanks.length + digits.length + 5) =
      (rebreak mark key).length + (rebreak mark blanks).length +
        digits.length + 5 := by
  have htext : key ++
    '\'' :: ':' :: (blanks ++ '\'' :: '#' :: (digits ++ '\'' :: after)) =
      (key ++ '\'' :: ':' :: (blanks ++ '\'' :: '#' :: (digits ++ ['\'']))) ++
        after := by
    simp
  have hlength : key.length + blanks.length + digits.length + 5 =
      (key ++ '\'' :: ':' ::
        (blanks ++ '\'' :: '#' :: (digits ++ ['\'']))).length := by
    simp only [List.length_append, List.length_cons, List.length_nil]
    omega
  rw [htext, hlength, Text.stretch_append, Text.rebreak_append,
    Text.rebreak_other mark (by decide), Text.rebreak_other mark (by decide),
      Text.rebreak_append,
    Text.rebreak_other mark (by decide), Text.rebreak_other mark (by decide),
    Text.rebreak_append, hdigits, Text.rebreak_singleton mark (by decide)]
  simp only [List.length_append, List.length_cons, List.length_nil]
  omega

theorem blanks_rebreak (hmark : Text.IsBreak mark) {blanks : Text}
    (h : ∀ c ∈ blanks, isBlank c = true) :
    ∀ c ∈ rebreak mark blanks, isBlank c = true := by
  intro c hc
  obtain ⟨d, hd, hc⟩ := List.mem_flatMap.mp hc
  split at hc
  · exact hmark.isBlank c hc
  · rw [List.mem_singleton.mp hc]
    exact h d hd

/-- Behind a colon, blanks, a quote and a hash the same digits are read, up to
the same quote. -/
theorem readValue?_blanks_rebreak (hmark : Text.IsBreak mark) {blanks : Text}
    (hblanks : ∀ c ∈ blanks, isBlank c = true) (key value : Text) :
    readValue? (rebreak mark key)
      (rebreak mark (':' :: (blanks ++ '\'' :: '#' :: value))) =
      (readValue? key (':' :: (blanks ++ '\'' :: '#' :: value))).map
        fun (key', hex, length) =>
        (rebreak mark key', hex,
          stretch mark (key ++ '\'' :: ':' :: (blanks ++ '\'' :: '#' :: value))
            length) := by
  obtain ⟨digits, hdigits⟩ : ∃ digits, digits = value.takeWhile isHexDigit :=
    ⟨_, rfl⟩
  have hplain : rebreak mark digits = digits :=
    Text.rebreak_eq_self mark fun hmem =>
    absurd (List.all_eq_true.mp List.all_takeWhile _ (hdigits ▸ hmem))
      (by decide)
  have hkept : (rebreak mark value).takeWhile isHexDigit =
      value.takeWhile isHexDigit :=
    Text.takeWhile_rebreak_of_not hmark (by decide) (by decide) value
  have hafter := Text.drop_takeWhile_rebreak mark value isHexDigit
  rw [← hdigits] at hkept hafter
  rw [hplain] at hafter
  rw [Text.rebreak_other mark (by decide), Text.rebreak_append,
    Text.rebreak_other mark (by decide),
    Text.rebreak_other mark (by decide),
      readValue?_blanks _ (blanks_rebreak hmark hblanks),
    readValue?_blanks _ hblanks, hkept, hafter, ← hdigits]
  have hhead := Text.head?_rebreak hmark (value.drop digits.length)
    (show '\'' ≠ '\r' by decide) (by decide)
  by_cases hcond : 3 ≤ digits.length ∧ digits.length ≤ 8 ∧
      (value.drop digits.length).head? = some '\''
  · rw [if_pos hcond, if_pos ⟨hcond.1, hcond.2.1, hhead.mpr hcond.2.2⟩]
    obtain ⟨after, hquote⟩ := List.head?_eq_some_iff.mp hcond.2.2
    have hend : value = digits ++ '\'' :: after := by
      rw [← hquote, hdigits, takeWhile_append_drop]
    rw [Option.map_some, hend]
    dsimp only
    rw [stretch_pair hplain]
  · rw [if_neg hcond, if_neg fun h => hcond ⟨h.1, h.2.1, hhead.mp h.2.2⟩]
    rfl

/-- The value of an entry is read in the same way. -/
theorem readValue?_rebreak (hmark : Text.IsBreak mark) (key rest : Text) :
    readValue? (rebreak mark key) (rebreak mark rest) =
      (readValue? key rest).map fun (key', hex, length) =>
        (rebreak mark key', hex,
          stretch mark (key ++ '\'' :: rest) length) := by
  by_cases hcolon : [':'] <+: rest
  · obtain ⟨rest, rfl⟩ := hcolon
    rw [List.singleton_append]
    by_cases hvalue : ['\'', '#'] <+: rest.drop (rest.takeWhile isBlank).length
    · obtain ⟨value, hvalue⟩ := hvalue
      have hrest : rest = rest.takeWhile isBlank ++ '\'' :: '#' :: value := by
        have hparts := takeWhile_append_drop isBlank rest
        rw [← hvalue] at hparts
        exact hparts.symm
      rw [hrest]
      exact readValue?_blanks_rebreak hmark
        (fun c hc => List.all_eq_true.mp List.all_takeWhile c hc) key value
    · have hvalue' := hvalue
      rw [← Text.prefix_rebreak hmark (by decide) (by decide),
        ← Text.drop_takeWhile_rebreak mark rest isBlank,
        ← Text.takeWhile_rebreak hmark.isBlank (by rfl : isBlank '\n' = true)
          rest] at hvalue'
      rw [Text.rebreak_other mark (by decide), readValue?_eq_none hvalue,
        readValue?_eq_none hvalue']
      rfl
  · rw [readValue?_of_not_colon hcolon, readValue?_of_not_colon fun h =>
      hcolon ((Text.prefix_rebreak hmark (by decide) (by decide) _).mp h)]
    rfl

/-- A text without quotes, or the part of it before the first one. -/
theorem exists_quote (text : Text) :
    '\'' ∉ text ∨ ∃ key rest, '\'' ∉ key ∧ text = key ++ '\'' :: rest := by
  cases hquote : Text.find? ['\''] text with
  | none => exact Or.inl (Text.find?_singleton_eq_none hquote)
  | some offset =>
    obtain ⟨key, rest, htext, _, hkey⟩ := Text.find?_singleton_eq_some hquote
    exact Or.inr ⟨key, rest, hkey, htext⟩

theorem not_mem_quote_rebreak (hmark : Text.IsBreak mark) {text : Text}
    (h : '\'' ∉ text) :
    '\'' ∉ rebreak mark text := by
  intro hmem
  obtain ⟨c, hc, hmem⟩ := List.mem_flatMap.mp hmem
  split at hmem
  · rcases hmark.2 _ hmem with hquote | hquote <;>
      exact absurd hquote (by decide)
  · exact h (List.mem_singleton.mp hmem ▸ hc)

/-- An entry is read in the same way, up to the breaks in its key. -/
theorem readEntry?_rebreak (hmark : Text.IsBreak mark) (text : Text) :
    readEntry? (rebreak mark text) =
      ( readEntry? text).map fun (key, hex, length) =>
        (rebreak mark key, hex, stretch mark text length) := by
  rcases exists_quote text with hquote | ⟨key, rest, hquote, rfl⟩
  · rw [readEntry?_of_not_mem hquote,
      readEntry?_of_not_mem (not_mem_quote_rebreak hmark hquote)]
    rfl
  · rw [Text.rebreak_append, Text.rebreak_other mark (by decide),
      readEntry?_key hquote,
      readEntry?_key (not_mem_quote_rebreak hmark hquote),
        readValue?_rebreak hmark]

/-- The pairs of a text are the same, up to the breaks in their keys. -/
theorem hexPairs_rebreak (hmark : Text.IsBreak mark) (content : Text) :
    hexPairs (rebreak mark content) =
      (hexPairs content).map fun pair => (rebreak mark pair.1, pair.2) := by
  induction hlength : content.length using
    Nat.strongRecOn generalizing content with
  | _ n ih =>
  subst hlength
  rcases exists_quote content with hquote | ⟨before, rest, hquote, rfl⟩
  · have hnone : ∀ {text : Text}, '\'' ∉ text → hexPairs text = [] := by
      intro text htext
      rw [← List.append_nil text, hexPairs_append htext]
      rfl
    rw [hnone hquote, hnone (not_mem_quote_rebreak hmark hquote)]
    rfl
  · rw [Text.rebreak_append, Text.rebreak_other mark (by decide),
      hexPairs_append hquote,
      hexPairs_append (not_mem_quote_rebreak hmark hquote), hexPairs_quote,
        hexPairs_quote,
      readEntry?_rebreak hmark]
    have hshort : rest.length < (before ++ '\'' :: rest).length := by
      rw [List.length_append, List.length_cons]
      omega
    cases readEntry? rest with
    | none => exact ih rest.length hshort rest rfl
    | some read =>
      obtain ⟨key, hex, length⟩ := read
      have hle : (rest.drop length).length ≤ rest.length := by
        rw [List.length_drop]
        exact Nat.sub_le _ _
      have hrest := ih _ (Nat.lt_of_le_of_lt hle hshort) (rest.drop length) rfl
      dsimp only [Option.map_some]
      rw [Text.drop_rebreak, hrest, List.map_cons]

/-- Where no key holds a break, a scan finds the same. -/
theorem scan_rebreak (hmark : Text.IsBreak mark) (convert : Converter)
    {content : Text} (hkeys : ∀ pair ∈ hexPairs content, '\n' ∉ pair.1) :
    scan convert (rebreak mark content) = scan convert content := by
  have hpairs : hexPairs (rebreak mark content) = hexPairs content := by
    rw [hexPairs_rebreak hmark]
    refine (List.map_congr_left fun pair hpair => ?_).trans (List.map_id _)
    rw [Text.rebreak_eq_self mark (hkeys pair hpair)]
    rfl
  rw [scan, scan, hpairs]

/-! ## The place of the gated entry -/

theorem blankToEnd_eq (text : Text) :
    blankToEnd text = ((text.takeWhile isBlank).contains '\n' ||
      (text.dropWhile isBlank).isEmpty) := by
  have hparts :=
    congrArg List.length
      (List.takeWhile_append_dropWhile (p := isBlank) (l := text))
  rw [List.length_append] at hparts
  rw [blankToEnd]
  congr 1
  rw [Bool.eq_iff_iff, decide_eq_true_iff, List.isEmpty_iff,
    ← List.length_eq_zero_iff]
  omega

theorem blankToEnd_rebreak (text : Text) :
    blankToEnd (rebreak ['\r', '\n'] text) = blankToEnd text := by
  have hmark : Text.IsBreak ['\r', '\n'] := Text.Style.isBreak (Or.inl rfl)
  have hmem : ∀ text : Text, '\n' ∈ rebreak ['\r', '\n'] text ↔
      '\n' ∈ text := by
    intro text
    induction text with
    | nil => rfl
    | cons c rest ih =>
      by_cases hc : c = '\n'
      · simp [hc]
      · rw [Text.rebreak_other _ hc, List.mem_cons, List.mem_cons, ih]
  have hcontains :
    (rebreak ['\r', '\n'] (text.takeWhile isBlank)).contains '\n' =
      (text.takeWhile isBlank).contains '\n' := by
    rw [Bool.eq_iff_iff, List.contains_iff_mem, List.contains_iff_mem, hmem]
  have hempty : (rebreak ['\r', '\n'] (text.dropWhile isBlank)).isEmpty =
      (text.dropWhile isBlank).isEmpty := by
    rw [Bool.eq_iff_iff, List.isEmpty_iff, List.isEmpty_iff,
      Text.rebreak_eq_nil_iff hmark.1]
  rw [blankToEnd_eq, blankToEnd_eq, Text.takeWhile_rebreak hmark.isBlank rfl,
    Text.dropBlanks_rebreak hmark, hcontains, hempty]

/-- A closing line is one with CR LF, too. -/
theorem startsWithClosingLine_rebreak (text : Text) :
    startsWithClosingLine (rebreak ['\r', '\n'] text) =
      startsWithClosingLine text := by
  have hmark : Text.IsBreak ['\r', '\n'] := Text.Style.isBreak (Or.inl rfl)
  rw [startsWithClosingLine_eq, startsWithClosingLine_eq,
    Text.dropBlanks_rebreak hmark]
  cases htext : text.dropWhile isBlank with
  | nil => rfl
  | cons c rest =>
    have hblank : isBlank c = false := by
      have hhead := List.head?_dropWhile_not isBlank text
      rw [htext] at hhead
      simpa using hhead
    have hc : c ≠ '\n' := by
      rintro rfl
      exact absurd hblank (by decide)
    rw [Text.rebreak_other _ hc]
    by_cases hbrace : c = '\x7d'
    · subst hbrace
      show blankToEnd (if _ = some ',' then _ else _) =
        blankToEnd (if _ = some ',' then _ else _)
      have hhead := Text.head?_rebreak hmark rest (show ',' ≠ '\r' by decide)
        (by decide)
      by_cases hcomma : rest.head? = some ','
      · obtain ⟨tail, rfl⟩ := List.head?_eq_some_iff.mp hcomma
        rw [if_pos hcomma, if_pos (hhead.mpr hcomma),
          Text.rebreak_other _ (by decide)]
        exact blankToEnd_rebreak tail
      · rw [if_neg hcomma, if_neg fun h => hcomma (hhead.mp h)]
        exact blankToEnd_rebreak rest
    · simp [hbrace]

/-- A closing line is found after the line feed that is part of CR LF. -/
theorem closingLine?_rebreak (text : Text) :
    closingLine? (rebreak ['\r', '\n'] text) =
      (closingLine? text).map (stretch ['\r', '\n'] text · + 1) := by
  induction text with
  | nil => rfl
  | cons c rest ih =>
    by_cases hc : c = '\n'
    · subst hc
      have hreturn : closingLine? (rebreak ['\r', '\n'] ('\n' :: rest)) =
          (closingLine? ('\n' :: rebreak ['\r', '\n'] rest)).map (· + 1) := rfl
      rw [hreturn, closingLine?, startsWithClosingLine_rebreak, closingLine?]
      split
      · rfl
      · rw [ih, Option.map_map, Option.map_map, Option.map_map]
        refine congrArg (Option.map · _) (funext fun offset => ?_)
        have hoffset := Text.stretch_break ['\r', '\n'] rest offset
        simp only [Function.comp_apply, hoffset, List.length_cons,
          List.length_nil]
        omega
    · have hother : ∀ text, (decide (c = '\n') && startsWithClosingLine text) =
          false := by
        simp [hc]
      rw [Text.rebreak_other _ hc, closingLine?, closingLine?, hother, hother,
        if_neg Bool.false_ne_true, if_neg Bool.false_ne_true, ih,
        Option.map_map, Option.map_map]
      congr 1
      funext offset
      exact congrArg (· + 1) (Text.stretch_cons_of_ne _ hc rest offset).symm

/-- Without a CR, an offset is in no line break. -/
theorem beforeBreak_of_not_mem {content : Text} (h : '\r' ∉ content)
    (offset : Nat) :
    beforeBreak content offset = offset := by
  rw [beforeBreak, if_neg]
  rw [Bool.and_eq_true, decide_eq_true_iff, decide_eq_true_iff]
  rintro ⟨-, hslice⟩
  have hmem : '\r' ∈ content.slice (offset - 1) (offset + 1) := by
    rw [hslice]
    exact List.mem_cons_self
  exact h (List.mem_of_mem_drop (List.mem_of_mem_take hmem))

/-- The end of a text is in no line break. -/
theorem beforeBreak_length (content : Text) :
    beforeBreak content content.length = content.length := by
  rw [beforeBreak, if_neg]
  rw [Bool.and_eq_true, decide_eq_true_iff, decide_eq_true_iff]
  rintro ⟨hpos, hslice⟩
  have hshort := congrArg List.length hslice
  rw [Text.slice, List.length_take, List.length_drop, List.length_cons,
    List.length_cons, List.length_nil] at hshort
  omega

/-- The offset of the LF in a CR LF is moved to the offset of the line feed in
the text. -/
theorem beforeBreak_rebreak (front back : Text) :
    beforeBreak (rebreak ['\r', '\n'] (front ++ '\n' :: back))
        (stretch ['\r', '\n'] (front ++ '\n' :: back) front.length + 1) =
      stretch ['\r', '\n'] (front ++ '\n' :: back) front.length := by
  have hslice := Text.slice_of_append (rebreak ['\r', '\n'] front) ['\r', '\n']
    (rebreak ['\r', '\n'] back)
  have hparts : rebreak ['\r', '\n'] (front ++ '\n' :: back) =
      rebreak ['\r', '\n'] front ++ ['\r', '\n'] ++
        rebreak ['\r', '\n'] back := by
    rw [Text.rebreak_append, Text.rebreak_break, List.append_assoc]
  rw [Text.stretch_append, hparts, beforeBreak, Nat.add_sub_cancel, if_pos]
  rw [Bool.and_eq_true, decide_eq_true_iff, decide_eq_true_iff]
  exact ⟨Nat.succ_pos _, hslice⟩

/-- The line feed in front of a closing line, or the first one, in a text that
starts with a line feed and in the text after its CR. -/
theorem exists_feed (back : Text) :
    ∃ front after, '\n' :: back = front ++ '\n' :: after ∧
      (closingLine? ('\n' :: back)).getD 0 = front.length ∧
      (closingLine? ('\n' :: rebreak ['\r', '\n'] back)).getD 0 =
        (rebreak ['\r', '\n'] front).length := by
  have hreturn : closingLine? (['\r'] ++ '\n' :: rebreak ['\r', '\n'] back) =
      (closingLine? ('\n' :: back)).map
        (stretch ['\r', '\n'] ('\n' :: back) · + 1) :=
    closingLine?_rebreak ('\n' :: back)
  rw [closingLine?_append (by decide)] at hreturn
  cases hclosing : closingLine? ('\n' :: back) with
  | none =>
    rw [hclosing, Option.map_none, Option.map_eq_none_iff] at hreturn
    rw [hreturn]
    exact ⟨[], back, rfl, rfl, rfl⟩
  | some offset =>
    obtain ⟨front, after, htext, rfl, _⟩ := closingLine?_eq_some hclosing
    rw [hclosing, Option.map_some, Option.map_eq_some_iff] at hreturn
    obtain ⟨offset, hoffset, hsucc⟩ := hreturn
    rw [htext, Text.stretch_append, List.length_singleton] at hsucc
    refine ⟨front, after, htext, rfl, ?_⟩
    rw [hoffset, Option.getD_some]
    exact Nat.succ.inj hsucc

/-- A line feed behind some lines moves by the carriage returns in front of
it. -/
theorem stretch_feed {line : Text} (hline : '\n' ∉ line)
    (before front after : Text) :
    (rebreak ['\r', '\n'] before).length + (line ++ ['\r']).length +
        (rebreak ['\r', '\n'] front).length =
      stretch ['\r', '\n'] ((before ++ line ++ front) ++ '\n' :: after)
        (before ++ line ++ front).length + 1 := by
  rw [Text.stretch_append, Text.rebreak_append, Text.rebreak_append,
    Text.rebreak_eq_self _ hline]
  simp only [List.length_append, List.length_singleton]
  omega

/-- The gated entry goes to the stretched offset. -/
theorem insertionOffset?_rebreak {content anchor : Text} (hcr : '\r' ∉ content)
    (hanchor : IsAnchor anchor) :
    insertionOffset? (rebreak ['\r', '\n'] content) anchor =
      (insertionOffset? content anchor).map (stretch ['\r', '\n'] content) := by
  have hmark : Text.IsBreak ['\r', '\n'] := Text.Style.isBreak (Or.inl rfl)
  have hplace := Text.findLast?_rebreak hmark hanchor.ne_nil hanchor.noBreak.2
    hanchor.noBreak.1 content
  cases hlast : Text.findLast? anchor content with
  | none =>
    rw [hlast] at hplace
    rw [insertionOffset?, insertionOffset?, hplace, hlast]
    rfl
  | some last =>
    rw [hlast, Option.map_some] at hplace
    obtain ⟨line, tail, hcontent, hline, htail, hoffset⟩ :=
      exists_line_of_findLast? hlast
    obtain ⟨line', tail', hcontent', hline', htail', hoffset'⟩ :=
      exists_line_of_findLast? hplace
    obtain ⟨before, hbefore⟩ : ∃ before, before = content.take last := ⟨_, rfl⟩
    have hlength : before.length = last := by
      rw [hbefore, List.length_take_of_le (Text.findLast?_eq_some hlast).1]
    have hstretch : stretch ['\r', '\n'] content last =
        (rebreak ['\r', '\n'] before).length := by
      rw [hbefore, stretch]
    -- After the anchor, the rest of its line and what follows that are known in
    -- both texts.
    have hrest : line ++ rebreak ['\r', '\n'] tail = line' ++ tail' := by
      rw [Text.take_rebreak, ← hbefore, List.append_assoc] at hcontent'
      rw [← hbefore, List.append_assoc] at hcontent
      have hown := congrArg (rebreak ['\r', '\n']) hcontent
      rw [Text.rebreak_append, Text.rebreak_append,
        Text.rebreak_eq_self _ hline, hcontent'] at hown
      exact (List.append_cancel_left hown).symm
    rw [hoffset, hoffset', Option.map_some, beforeBreak_of_not_mem hcr,
      Option.some.injEq]
    rw [← hbefore] at hcontent
    rcases htail with rfl | ⟨back, rfl⟩
    · obtain ⟨rfl, rfl⟩ :=
        Text.append_inj_of_not_mem hline hline' (Or.inl rfl) htail' hrest
      have hend : last + line.length + 0 = content.length := by
        rw [hcontent, List.append_nil, List.length_append, hlength,
          Nat.add_zero]
      have hend' : stretch ['\r', '\n'] content last + line.length + 0 =
          (rebreak ['\r', '\n'] content).length := by
        rw [hstretch, hcontent, List.append_nil, Text.rebreak_append,
          Text.rebreak_eq_self _ hline, List.length_append, Nat.add_zero]
      rw [closingLine?, Option.getD_none, hend, hend', beforeBreak_length,
        Text.stretch_length]
    · rw [List.singleton_append] at hrest hcontent ⊢
      have hparts : line ++ ['\r'] ++ '\n' :: rebreak ['\r', '\n'] back =
          line' ++ tail' := by
        rw [← hrest, Text.rebreak_break, List.append_assoc]
        rfl
      have hreturn : '\n' ∉ line ++ ['\r'] := by
        simp [hline]
      obtain ⟨hlineEq, (htailEq : '\n' :: rebreak ['\r', '\n'] back = tail')⟩ :=
        Text.append_inj_of_not_mem hreturn hline'
          (Or.inr (List.prefix_append ['\n'] _)) htail' hparts
      obtain ⟨front, after, hback, hown, hother⟩ := exists_feed back
      have hfront : content = (before ++ line ++ front) ++ '\n' :: after := by
        rw [hcontent, hback]
        simp
      have hfeed : last + line.length + front.length =
          (before ++ line ++ front).length := by
        rw [List.length_append, List.length_append, hlength]
      rw [← hlineEq, ← htailEq, hown, hother, hfeed, hstretch, hfront,
        stretch_feed hline]
      exact beforeBreak_rebreak _ after

/-- The indent of a line does not depend on how lines are broken. -/
theorem indentAt_rebreak (content : Text) {offset : Nat}
    (h : offset ≤ content.length) :
    indentAt (rebreak ['\r', '\n'] content)
      (stretch ['\r', '\n'] content offset) = indentAt content offset := by
  have hmark : Text.IsBreak ['\r', '\n'] := Text.Style.isBreak (Or.inl rfl)
  have hline : ∀ text : Text, (rebreak ['\n', '\r'] text).takeWhile (· ≠ '\n') =
      text.takeWhile (· ≠ '\n') := by
    intro text
    induction text with
    | nil => rfl
    | cons c rest ih =>
      by_cases hc : c = '\n'
      · rw [hc]
        rfl
      · rw [Text.rebreak_other _ hc, List.takeWhile_cons, List.takeWhile_cons,
          ih]
  obtain ⟨line, hown⟩ :
      ∃ line, line = (content.take offset).reverse.takeWhile (· ≠ '\n') :=
    ⟨_, rfl⟩
  have hother : ((rebreak ['\r', '\n'] content).take
      (stretch ['\r', '\n'] content offset)).reverse.takeWhile (· ≠ '\n') =
        line := by
    rw [hown, Text.take_rebreak, Text.reverse_rebreak]
    exact hline _
  obtain ⟨front, hfront⟩ : ∃ front, content.take offset =
      front ++ line.reverse := by
    refine ⟨((content.take offset).reverse.dropWhile (· ≠ '\n')).reverse, ?_⟩
    rw [hown, ← List.reverse_append, List.takeWhile_append_dropWhile,
      List.reverse_reverse]
  have hplain : '\n' ∉ line.reverse := by
    rw [List.mem_reverse, hown]
    intro hmem
    exact absurd (List.all_eq_true.mp List.all_takeWhile _ hmem) (by decide)
  have hcontent : content = front ++ (line.reverse ++ content.drop offset) := by
    rw [← List.append_assoc, ← hfront, List.take_append_drop]
  have hlength : offset = front.length + line.length := by
    have hparts := congrArg List.length hfront
    rwa [List.length_take_of_le h, List.length_append,
      List.length_reverse] at hparts
  have hstretch : stretch ['\r', '\n'] content offset =
      (rebreak ['\r', '\n'] front).length + line.length := by
    rw [stretch, hfront, Text.rebreak_append, Text.rebreak_eq_self _ hplain,
      List.length_append, List.length_reverse]
  have hdrop : (rebreak ['\r', '\n'] content).drop
    (rebreak ['\r', '\n'] front).length =
      rebreak ['\r', '\n'] (content.drop front.length) := by
    rw [hcontent, Text.rebreak_append, List.drop_left, List.drop_left]
  rw [indentAt, indentAt, hother, ← hown, hstretch, Nat.add_sub_cancel, hdrop,
    hlength, Nat.add_sub_cancel]
  exact Text.takeWhile_rebreak_of_not hmark (by decide) (by decide) _

/-! ## The insertion -/

/-- The gated entry is written with other breaks. -/
theorem rebreak_block (mark : Text) {entries : List Entry} {indent : Text}
    (hentries : ∀ entry ∈ entries, '\n' ∉ entry.key ∧ '\n' ∉ entry.oklch)
    (hindent : '\n' ∉ indent) :
    rebreak mark (block entries indent ['\n']) = block entries indent mark := by
  have hcomment : ∀ line ∈ comment, '\n' ∉ line := by decide
  have hkey : '\n' ∉ gateKey := by decide
  refine Text.rebreak_joinWith mark fun line hline => ?_
  simp only [List.mem_append, List.mem_map, List.mem_singleton] at hline
  rcases hline with
    (((rfl | ⟨text, htext, rfl⟩) | rfl) | ⟨entry, hentry, rfl⟩) | rfl
  · exact List.not_mem_nil
  · simp [hindent, hcomment text htext]
  · simp [hindent, hkey]
  · obtain ⟨hname, hoklch⟩ := hentries entry (mem_sorted.mp hentry)
    simp [entryLine, defaultIndent, hindent, hname, hoklch]
  · simp [hindent]

/-- What became of a text, for the text with other breaks. -/
def Outcome.rebreak (mark content : Text) : Outcome → Outcome
  | alreadyProcessed => alreadyProcessed
  | untouched failures => untouched failures
  | changed entries failures offset inserted =>
    changed entries failures (stretch mark content offset)
      (Text.rebreak mark inserted)

theorem Outcome.output_rebreak (mark content : Text) (outcome : Outcome) :
    (outcome.rebreak mark content).output (Text.rebreak mark content) =
      Text.rebreak mark (outcome.output content) := by
  cases outcome with
  | alreadyProcessed => rfl
  | untouched failures => rfl
  | changed entries failures offset inserted =>
    rw [Outcome.rebreak, Outcome.output, Outcome.output, Text.take_rebreak,
      Text.drop_rebreak, Text.rebreak_append, Text.rebreak_append]

section Transforming

variable {convert : Converter} {content : Text}

/-- What becomes of a text whose lines end in CR LF. -/
theorem transform_rebreak_eq (hcr : '\r' ∉ content) (hlf : '\n' ∈ content)
    (hkeys : ∀ pair ∈ hexPairs content, '\n' ∉ pair.1)
    (hvalue : ∀ hex oklch, convert hex = some oklch → '\n' ∉ oklch) :
    transform convert (rebreak ['\r', '\n'] content) =
      (transform convert content).map
        (Outcome.rebreak ['\r', '\n'] content) := by
  have hmark : Text.IsBreak ['\r', '\n'] := Text.Style.isBreak (Or.inl rfl)
  have hkey : (Text.find? gateKey (rebreak ['\r', '\n'] content)).isSome =
      (Text.find? gateKey content).isSome := by
    rw [Bool.eq_iff_iff, Text.find?_isSome_iff, Text.find?_isSome_iff,
      Text.infix_rebreak hmark (by decide) (by decide) (by decide)]
  rw [transform, transform, hkey]
  split
  · rfl
  · dsimp only
    rw [scan_rebreak hmark convert hkeys]
    cases hlast : (scan convert content).entries.getLast? with
    | none => rfl
    | some entry =>
      have hmem := List.mem_of_getLast? hlast
      have hanchor := isAnchor_of_mem_scan hmem
      have hplain : ∀ entry ∈ (scan convert content).entries,
          '\n' ∉ entry.key ∧ '\n' ∉ entry.oklch := by
        intro entry hentry
        obtain ⟨hpair, _, hconvert⟩ := exists_of_mem_scan convert content hentry
        exact ⟨hkeys _ hpair, hvalue _ _ hconvert⟩
      obtain ⟨offset, last, hfind, hoffset, _⟩ :=
        exists_insertionOffset? (hex_infix_of_mem_scan hmem)
      have hindent : ∀ offset, '\n' ∉ indentAt content offset :=
        fun offset hbreak =>
        absurd (List.all_eq_true.mp (all_indentAt content offset) _ hbreak)
          (by decide)
      dsimp only
      rw [insertionOffset?_rebreak hcr hanchor, hoffset,
        Text.findLast?_rebreak hmark hanchor.ne_nil hanchor.noBreak.2
          hanchor.noBreak.1,
        hfind, Text.newlineStyle_rebreak (Or.inl rfl) hcr hlf,
        Text.newlineStyle_of_lf hcr]
      dsimp only [Option.map_some]
      rw [indentAt_rebreak content (Text.findLast?_eq_some hfind).1, Except.map,
        Outcome.rebreak, Text.rebreak_append, rebreak_block _ hplain]
      · rfl
      · split
        · decide
        · exact hindent last

/-- A mapping literal whose lines end in CR LF gets the entries, the failures
and the flags that it gets with LF, and its text is the one with LF in which
every line ends in CR LF. -/
theorem transform_crlf (hcr : '\r' ∉ content) (hlf : '\n' ∈ content)
    (hkeys : ∀ pair ∈ hexPairs content, '\n' ∉ pair.1)
    (hvalue : ∀ hex oklch, convert hex = some oklch → '\n' ∉ oklch) :
    ∃ first second,
      transform convert content = .ok first ∧
      transform convert (rebreak ['\r', '\n'] content) = .ok second ∧
      second.entries = first.entries ∧ second.failures = first.failures ∧
      second.isAlreadyProcessed = first.isAlreadyProcessed ∧
      second.isChanged = first.isChanged ∧
      second.colorsConverted = first.colorsConverted ∧
      second.output (rebreak ['\r', '\n'] content) =
        rebreak ['\r', '\n'] (first.output content) := by
  have hrebreak := transform_rebreak_eq hcr hlf hkeys hvalue
  obtain ⟨first, hfirst⟩ : ∃ first, transform convert content = .ok first := by
    rcases transform_cases convert content with
      ⟨_, h⟩ | ⟨_, _, h⟩ | ⟨_, _, _, _, _, h⟩
    · exact ⟨_, h⟩
    · exact ⟨_, h⟩
    · exact ⟨_, h⟩
  rw [hfirst] at hrebreak
  refine ⟨first, first.rebreak ['\r', '\n'] content, hfirst, hrebreak, ?_, ?_,
    ?_, ?_, ?_, Outcome.output_rebreak _ content first⟩
  all_goals cases first <;> rfl

end Transforming

/-- The closing line comes after an empty line and stands in front of a
comment. -/
theorem transform_crlf_closing :
    ∃ first second,
      transform (fun _ => some "oklch(1 0 0)".toList)
        "x: \x7b\n  'a': '#fff', // a\n\n  \x7d,\n// end\n".toList = .ok first ∧
      transform (fun _ => some "oklch(1 0 0)".toList)
        (rebreak ['\r', '\n']
          "x: \x7b\n  'a': '#fff', // a\n\n  \x7d,\n// end\n".toList) = .ok
            second ∧
      second.entries = first.entries ∧ second.failures = first.failures ∧
      second.isAlreadyProcessed = first.isAlreadyProcessed ∧
      second.isChanged = first.isChanged ∧
      second.colorsConverted = first.colorsConverted ∧
      second.output (rebreak ['\r', '\n']
          "x: \x7b\n  'a': '#fff', // a\n\n  \x7d,\n// end\n".toList) =
        rebreak ['\r', '\n']
          (first.output
            "x: \x7b\n  'a': '#fff', // a\n\n  \x7d,\n// end\n".toList) := by
  refine transform_crlf (by decide) (by decide) (by decide) fun hex oklch h =>
    ?_
  cases h
  decide

end Mapping

end OklchGate
