import OklchGate.Proofs.Css.Colors
import OklchGate.Proofs.Css.Tight

/-!
# Tokens of colors

Which tokens the words of a color are.  The text of a word says it: a `#` and
hexadecimal digits are a hash, and letters of `important` are that identifier,
if they are ASCII.

There are two groups.

* Lexemes by their text: `Lexeme.kind_of_hash`, `Lexeme.kind_of_bang`,
  `Lexeme.kind_of_letters`, and `Lexeme.name_of_identifier` for the other
  direction.
* `Word.IsColor` and `Word.IsImportant`, with `Word.isColor_of_text`,
  `Word.isImportant_of_text` and `Word.IsImportant.letters`.
-/

namespace OklchGate.Css

/-! ## Lexemes by their text -/

namespace Lexeme

/-- A `#` and a digit start a hash. -/
theorem kind_of_hash {lexeme : Lexeme} {text rest : Text} {d : Char}
    (h : lexeme ∈ ofText text) (htext : lexeme.text = '#' :: d :: rest)
    (hd : isHexDigit d = true) :
    ∃ name, lexeme.kind = .hash name := by
  obtain ⟨c, own, rfl⟩ := exists_first_of_mem h
  rw [text_first] at htext
  obtain ⟨rfl, htake⟩ := List.cons.inj htext
  obtain ⟨more, rfl⟩ : ∃ more, own = d :: more := by
    cases own with
    | nil => cases htake
    | cons e more =>
      cases hn : (read '#' (e :: more)).2 - 1 with
      | zero =>
        rw [hn] at htake
        cases htake
      | succ n =>
        rw [hn, List.take_succ_cons] at htake
        exact ⟨more, by rw [(List.cons.inj htake).1]⟩
  have hname : isNameChar d = true :=
    ascii_imp (p := isHexDigit) (q := isNameChar) (by decide +kernel)
      (toNat_hexDigit hd) hd
  have hstart : startsIdentifier ('#' :: d :: more) = false := rfl
  have hnumeric : readNumeric? ('#' :: d :: more) = none := rfl
  refine ⟨(readName (d :: more)).1, ?_⟩
  rw [first, read]
  simp [isSpace, hstart, hnumeric, hname, List.isPrefixOf]

/-- An exclamation mark by itself is a delimiter. -/
theorem kind_of_bang {lexeme : Lexeme} {text : Text} (h : lexeme ∈ ofText text)
    (htext : lexeme.text = ['!']) : lexeme.kind = .delimiter := by
  obtain ⟨c, own, rfl⟩ := exists_first_of_mem h
  rw [text_first] at htext
  obtain ⟨rfl, _⟩ := List.cons.inj htext
  have hstart : startsIdentifier ('!' :: own) = false := rfl
  have hnumeric : readNumeric? ('!' :: own) = none := rfl
  have hopener : Bracket.ofOpener? '!' = none := rfl
  have hcloser : Bracket.ofCloser? '!' = none := rfl
  rw [first, read]
  simp [isSpace, hstart, hnumeric, hopener, hcloser, List.isPrefixOf]

/-- A name without a backslash is its text. -/
theorem readName_plain {text : Text} (h : '\\' ∉ text.take (readName text).2) :
    (readName text).1 = text.take (readName text).2 := by
  induction text with
  | nil => rfl
  | cons c rest ih =>
    rw [readName_eq, Pieces.run_snd_cons, nameStep] at h
    rw [readName_eq, Pieces.run_cons, Pieces.run_snd_cons, nameStep]
    by_cases hname : isNameChar c = true
    · rw [if_pos hname] at h ⊢
      dsimp only at h ⊢
      rw [Nat.zero_min, Nat.add_zero, List.drop_zero, Nat.add_comm,
        List.take_succ_cons, List.mem_cons, not_or] at h
      rw [Nat.zero_min, Nat.add_zero, List.drop_zero, Nat.add_comm,
        List.take_succ_cons]
      exact congrArg (c :: ·) (ih h.2)
    · rw [if_neg hname] at h ⊢
      by_cases hescape : startsEscape (c :: rest) = true
      · have hc : c = '\\' := by
          by_cases hc : c = '\\'
          · exact hc
          · rw [startsEscape_cons hc] at hescape
            cases hescape
        rw [if_pos hescape] at h
        dsimp only at h
        rw [Nat.add_assoc, Nat.add_comm, List.take_succ_cons, hc] at h
        exact absurd List.mem_cons_self h
      · rw [if_neg hescape]
        rfl

/-- An identifier without a backslash is named by its text. -/
theorem name_of_identifier {lexeme : Lexeme} {text name : Text}
    (h : lexeme ∈ ofText text) (hkind : lexeme.kind = .identifier name)
    (hslash : '\\' ∉ lexeme.text) :
    lexeme.text = name := by
  obtain ⟨c, rest, rfl⟩ := exists_first_of_mem h
  obtain ⟨n, hread⟩ : ∃ n, read c rest = (.identifier name, n) :=
    ⟨(read c rest).2, by rw [← hkind]; rfl⟩
  obtain ⟨_, _, _, _, hlike⟩ := read_eq_identifier hread
  have hname : name = (readName (c :: rest)).1 ∧
      n = (readName (c :: rest)).2 := by
    rcases readIdentifierLike_cases (c :: rest) with h | h | ⟨ending, m, h⟩ <;>
      rw [h] at hlike
    · cases hlike
      exact ⟨rfl, rfl⟩
    · cases hlike
    · cases ending <;> cases hlike
  rw [first, hread, hname.2] at hslash ⊢
  rw [hname.1, readName_plain hslash]

/-- The opening of a function holds its bracket. -/
theorem mem_of_paren {text rest : Text}
    (h : text.drop (readName text).2 = '(' :: rest) :
    '(' ∈ text.take (readIdentifierLike text).2 := by
  have htake : ∀ n, '(' ∈ text.take ((readName text).2 + 1 + n) := by
    intro n
    rw [List.take_add, List.take_add, h]
    exact List.mem_append_left _ (List.mem_append_right _ List.mem_cons_self)
  rw [readIdentifierLike_paren h]
  split
  · exact htake _
  · exact htake 0

/-- An opening bracket or a function holds the bracket. -/
theorem mem_of_opening {lexeme : Lexeme} {text : Text} {b : Bracket}
    (h : lexeme ∈ ofText text) (hkind : lexeme.kind = .opening b) :
    b.opener ∈ lexeme.text := by
  cases hb : b with
  | curly | square =>
    rw [hb] at hkind
    rw [text_of_opening h hkind (by decide)]
    exact List.mem_cons_self
  | round =>
    rw [hb] at hkind
    obtain ⟨c, rest, rfl⟩ := exists_first_of_mem h
    revert hkind
    apply read_cases (motive := fun answer =>
      answer.1 = .opening .round → '(' ∈ (c :: rest).take answer.2)
    case opening =>
      rintro b rfl hround
      cases hround
      exact List.mem_cons_self
    case word =>
      intro _ hround
      by_cases hparen : ∃ more, (c :: rest).drop (readName (c :: rest)).2 =
        '(' :: more
      · obtain ⟨more, hmore⟩ := hparen
        exact mem_of_paren hmore
      · rw [readIdentifierLike_plain fun more hmore => hparen ⟨more, hmore⟩]
          at hround
        cases hround
    case string =>
      intro _ ending n hround
      cases ending <;> cases hround
    all_goals
      intros
      rename_i hround
      cases hround

/-- The letters of the mark of importance are an identifier. -/
theorem kind_of_letters {lexeme : Lexeme} {text : Text}
    (h : lexeme ∈ ofText text) (hword : IsImportant lexeme.text)
    (hascii : ∀ c ∈ lexeme.text, c.toNat < 128) :
    lexeme.kind = .identifier lexeme.text := by
  have hslash : '\\' ∉ lexeme.text := by
    intro hmem
    obtain ⟨letter, hletter, hc⟩ := hword.exists_letter _ hmem
    exact (letter_other hletter hc).2.2 rfl
  have hparen : '(' ∉ lexeme.text := by
    intro hmem
    exact absurd (hword.chars _ hmem) (by decide)
  have hname : ∃ name, lexeme.kind = .identifier name := by
    obtain ⟨c, rest, rfl⟩ := exists_first_of_mem h
    have hc : c ∈ (first c rest).text := by
      rw [text_first]
      exact List.mem_cons_self
    have hclass : (!isSpace c &&
        (c ≠ 'u' && (c ≠ 'U' && (c ≠ '-' && isNameStart c)))) = true :=
      ascii_imp (p := isLetterOfImportant)
        (q := fun c => !isSpace c &&
          (c ≠ 'u' && (c ≠ 'U' && (c ≠ '-' && isNameStart c))))
        (by decide +kernel) (hascii c hc)
          (List.any_eq_true.mpr (hword.exists_letter c hc))
    obtain ⟨hspace, hu, hU, hdash, hstart⟩ : isSpace c = false ∧ c ≠ 'u' ∧
      c ≠ 'U' ∧ c ≠ '-' ∧ isNameStart c = true := by
      simpa using hclass
    have hread : read c rest = readIdentifierLike (c :: rest) := by
      rw [read]
      simp [hspace, hu, hU, Ne.symm hdash, List.isPrefixOf, startsIdentifier,
        hstart]
    rw [first, hread] at hparen ⊢
    rw [readIdentifierLike_plain fun more hmore => hparen (mem_of_paren hmore)]
    exact ⟨_, rfl⟩
  obtain ⟨name, hkind⟩ := hname
  rw [hkind, name_of_identifier h hkind hslash]

end Lexeme

/-! ## Words by their text -/

namespace Word

/-- A word has the text of its lexeme if normalizing keeps each character of
it. -/
theorem text_eq_of_lexeme {source : Text} {word : Word}
    (h : word ∈ words source)
    (hkept : ∀ c ∈ word.lexeme.text, c ≠ '\n' ∧ c ≠ '\uFFFD') :
    word.text = word.lexeme.text := by
  obtain ⟨own, hmem, hplain, htext⟩ := exists_strokes_of_mem h
  rw [← hplain] at hkept
  rw [← hplain, ← htext]
  clear hplain htext
  induction own with
  | nil => rfl
  | cons stroke rest ih =>
    rw [List.forall_mem_cons] at hmem
    rw [List.map_cons, List.forall_mem_cons] at hkept
    rw [List.map_cons, List.flatten_cons, ih hkept.2 hmem.2]
    obtain ⟨c, hc⟩ : ∃ c, strokeChar stroke = c := ⟨_, rfl⟩
    rw [hc] at hkept ⊢
    rw [stroke_eq_of_strokeChar hmem.1 hc hkept.1.1 hkept.1.2,
      List.singleton_append]

/-- A character of a lexeme that normalizing keeps stands in its word. -/
theorem mem_text_of_lexeme {source : Text} {word : Word} {c : Char}
    (h : word ∈ words source) (hc : c ∈ word.lexeme.text) (hbreak : c ≠ '\n')
    (hnul : c ≠ '\uFFFD') : c ∈ word.text := by
  obtain ⟨own, hmem, hplain, htext⟩ := exists_strokes_of_mem h
  rw [← hplain] at hc
  rw [← htext]
  obtain ⟨stroke, hstroke, hchar⟩ := List.mem_map.mp hc
  refine List.mem_flatten.mpr ⟨stroke, hstroke, ?_⟩
  rw [stroke_eq_of_strokeChar (hmem stroke hstroke) hchar hbreak hnul]
  exact List.mem_singleton_self c

/-- A word that opens a block holds the bracket. -/
theorem mem_text_of_opening {source : Text} {word : Word} {b : Bracket}
    (h : word ∈ words source) (hkind : word.lexeme.kind = .opening b) :
    b.opener ∈ word.text := by
  refine mem_text_of_lexeme h
    (Lexeme.mem_of_opening (lexeme_mem_of_mem_words h) hkind) ?_ ?_ <;>
    cases b <;> decide

/-- A lexeme has the text of its word if normalizing keeps each character of
it. -/
theorem lexeme_text_eq {source : Text} {word : Word} (h : word ∈ words source)
    (hkept : ∀ c ∈ word.text, c ≠ '\r' ∧ c ≠ '\x0c' ∧ c ≠ '\x00') :
    word.lexeme.text = word.text := by
  obtain ⟨own, hmem, hplain, htext⟩ := exists_strokes_of_mem h
  rw [← htext] at hkept
  rw [← hplain, ← htext]
  clear hplain htext
  induction own with
  | nil => rfl
  | cons stroke rest ih =>
    rw [List.forall_mem_cons] at hmem
    rw [List.flatten_cons, List.forall_mem_append] at hkept
    rw [List.map_cons, List.flatten_cons, ih hkept.2 hmem.2]
    rcases stroke_cases hmem.1 with rfl | ⟨c, rfl⟩
    · exact absurd rfl (hkept.1 '\r' List.mem_cons_self).1
    · obtain ⟨hr, hf, hnul⟩ := hkept.1 c List.mem_cons_self
      rw [strokeChar_singleton hr hf hnul, List.singleton_append]

/-- The word is a hash token and writes a hex color. -/
def IsColor (word : Word) : Prop :=
  (∃ name, word.lexeme.kind = .hash name) ∧ IsHex word.text

/-- The word is an identifier that means `important`, in any case of its
letters. -/
def IsImportant (word : Word) : Prop :=
  ∃ name, word.lexeme.kind = .identifier name ∧ name.map Char.toLower =
    "important".toList

/-- Whatever writes a hex color is a hash token. -/
theorem isColor_of_text {source : Text} {word : Word} (h : word ∈ words source)
    (hhex : IsHex word.text) : word.IsColor := by
  have hlexeme : word.lexeme.text = word.text := by
    refine lexeme_text_eq h fun c hc => ?_
    have hchar := hhex.chars c hc
    obtain ⟨digits, htext, hdigits, _⟩ := hhex
    rw [htext, List.mem_cons] at hc
    rcases hc with rfl | hc
    · decide
    · have hdigit := hdigits c hc
      refine ⟨?_, ?_, ?_⟩ <;> rintro rfl <;> cases hdigit
  refine ⟨?_, hhex⟩
  obtain ⟨digits, htext, hdigits, hlength⟩ := hhex
  cases digits with
  | nil => exact absurd hlength (by decide)
  | cons d digits =>
    exact Lexeme.kind_of_hash (lexeme_mem_of_mem_words h) (hlexeme.trans htext)
      (hdigits d List.mem_cons_self)

end Word

/-- Letters in either case count as the letters. -/
theorem letters_of_map_toLower {letters word : Text}
    (h : word.map Char.toLower = letters) :
    word.length = letters.length ∧ ∀ pair ∈ letters.zip word,
      isLetter pair.1 pair.2 = true := by
  subst h
  refine ⟨(List.length_map _).symm, ?_⟩
  induction word with
  | nil => exact nofun
  | cons c word ih =>
    rw [List.map_cons, List.zip_cons_cons, List.forall_mem_cons]
    refine ⟨?_, ih⟩
    rw [isLetter, decide_eq_true rfl, Bool.true_or]

/-- What counts as the letters are these letters in either case, dotted capital
and dotless small I apart. -/
theorem map_toLower_of_letters {letters word : Text}
    (hlength : word.length = letters.length)
    (hletters : ∀ pair ∈ letters.zip word, isLetter pair.1 pair.2 = true)
    (hother : ∀ c ∈ word, c ≠ '\u0130' ∧ c ≠ '\u0131') :
    word.map Char.toLower = letters := by
  induction word generalizing letters with
  | nil => exact (List.eq_nil_of_length_eq_zero hlength.symm).symm
  | cons c word ih =>
    cases letters with
    | nil => cases hlength
    | cons letter letters =>
      rw [List.zip_cons_cons, List.forall_mem_cons] at hletters
      rw [List.forall_mem_cons] at hother
      rw [List.map_cons, ih (Nat.succ.inj hlength) hletters.2 hother.2]
      have hc := hletters.1
      simp only [isLetter, hother.1.1, hother.1.2, decide_false, Bool.or_false,
        Bool.and_false, decide_eq_true_eq] at hc
      rw [hc]

/-- The letters of the mark of importance are in ASCII if they are so when they
are written small. -/
theorem ascii_of_toLower {word : Text}
    (h : word.map Char.toLower = "important".toList) :
    ∀ c ∈ word, c.toNat < 128 := by
  intro c hc
  have hlower : c.toLower ∈ "important".toList := by
    rw [← h]
    exact List.mem_map_of_mem hc
  have hletter : isLetter c.toLower c = true := by
    rw [isLetter, decide_eq_true rfl, Bool.true_or]
  rcases letter_cases hlower hletter with hascii | rfl | rfl
  · exact hascii
  · exact absurd hlower (by decide)
  · exact absurd hlower (by decide)

namespace Word

/-- Letters of the mark of importance mean it. -/
theorem isImportant_of_text {source : Text} {word : Word}
    (h : word ∈ words source) (hletters : Css.IsImportant word.text)
    (hother : ∀ c ∈ word.text, c ≠ '\u0130' ∧ c ≠ '\u0131') :
    word.IsImportant := by
  have hlower := map_toLower_of_letters hletters.1 hletters.2 hother
  have hascii := ascii_of_toLower hlower
  have hlexeme : word.lexeme.text = word.text := by
    refine lexeme_text_eq h fun c hc => ?_
    have hchar := hletters.chars c hc
    obtain ⟨letter, hletter, hc⟩ := hletters.exists_letter c hc
    have hblank := (letter_other hletter hc).1
    refine ⟨?_, ?_, ?_⟩ <;> rintro rfl
    · cases hblank
    · cases hblank
    · exact absurd hchar (by decide)
  refine ⟨word.text, ?_, hlower⟩
  rw [← hlexeme] at hletters hascii ⊢
  exact Lexeme.kind_of_letters (lexeme_mem_of_mem_words h) hletters hascii

/-- A word that means `important` and has no backslash is made of its
letters. -/
theorem IsImportant.letters {source : Text} {word : Word}
    (h : word ∈ words source) (hword : word.IsImportant)
    (hslash : '\\' ∉ word.text) :
    Css.IsImportant word.text ∧ ∀ c ∈ word.text, c.toNat < 128 := by
  obtain ⟨name, hkind, hlower⟩ := hword
  have hplain : '\\' ∉ word.lexeme.text := fun hmem =>
    hslash (mem_text_of_lexeme h hmem (by decide) (by decide))
  have hname :=
    Lexeme.name_of_identifier (lexeme_mem_of_mem_words h) hkind hplain
  have hletters : Css.IsImportant name := letters_of_map_toLower hlower
  have htext : word.text = name := by
    rw [← hname]
    refine text_eq_of_lexeme h fun c hc => ?_
    rw [hname] at hc
    obtain ⟨letter, hletter, hc⟩ := hletters.exists_letter c hc
    constructor <;> rintro rfl
    · cases (letter_other hletter hc).1
    · rcases letter_cases hletter hc with h | h | h <;>
        exact absurd h (by decide)
  rw [htext]
  exact ⟨hletters, ascii_of_toLower hlower⟩

end Word

end OklchGate.Css
