import OklchGate.Css.Lexeme
import OklchGate.Proofs.Pieces

/-!
# The lexemes of a style sheet

`Lexeme.first` is the lexeme at the start of a text, and every lexeme of a
style sheet is the first one of what is left of it.

* `Lexeme.read_pos` and `Lexeme.flatten_ofText`: lexemes take at least one
  character, and their texts make up the style sheet.
* `Lexeme.read_closer`, `Lexeme.read_openBrace`, `Lexeme.read_semicolon` and
  `Lexeme.read_colon`: a bracket, a semicolon or a colon is a lexeme by itself
  wherever a lexeme starts.
* `Lexeme.text_of_closing` and `Lexeme.text_of_opening`: conversely, what is
  read as a bracket has the text of that bracket, a function apart.
-/

namespace OklchGate.Css

/-! ## Names -/

/-- A name takes at least one character where an identifier starts. -/
theorem readName_pos {text : Text} (h : startsIdentifier text = true) :
    1 ≤ (readName text).2 := by
  cases text with
  | nil => simp [startsIdentifier] at h
  | cons c rest =>
    rw [readName]
    by_cases hc : isNameChar c = true
    · exact Pieces.run_snd_pos (if_pos hc)
    · have hstart : isNameStart c = false := by
        cases hs : isNameStart c with
        | false => rfl
        | true => simp [isNameChar, hs] at hc
      have hdash : c ≠ '-' := by
        rintro rfl
        simp [isNameChar] at hc
      have hescape : startsEscape (c :: rest) = true := by
        simpa [startsIdentifier, hstart, hdash] using h
      exact Pieces.run_snd_pos (by rw [if_neg hc, if_pos hescape])

namespace Lexeme

/-! ## Reading one lexeme -/

/-- The kind of a URL by its end. -/
def urlKind : Ending → Kind
  | .closed => .url true
  | .atEnd => .url false
  | .broken => .badUrl

theorem readIdentifierLike_plain {text : Text}
    (h : ∀ r, text.drop (readName text).2 ≠ '(' :: r) :
    readIdentifierLike text =
      (.identifier (readName text).1, (readName text).2) := by
  rw [readIdentifierLike]
  dsimp only
  split
  · rename_i r hr
    exact absurd hr (h r)
  · rfl

theorem readIdentifierLike_paren {text r : Text}
    (h : text.drop (readName text).2 = '(' :: r) :
    readIdentifierLike text =
      if isUrlName (readName text).1 && !startsQuoted r then
        (urlKind (readUrl r).2, (readName text).2 + 1 + (readUrl r).1)
      else (.opening .round, (readName text).2 + 1) := by
  rw [readIdentifierLike]
  simp only [h]
  rcases readUrl r with ⟨n, _ | _ | _⟩ <;> rfl

/-- What is read like an identifier is a name, a function or a URL. -/
theorem readIdentifierLike_cases (text : Text) :
    readIdentifierLike text =
      (.identifier (readName text).1, (readName text).2) ∨
      readIdentifierLike text = (.opening .round, (readName text).2 + 1) ∨
      ∃ ending n, readIdentifierLike text =
        (urlKind ending, (readName text).2 + 1 + n) := by
  by_cases hparen : ∃ r, text.drop (readName text).2 = '(' :: r
  · obtain ⟨r, hr⟩ := hparen
    right
    rw [readIdentifierLike_paren hr]
    split
    · exact Or.inr ⟨_, _, rfl⟩
    · exact Or.inl rfl
  · exact Or.inl (readIdentifierLike_plain fun r hr => hparen ⟨r, hr⟩)

/-- What is read like an identifier takes at least one character. -/
theorem readIdentifierLike_pos {text : Text}
    (h : startsIdentifier text = true) :
    1 ≤ (readIdentifierLike text).2 := by
  have hname := readName_pos h
  rcases readIdentifierLike_cases text with he | he | ⟨ending, n, he⟩ <;>
    rw [he] <;> dsimp only <;> omega

/-- A function is the only bracket that is read like an identifier. -/
theorem readIdentifierLike_kind {text : Text} {b : Bracket} :
    ((readIdentifierLike text).1 = .opening b → b = .round) ∧
      (readIdentifierLike text).1 ≠ .closing b := by
  rcases readIdentifierLike_cases text with he | he | ⟨ending, n, he⟩
  · rw [he]
    simp
  · rw [he]
    constructor
    · intro h
      rw [Kind.opening.injEq] at h
      exact h.symm
    · simp
  · rw [he]
    cases ending <;> simp [urlKind]

/-- A number takes at least one character. -/
theorem readNumeric?_pos {text : Text} {kind : Kind} {n : Nat}
    (h : readNumeric? text = some (kind, n)) : kind = .numeric ∧ 1 ≤ n := by
  rw [readNumeric?, Option.map_eq_some_iff] at h
  obtain ⟨length, hlength, hn⟩ := h
  rw [Prod.mk.injEq] at hn
  have hpos : 1 ≤ length := by
    unfold numberLength at hlength
    dsimp only at hlength
    split at hlength
    · exact absurd hlength nofun
    · rw [Option.some.injEq] at hlength
      omega
  exact ⟨hn.1.symm, by omega⟩

theorem opener_of_ofOpener? {c : Char} {b : Bracket}
    (h : Bracket.ofOpener? c = some b) :
    c = b.opener := by
  have hb := List.find?_some h
  exact (of_decide_eq_true hb).symm

theorem closer_of_ofCloser? {c : Char} {b : Bracket}
    (h : Bracket.ofCloser? c = some b) :
    c = b.closer := by
  have hb := List.find?_some h
  exact (of_decide_eq_true hb).symm

/-- The kind of a string by its end. -/
def stringKind : Ending → Kind
  | .closed => .string true
  | .atEnd => .string false
  | .broken => .badString

/-- A Unicode range starts here. -/
def startsRange (c : Char) (rest : Text) : Bool :=
  (c = 'u' || c = 'U') && rest.head? = some '+' &&
    (rest.drop 1).head?.any (fun d => isHexDigit d || d = '?')

/-- After its mark, a hash goes on here. -/
def startsHash (rest : Text) : Bool :=
  rest.head?.any isNameChar || startsEscape rest

/-- What is read at a bracket, a quote, the mark of a comment or another
character that is a delimiter. -/
def readMark (c : Char) (rest : Text) : Kind × Nat :=
  match Bracket.ofOpener? c, Bracket.ofCloser? c with
  | some bracket, _ => (.opening bracket, 1)
  | none, some bracket => (.closing bracket, 1)
  | none, none =>
    if c = '"' || c = '\'' then
      (stringKind (readString c rest).2, 1 + (readString c rest).1)
    else if ['/', '*'].isPrefixOf (c :: rest) then
      (.comment (readComment (rest.drop 1)).2,
        2 + (readComment (rest.drop 1)).1)
    else (.delimiter, delimiterLength (c :: rest))

/-- What is read where no space, range, arrow, identifier or number starts. -/
def readSign (c : Char) (rest : Text) : Kind × Nat :=
  if c = '@' && startsIdentifier rest then
    (.atKeyword (readName rest).1, 1 + (readName rest).2)
  else if c = '#' && startsHash rest then
    (.hash (readName rest).1, 1 + (readName rest).2)
  else readMark c rest

/-- The tests that are made at the start of a lexeme, in their order. -/
theorem read_eq (c : Char) (rest : Text) :
    read c rest =
      if isSpace c then (.space, spaceLength (c :: rest))
      else if startsRange c rest then
        (.unicodeRange, 2 + unicodeRangeLength (rest.drop 1))
      else if ['-', '-', '>'].isPrefixOf (c :: rest) then (.delimiter, 3)
      else if startsIdentifier (c :: rest) then readIdentifierLike (c :: rest)
      else (readNumeric? (c :: rest)).getD (readSign c rest) := by
  unfold read readSign readMark
  dsimp only
  cases readNumeric? (c :: rest) with
  | some answer => rfl
  | none => rcases readString c rest with ⟨n, _ | _ | _⟩ <;> rfl

/-- The cases of `read`, one for each kind of lexeme. -/
theorem read_cases {motive : Kind × Nat → Prop} (c : Char) (rest : Text)
    (space : isSpace c = true → motive (.space, spaceLength (c :: rest)))
    (range : c = 'u' ∨ c = 'U' → rest.head? = some '+' →
      motive (.unicodeRange, 2 + unicodeRangeLength (rest.drop 1)))
    (arrow : ['-', '-', '>'].isPrefixOf (c :: rest) = true →
      motive (.delimiter, 3))
    (word : startsIdentifier (c :: rest) = true →
      motive (readIdentifierLike (c :: rest)))
    (number : ∀ n, readNumeric? (c :: rest) = some (.numeric, n) →
      motive (.numeric, n))
    (atKeyword : c = '@' →
      motive (.atKeyword (readName rest).1, 1 + (readName rest).2))
    (hash : c = '#' → motive (.hash (readName rest).1, 1 + (readName rest).2))
    (opening : ∀ b, c = b.opener → motive (.opening b, 1))
    (closing : ∀ b, c = b.closer → motive (.closing b, 1))
    (string : c = '"' ∨ c = '\'' → ∀ ending n,
      motive (stringKind ending, 1 + n))
    (comment : ['/', '*'].isPrefixOf (c :: rest) = true →
      motive (.comment (readComment (rest.drop 1)).2,
      2 + (readComment (rest.drop 1)).1))
    (delimiter : motive (.delimiter, delimiterLength (c :: rest))) :
    motive (read c rest) := by
  have hmark : motive (readMark c rest) := by
    unfold readMark
    split
    · next b hopener => exact opening b (opener_of_ofOpener? hopener)
    · next b _ hcloser => exact closing b (closer_of_ofCloser? hcloser)
    split
    · next hquote => exact string (by simpa using hquote) _ _
    split
    · next hslash => exact comment hslash
    · exact delimiter
  have hsign : motive (readSign c rest) := by
    unfold readSign
    split
    · next hat =>
      exact atKeyword (by simpa using (Bool.and_eq_true_iff.mp hat).1)
    split
    · next hhash =>
      exact hash (by simpa using (Bool.and_eq_true_iff.mp hhash).1)
    · exact hmark
  rw [read_eq]
  split
  · next hspace => exact space hspace
  split
  · next hrange =>
    simp only [startsRange, Bool.and_eq_true, Bool.or_eq_true,
      decide_eq_true_eq] at hrange
    exact range hrange.1.1 hrange.1.2
  split
  · next harrow => exact arrow harrow
  split
  · next hstart => exact word hstart
  cases hnumeric : readNumeric? (c :: rest) with
  | none => exact hsign
  | some answer =>
    obtain ⟨kind, n⟩ := answer
    obtain ⟨rfl, _⟩ := readNumeric?_pos hnumeric
    exact number n hnumeric

theorem delimiterLength_pos (text : Text) : 1 ≤ delimiterLength text := by
  unfold delimiterLength
  split
  · omega
  · split
    · omega
    · split <;> omega
    · omega

/-- A lexeme takes at least one character. -/
theorem read_pos (c : Char) (rest : Text) : 1 ≤ (read c rest).2 := by
  apply read_cases (motive := fun answer => 1 ≤ answer.2)
  case space =>
    intro hspace
    simp [spaceLength, hspace]
  case word => exact readIdentifierLike_pos
  case number => exact fun n hnumeric => (readNumeric?_pos hnumeric).2
  case delimiter => exact delimiterLength_pos _
  all_goals
    intros
    dsimp only
    omega

/-! ## Brackets, semicolons and colons -/

/-- A character that is a lexeme by itself and that no other lexeme goes on
with unless it is escaped or inside a string, a URL or a comment. -/
def isStop (c : Char) : Bool :=
  c = '\x7b' || c = '\x7d' || c = '[' || c = ']' || c = ')' ||
    c = ';' || c = ':'

theorem isStop_closer (b : Bracket) : isStop b.closer = true := by
  cases b <;> rfl

/-- A number does not start with a stop. -/
theorem numberLength_stop {c : Char} (hc : isStop c = true) (rest : Text) :
    numberLength (c :: rest) = none := by
  simp only [isStop, Bool.or_eq_true, decide_eq_true_eq] at hc
  have hsign : signLength (c :: rest) = 0 := by
    rcases hc with (((((rfl | rfl) | rfl) | rfl) | rfl) | rfl) | rfl <;> rfl
  have hdigits : digitLength (c :: rest) = 0 := by
    rcases hc with (((((rfl | rfl) | rfl) | rfl) | rfl) | rfl) | rfl <;> rfl
  have hfraction : fractionLength (c :: rest) = 0 := by
    rcases hc with (((((rfl | rfl) | rfl) | rfl) | rfl) | rfl) | rfl <;> rfl
  rw [numberLength, hsign, List.drop_zero, hdigits, List.drop_zero, hfraction]
  rfl

/-- Most characters are delimiters by themselves. -/
theorem delimiterLength_single {c : Char} (hopen : c ≠ '<') (hbar : c ≠ '|')
    (hmarks : c ∉ ['~', '|', '^', '$', '*']) (rest : Text) :
    delimiterLength (c :: rest) = 1 := by
  have hopen : ['<', '!', '-', '-'].isPrefixOf (c :: rest) = false := by
    simp [List.isPrefixOf, hopen.symm]
  unfold delimiterLength
  rw [hopen, if_neg Bool.false_ne_true]
  split
  · rename_i h
    exact absurd (List.cons.inj h).1 hbar
  · rename_i h
    rw [← (List.cons.inj h).1, if_neg hmarks]
  · rfl

/-- What is read at a bracket, a semicolon or a colon. -/
theorem read_stop {c : Char} (hc : isStop c = true) (rest : Text) :
    read c rest =
      match Bracket.ofOpener? c, Bracket.ofCloser? c with
      | some bracket, _ => (.opening bracket, 1)
      | none, some bracket => (.closing bracket, 1)
      | none, none => (.delimiter, 1) := by
  have hnumber : readNumeric? (c :: rest) = none := by
    rw [readNumeric?, numberLength_stop hc]
    rfl
  have hlength : c = ';' ∨ c = ':' → delimiterLength (c :: rest) = 1 := by
    rintro (rfl | rfl) <;> exact delimiterLength_single (by decide) (by decide)
      (by decide) rest
  simp only [isStop, Bool.or_eq_true, decide_eq_true_eq] at hc
  have hspace : isSpace c = false := by
    rcases hc with (((((rfl | rfl) | rfl) | rfl) | rfl) | rfl) | rfl <;> rfl
  have hu : (decide (c = 'u') || decide (c = 'U')) = false := by
    rcases hc with (((((rfl | rfl) | rfl) | rfl) | rfl) | rfl) | rfl <;> rfl
  have hdash : ['-', '-', '>'].isPrefixOf (c :: rest) = false := by
    rcases hc with (((((rfl | rfl) | rfl) | rfl) | rfl) | rfl) | rfl <;> rfl
  have hstart : startsIdentifier (c :: rest) = false := by
    rcases hc with (((((rfl | rfl) | rfl) | rfl) | rfl) | rfl) | rfl <;> rfl
  have hmarks : c ≠ '@' ∧ c ≠ '#' ∧ c ≠ '"' ∧ c ≠ '\'' ∧ c ≠ '/' := by
    rcases hc with (((((rfl | rfl) | rfl) | rfl) | rfl) | rfl) | rfl <;> decide
  have hslash : ['/', '*'].isPrefixOf (c :: rest) = false := by
    simp [List.isPrefixOf, hmarks.2.2.2.2.symm]
  rw [read]
  simp only [hspace, hu, hdash, hstart, hnumber, hslash, hmarks.1, hmarks.2.1,
    hmarks.2.2.1, hmarks.2.2.2.1, Bool.false_and, Bool.false_or, decide_false,
    if_false, Bool.false_eq_true]
  rcases hc with (((((rfl | rfl) | rfl) | rfl) | rfl) | rfl) | rfl
  iterate 5 rfl
  · exact congrArg (Prod.mk Kind.delimiter) (hlength (Or.inl rfl))
  · exact congrArg (Prod.mk Kind.delimiter) (hlength (Or.inr rfl))

/-- A closing bracket is a lexeme by itself. -/
theorem read_closer (b : Bracket) (rest : Text) :
    read b.closer rest = (.closing b, 1) := by
  rw [read_stop (isStop_closer b)]
  cases b <;> rfl

/-- An opening brace is a lexeme by itself. -/
theorem read_openBrace (rest : Text) :
    read '\x7b' rest = (.opening .curly, 1) :=
  read_stop rfl rest

/-- A semicolon is a lexeme by itself. -/
theorem read_semicolon (rest : Text) : read ';' rest = (.delimiter, 1) :=
  read_stop rfl rest

/-- A colon is a lexeme by itself. -/
theorem read_colon (rest : Text) : read ':' rest = (.delimiter, 1) :=
  read_stop rfl rest

/-- What is read as a bracket is that bracket, a function apart. -/
theorem read_bracket (c : Char) (rest : Text) :
    (∃ b, read c rest = (.opening b, 1) ∧ c = b.opener) ∨
      (∃ b, read c rest = (.closing b, 1) ∧ c = b.closer) ∨
      ∀ b, ((read c rest).1 = .opening b → b = .round) ∧
        (read c rest).1 ≠ .closing b := by
  apply read_cases (motive := fun answer =>
    (∃ b, answer = (.opening b, 1) ∧ c = b.opener) ∨
      (∃ b, answer = (.closing b, 1) ∧ c = b.closer) ∨
      ∀ b, (answer.1 = .opening b → b = .round) ∧ answer.1 ≠ .closing b)
  case opening => exact fun b hc => Or.inl ⟨b, rfl, hc⟩
  case closing => exact fun b hc => Or.inr (Or.inl ⟨b, rfl, hc⟩)
  case word => exact fun _ => Or.inr (Or.inr fun b => readIdentifierLike_kind)
  case string =>
    intro _ ending _
    exact Or.inr (Or.inr fun b => by cases ending <;> exact ⟨nofun, nofun⟩)
  all_goals
    intros
    exact Or.inr (Or.inr fun b => ⟨nofun, nofun⟩)

/-! ## The lexemes of a text -/

/-- The lexeme at the start of a text. -/
def first (c : Char) (rest : Text) : Lexeme :=
  ⟨(read c rest).1, (c :: rest).take (read c rest).2⟩

/-- The text of the first lexeme starts with the first character. -/
theorem text_first (c : Char) (rest : Text) :
    (first c rest).text = c :: rest.take ((read c rest).2 - 1) := by
  have hpos := read_pos c rest
  obtain ⟨n, hn⟩ : ∃ n, (read c rest).2 = n + 1 :=
    ⟨_, (Nat.sub_add_cancel hpos).symm⟩
  simp [first, hn]

theorem ofText_nil : ofText [] = [] := rfl

/-- The lexemes of a text: the first one, and then those of the rest. -/
theorem ofText_cons (c : Char) (rest : Text) :
    ofText (c :: rest) =
      first c rest :: ofText (rest.drop ((read c rest).2 - 1)) := by
  rw [ofText, Pieces.cut_cons]
  rfl

/-- The texts of the lexemes make up the text. -/
theorem flatten_ofText (text : Text) :
    ((ofText text).map Lexeme.text).flatten = text := by
  cases text with
  | nil => rfl
  | cons c rest =>
    have ih := flatten_ofText (rest.drop ((read c rest).2 - 1))
    rw [ofText_cons, List.map_cons, List.flatten_cons, ih, text_first,
      List.cons_append, List.take_append_drop]
termination_by text.length
decreasing_by simp only [List.length_drop, List.length_cons]; omega

/-- Every lexeme of a text is the first one of some text. -/
theorem exists_first_of_mem {lexeme : Lexeme} :
    ∀ {text : Text}, lexeme ∈ ofText text → ∃ c rest, lexeme = first c rest
  | [], h => by simp [ofText_nil] at h
  | c :: rest, h => by
    rw [ofText_cons, List.mem_cons] at h
    rcases h with rfl | h
    · exact ⟨c, rest, rfl⟩
    · exact exists_first_of_mem h
termination_by text => text.length
decreasing_by simp only [List.length_drop, List.length_cons]; omega

/-- A lexeme has a text. -/
theorem text_ne_nil_of_mem {lexeme : Lexeme} {text : Text}
    (h : lexeme ∈ ofText text) :
    lexeme.text ≠ [] := by
  obtain ⟨c, rest, rfl⟩ := exists_first_of_mem h
  rw [text_first]
  exact List.cons_ne_nil _ _

/-- A lexeme that closes a bracket has the text of that bracket. -/
theorem text_of_closing {lexeme : Lexeme} {text : Text} {b : Bracket}
    (h : lexeme ∈ ofText text) (hkind : lexeme.kind = .closing b) :
    lexeme.text = [b.closer] := by
  obtain ⟨c, rest, rfl⟩ := exists_first_of_mem h
  rw [first] at hkind
  rcases read_bracket c rest with ⟨b', hread, hc⟩ | ⟨b', hread, hc⟩ | hread
  · rw [hread] at hkind
    exact absurd hkind nofun
  · rw [hread] at hkind
    cases hkind
    rw [first, hread, hc]
    rfl
  · exact absurd hkind (hread b).2

/-- A lexeme that opens a bracket other than a round one has the text of that
bracket. -/
theorem text_of_opening {lexeme : Lexeme} {text : Text} {b : Bracket}
    (h : lexeme ∈ ofText text) (hkind : lexeme.kind = .opening b)
    (hb : b ≠ .round) :
    lexeme.text = [b.opener] := by
  obtain ⟨c, rest, rfl⟩ := exists_first_of_mem h
  rw [first] at hkind
  rcases read_bracket c rest with ⟨b', hread, hc⟩ | ⟨b', hread, hc⟩ | hread
  · rw [hread] at hkind
    cases hkind
    rw [first, hread, hc]
    rfl
  · rw [hread] at hkind
    exact absurd hkind nofun
  · exact absurd ((hread b).1 hkind) hb

/-- A lexeme whose text starts with a closing bracket closes that bracket. -/
theorem kind_of_closer {lexeme : Lexeme} {text : Text} {b : Bracket}
    {rest : Text} (h : lexeme ∈ ofText text)
    (htext : lexeme.text = b.closer :: rest) :
    lexeme.kind = .closing b := by
  obtain ⟨c, tail, rfl⟩ := exists_first_of_mem h
  rw [text_first] at htext
  rw [first, (List.cons.inj htext).1, read_closer]

end Lexeme

end OklchGate.Css
