import OklchGate.Proofs.Css.Copying

/-!
# Loose characters

White space, an exclamation mark, a slash and a closing brace end most lexemes.
A lexeme that is neither white space nor a comment holds such a character only
behind a backslash, a quote, a round bracket or a `<`, unless it is that one
character.

There are three groups.

* `isLoose`, `isBar` and `Tight`.
* The characters of numbers, Unicode ranges and names.
* `Lexeme.tight_of_mem` for lexemes, and `Word.tight_of_mem` for the source text
  of a word.
-/

namespace OklchGate.Css

/-! ## Loose characters and bars -/

/-- White space, an exclamation mark, a slash or a closing brace. -/
def isLoose (c : Char) : Bool :=
  [' ', '\t', '\n', '\r', '\x0c', '!', '/', '\x7d'].contains c

/-- A character behind which a lexeme may hold loose characters. -/
def isBar (c : Char) : Bool := ['\\', '(', '"', '\'', '<'].contains c

/-- No loose character stands before the first bar. -/
def Tight (text : Text) : Prop :=
  ∀ c ∈ text.takeWhile (fun c => !isBar c), isLoose c = false

theorem loose_cases {c : Char} (h : isLoose c = true) :
    c = ' ' ∨ c = '\t' ∨ c = '\n' ∨ c = '\r' ∨ c = '\x0c' ∨ c = '!' ∨ c = '/' ∨
      c = '\x7d' := by
  simpa [isLoose] using h

/-- A class that holds none of the loose characters. -/
theorem isLoose_eq_false {p : Char → Bool} {c : Char} (hc : p c = true)
    (hp : [' ', '\t', '\n', '\r', '\x0c', '!', '/',
      '\x7d'].all (fun d => !p d) = true) :
    isLoose c = false := by
  refine Bool.eq_false_iff.mpr fun hloose => ?_
  have hmem : c ∈ [' ', '\t', '\n', '\r', '\x0c', '!', '/', '\x7d'] := by
    simpa [isLoose] using hloose
  have hnot := List.all_eq_true.mp hp c hmem
  rw [hc] at hnot
  cases hnot

theorem tight_nil : Tight [] := List.forall_mem_nil _

theorem tight_of_class {p : Char → Bool} {text : Text}
    (h : ∀ c ∈ text, p c = true)
    (hp : [' ', '\t', '\n', '\r', '\x0c', '!', '/',
      '\x7d'].all (fun d => !p d) = true) :
    Tight text :=
  fun c hc => isLoose_eq_false (h c (List.takeWhile_subset _ hc)) hp

theorem tight_bar {c : Char} (h : isBar c = true) (rest : Text) :
    Tight (c :: rest) := by
  rw [Tight, List.takeWhile_cons_of_neg (by simp [h])]
  exact nofun

theorem tight_cons {c : Char} (h : isLoose c = false) {rest : Text}
    (hrest : Tight rest) :
    Tight (c :: rest) := by
  cases hc : isBar c with
  | true => exact tight_bar hc rest
  | false =>
    rw [Tight, List.takeWhile_cons_of_pos (by simp [hc]), List.forall_mem_cons]
    exact ⟨h, hrest⟩

theorem Tight.cons_inv {c : Char} {rest : Text} (h : Tight (c :: rest)) :
    isBar c = true ∨ isLoose c = false ∧ Tight rest := by
  cases hc : isBar c with
  | true => exact Or.inl rfl
  | false =>
    rw [Tight, List.takeWhile_cons_of_pos (by simp [hc]), List.forall_mem_cons]
      at h
    exact Or.inr h

/-- The first loose character is not before the first bar. -/
theorem Tight.first {front rest : Text} {c : Char}
    (h : Tight (front ++ c :: rest)) (hfront : ∀ d ∈ front, isBar d = false) :
    isBar c = true ∨ isLoose c = false := by
  induction front with
  | nil => exact h.cons_inv.imp_right And.left
  | cons d front ih =>
    rw [List.forall_mem_cons] at hfront
    rcases h.cons_inv with hbar | ⟨_, hrest⟩
    · rw [hfront.1] at hbar
      cases hbar
    · exact ih hrest hfront.2

/-- No character of a tight text without bars is loose. -/
theorem Tight.isLoose {text : Text} (h : Tight text)
    (hbar : ∀ c ∈ text, isBar c = false) :
    ∀ c ∈ text, isLoose c = false := by
  intro c hc
  obtain ⟨front, back, rfl⟩ := List.append_of_mem hc
  rw [List.forall_mem_append] at hbar
  refine (h.first hbar.1).resolve_left fun hc => ?_
  rw [hbar.2 c List.mem_cons_self] at hc
  cases hc

theorem Tight.append {a b : Text} (ha : Tight a) (hb : Tight b) :
    Tight (a ++ b) := by
  induction a with
  | nil => exact hb
  | cons c rest ih =>
    rcases ha.cons_inv with hbar | ⟨hc, hrest⟩
    · exact tight_bar hbar _
    · exact tight_cons hc (ih hrest)

theorem Tight.take {text : Text} (h : Tight text) (n : Nat) :
    Tight (text.take n) := by
  induction text generalizing n with
  | nil => rwa [List.take_nil]
  | cons c rest ih =>
    cases n with
    | zero => exact tight_nil
    | succ n =>
      rw [List.take_succ_cons]
      rcases h.cons_inv with hbar | ⟨hc, hrest⟩
      · exact tight_bar hbar _
      · exact tight_cons hc (ih hrest n)

/-! ## Numbers, ranges and names -/

/-- The characters of numbers. -/
def isNumberChar (c : Char) : Bool :=
  isDigit c || ['+', '-', '.', 'e', 'E'].contains c

theorem chars_sign (text : Text) :
    ∀ c ∈ text.take (signLength text), isNumberChar c = true := by
  cases text with
  | nil => simp
  | cons c rest =>
    rw [signLength]
    split
    · rename_i hc
      rw [List.take_succ_cons, List.take_zero, List.forall_mem_singleton]
      rcases hc with rfl | rfl <;> rfl
    · simp

theorem chars_digits (text : Text) :
    ∀ c ∈ text.take (digitLength text), isNumberChar c = true := by
  have htake : text.take (digitLength text) = text.takeWhile isDigit :=
    (List.prefix_iff_eq_take.mp (List.takeWhile_prefix _)).symm
  rw [htake]
  intro c hc
  rw [isNumberChar, List.all_eq_true.mp List.all_takeWhile c hc, Bool.true_or]

theorem chars_fraction (text : Text) :
    ∀ c ∈ text.take (fractionLength text), isNumberChar c = true := by
  rw [fractionLength.eq_def]
  split
  · dsimp only
    split
    · rw [Nat.add_comm, List.take_succ_cons, List.forall_mem_cons]
      exact ⟨rfl, chars_digits _⟩
    · simp
  · simp

theorem chars_exponent (text : Text) :
    ∀ c ∈ text.take (exponentLength text), isNumberChar c = true := by
  cases text with
  | nil => simp
  | cons c rest =>
    rw [exponentLength]
    split
    · rename_i hc
      rw [Nat.add_assoc, Nat.add_comm, List.take_succ_cons,
        List.forall_mem_cons, List.take_add, List.forall_mem_append]
      refine ⟨?_, chars_sign rest, chars_digits _⟩
      rcases hc.1 with rfl | rfl <;> rfl
    · simp

/-- A number is made of the characters of numbers. -/
theorem chars_number {text : Text} {n : Nat} (h : numberLength text = some n) :
    ∀ c ∈ text.take n, isNumberChar c = true := by
  rw [numberLength] at h
  split at h
  · cases h
  · rw [← Option.some.inj h, List.take_add, List.take_add, List.take_add,
      List.forall_mem_append, List.forall_mem_append, List.forall_mem_append]
    exact ⟨⟨⟨chars_sign text, chars_digits _⟩, chars_fraction _⟩,
      chars_exponent _⟩

/-- What is taken for the characters of a class at the start of a text. -/
theorem chars_take {p : Char → Bool} (n : Nat) (text : Text) :
    ∀ c ∈ text.take ((text.take n).takeWhile p).length, p c = true := by
  have hprefix : (text.take n).takeWhile p <+: text :=
    (List.takeWhile_prefix p).trans (List.take_prefix n text)
  rw [← List.prefix_iff_eq_take.mp hprefix]
  exact fun c hc => List.all_eq_true.mp List.all_takeWhile c hc

/-- A character of the bounds of a Unicode range. -/
def isRangeChar (c : Char) : Bool := isHexDigit c || c = '?' || c = '-'

theorem chars_range (text : Text) :
    ∀ c ∈ text.take (unicodeRangeLength text), isRangeChar c = true := by
  have hdigits : ∀ text : Text,
    ∀ c ∈ text.take ((text.take 6).takeWhile isHexDigit).length,
      isRangeChar c = true := by
    intro text c hc
    rw [isRangeChar, chars_take 6 text c hc, Bool.true_or, Bool.true_or]
  rw [unicodeRangeLength]
  dsimp only
  split
  · rw [List.take_add, List.forall_mem_append]
    refine ⟨hdigits text, fun c hc => ?_⟩
    have hmark := chars_take _ _ c hc
    rw [isRangeChar, hmark, Bool.or_true, Bool.true_or]
  · split
    · rename_i rest hrest
      split
      · rw [Nat.add_assoc, List.take_add, List.forall_mem_append, hrest,
          Nat.add_comm 1, List.take_succ_cons, List.forall_mem_cons]
        exact ⟨hdigits text, rfl, hdigits rest⟩
      · exact hdigits text
    · exact hdigits text

/-- A name holds characters of names, and others behind a backslash. -/
theorem tight_readName (text : Text) : Tight (text.take (readName text).2) := by
  induction text with
  | nil => exact tight_nil
  | cons c rest ih =>
    rw [readName_eq, Pieces.run_snd_cons, nameStep]
    by_cases hname : isNameChar c = true
    · rw [if_pos hname]
      dsimp only
      rw [Nat.zero_min, Nat.add_zero, List.drop_zero, Nat.add_comm,
        List.take_succ_cons]
      exact tight_cons (isLoose_eq_false hname (by decide)) ih
    · rw [if_neg hname]
      by_cases hescape : startsEscape (c :: rest) = true
      · have hc : c = '\\' := by
          by_cases hc : c = '\\'
          · exact hc
          · rw [startsEscape_cons hc] at hescape
            cases hescape
        rw [if_pos hescape]
        dsimp only
        rw [Nat.add_assoc, Nat.add_comm, List.take_succ_cons, hc]
        exact tight_bar rfl _
      · rw [if_neg hescape]
        exact tight_nil

/-! ## Lexemes and words -/

namespace Lexeme

theorem tight_readIdentifierLike (text : Text) :
    Tight (text.take (readIdentifierLike text).2) := by
  by_cases h : ∃ rest, text.drop (readName text).2 = '(' :: rest
  · obtain ⟨rest, hrest⟩ := h
    refine Tight.take ?_ _
    rw [← List.take_append_drop (readName text).2 text, hrest]
    exact (tight_readName text).append (tight_bar rfl rest)
  · rw [readIdentifierLike_plain fun rest hrest => h ⟨rest, hrest⟩]
    exact tight_readName text

theorem tight_readNumeric? {text : Text} {answer : Kind × Nat}
    (h : readNumeric? text = some answer) : Tight (text.take answer.2) := by
  obtain ⟨n, hn, rfl⟩ := Option.map_eq_some_iff.mp h
  dsimp only
  rw [List.take_add]
  refine (tight_of_class (chars_number hn) (by decide)).append ?_
  split
  · exact tight_readName _
  · split
    · rename_i hpercent
      obtain ⟨rest, hrest⟩ := List.head?_eq_some_iff.mp hpercent
      rw [hrest]
      exact tight_cons (by decide) tight_nil
    · exact tight_nil

/-- A single character is loose or tight. -/
theorem tight_one (c : Char) (rest : Text) :
    (∃ d, isLoose d = true ∧ (c :: rest).take 1 = [d]) ∨
      Tight ((c :: rest).take 1) := by
  rw [List.take_succ_cons, List.take_zero]
  cases hc : isLoose c with
  | true => exact Or.inl ⟨c, hc, rfl⟩
  | false => exact Or.inr (tight_cons hc tight_nil)

/-- What is read as a delimiter is one loose character, or it is tight. -/
theorem tight_delimiterLength (c : Char) (rest : Text) :
    (∃ d, isLoose d = true ∧ (c :: rest).take (delimiterLength (c :: rest)) =
      [d]) ∨ Tight ((c :: rest).take (delimiterLength (c :: rest))) := by
  unfold delimiterLength
  split
  · rename_i hmark
    obtain ⟨more, hmore⟩ := List.isPrefixOf_iff_prefix.mp hmark
    right
    rw [← hmore]
    exact (tight_bar rfl _).take 4
  · split
    · rename_i more htext
      right
      rw [htext]
      exact tight_cons (by decide) (tight_cons (by decide) tight_nil)
    · rename_i d more htext
      rw [htext]
      split
      · rename_i hd
        right
        rw [List.take_succ_cons, List.take_succ_cons, List.take_zero]
        refine tight_of_class (p := fun c => ['~', '|', '^', '$', '*',
          '='].contains c) ?_
          (by decide)
        rw [List.forall_mem_cons, List.forall_mem_singleton]
        refine ⟨?_, rfl⟩
        simp only [List.mem_cons, List.not_mem_nil, or_false] at hd
        rcases hd with rfl | rfl | rfl | rfl | rfl <;> rfl
      · exact tight_one d _
    · exact tight_one c rest

/-- A lexeme that is neither white space nor a comment is one loose character,
or it is tight. -/
theorem tight_read (c : Char) (rest : Text) (hspace : (read c rest).1 ≠ .space)
    (hcomment : ∀ closed, (read c rest).1 ≠ .comment closed) :
    (∃ d, isLoose d = true ∧ (c :: rest).take (read c rest).2 = [d]) ∨
      Tight ((c :: rest).take (read c rest).2) := by
  revert hspace hcomment
  apply read_cases (motive := fun answer => answer.1 ≠ .space →
    (∀ closed, answer.1 ≠ .comment closed) →
    (∃ d, isLoose d = true ∧ (c :: rest).take answer.2 = [d]) ∨
      Tight ((c :: rest).take answer.2))
  case space => exact fun _ hspace _ => absurd rfl hspace
  case comment => exact fun _ _ hcomment => absurd rfl (hcomment _)
  case range =>
    intro hc hplus _ _
    obtain ⟨more, rfl⟩ := List.head?_eq_some_iff.mp hplus
    right
    rw [Nat.add_comm, List.take_succ_cons, List.take_succ_cons]
    refine tight_cons ?_
      (tight_cons (by decide) (tight_of_class (chars_range more) (by decide)))
    rcases hc with rfl | rfl <;> decide
  case arrow =>
    intro harrow _ _
    obtain ⟨more, hmore⟩ := List.isPrefixOf_iff_prefix.mp harrow
    right
    rw [← hmore]
    exact tight_cons (by decide)
      (tight_cons (by decide) (tight_cons (by decide) tight_nil))
  case word => exact fun _ _ _ => Or.inr (tight_readIdentifierLike _)
  case number =>
    exact fun n hnumeric _ _ => Or.inr (tight_readNumeric? hnumeric)
  case atKeyword | hash =>
    rintro rfl _ _
    right
    rw [Nat.add_comm, List.take_succ_cons]
    exact tight_cons (by decide) (tight_readName rest)
  case opening | closing => exact fun _ _ _ _ => tight_one c rest
  case string =>
    intro hquote ending n _ _
    right
    refine Tight.take ?_ _
    rcases hquote with rfl | rfl <;> exact tight_bar rfl rest
  case delimiter => exact fun _ _ => tight_delimiterLength c rest

/-- A lexeme that is neither white space nor a comment is one loose character,
or it is tight. -/
theorem tight_of_mem {lexeme : Lexeme} {text : Text} (h : lexeme ∈ ofText text)
    (hspace : lexeme.kind ≠ .space)
    (hcomment : ∀ closed, lexeme.kind ≠ .comment closed) :
    (∃ d, isLoose d = true ∧ lexeme.text = [d]) ∨ Tight lexeme.text := by
  obtain ⟨c, rest, rfl⟩ := exists_first_of_mem h
  exact tight_read c rest hspace hcomment

end Lexeme

/-- Strokes are tight if the characters that they give are. -/
theorem Tight.of_strokes {source : Text} {own : List Text}
    (hmem : ∀ stroke ∈ own, stroke ∈ strokes source)
    (h : Tight (own.map strokeChar)) :
    Tight own.flatten := by
  induction own with
  | nil => exact tight_nil
  | cons stroke rest ih =>
    rw [List.forall_mem_cons] at hmem
    rw [List.map_cons] at h
    have hbreak : strokeChar stroke ≠ '\n' := by
      intro hbreak
      rw [hbreak] at h
      rcases h.cons_inv with hbar | ⟨hloose, _⟩
      · exact absurd hbar (by decide)
      · exact absurd hloose (by decide)
    rcases stroke_cases hmem.1 with rfl | ⟨c, rfl⟩
    · exact absurd rfl hbreak
    · rw [List.flatten_cons, List.singleton_append]
      by_cases hnul : c = '\x00'
      · rw [hnul] at h ⊢
        rcases h.cons_inv with hbar | ⟨_, hrest⟩
        · exact absurd hbar (by decide)
        · exact tight_cons (by decide) (ih hmem.2 hrest)
      · have hkept : strokeChar [c] = c := by
          refine strokeChar_singleton ?_ ?_ hnul <;> rintro rfl <;>
            exact hbreak rfl
        rw [hkept] at h
        rcases h.cons_inv with hbar | ⟨hloose, hrest⟩
        · exact tight_bar hbar _
        · exact tight_cons hloose (ih hmem.2 hrest)

/-- No stroke gives a carriage return or a form feed. -/
theorem strokeChar_ne (stroke : Text) :
    strokeChar stroke ≠ '\r' ∧ strokeChar stroke ≠ '\x0c' := by
  rw [strokeChar.eq_def]
  split
  · split
    · decide
    · split
      · decide
      · rename_i hbreak _
        exact not_or.mp hbreak
  · decide

/-- The source text of a word that is neither white space nor a comment is one
loose character that is no white space, or it is tight. -/
theorem Word.tight_of_mem {source : Text} {word : Word}
    (h : word ∈ words source) (hspace : word.lexeme.kind ≠ .space)
    (hcomment : ∀ closed, word.lexeme.kind ≠ .comment closed) :
    (∃ c, c ∈ ['!', '/', '\x7d'] ∧ word.lexeme.text = [c] ∧ word.text = [c]) ∨
      Tight word.text := by
  have hlexeme := lexeme_mem_of_mem_words h
  obtain ⟨own, hmem, hplain, htext⟩ := Word.exists_strokes_of_mem h
  rcases Lexeme.tight_of_mem hlexeme hspace hcomment with
    ⟨d, hloose, hd⟩ | htight
  · have hne : isSpace d = false := by
      rcases head_of_kind hlexeme with hkind | hhead
      · exact absurd hkind hspace
      · exact hhead d (by rw [hd]; rfl)
    have hnot : d ≠ '\r' ∧ d ≠ '\x0c' := by
      rw [hd] at hplain
      obtain ⟨stroke, _, rfl⟩ := List.map_eq_singleton_iff.mp hplain
      exact strokeChar_ne stroke
    have hd' : d ∈ ['!', '/', '\x7d'] := by
      rcases loose_cases hloose with rfl | rfl | rfl | rfl | rfl | hd
      · cases hne
      · cases hne
      · cases hne
      · exact absurd rfl hnot.1
      · exact absurd rfl hnot.2
      · simpa using hd
    refine Or.inl ⟨d, hd', hd, Word.text_of_plain h hd ?_ ?_⟩ <;> rintro rfl <;>
      exact absurd hd' (by decide)
  · rw [← hplain] at htight
    rw [← htext]
    exact Or.inr (htight.of_strokes hmem)

end OklchGate.Css
