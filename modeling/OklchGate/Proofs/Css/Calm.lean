import OklchGate.Proofs.Css.Copying

/-!
# Calm texts

A calm text is made of blanks and of letters.  Whatever blanks it holds, nothing
in it opens or ends anything, so before a stop it is read as single leaves.

There are two groups.

* `isCalm` for characters of a normalized text, with
  `Lexeme.exists_lexemes_calm`: what is read of them is calm too.
* `Calm` for texts, with `Calm.exists_spells` and `Calm.exists_leads` for the
  trees of such a text.
-/

namespace OklchGate.Css

/-! ## Calm characters -/

/-- The blanks that are neither white space nor part of a name. -/
def separators : List Char := ['\x0b', '\x1c', '\x1d', '\x1e', '\x1f']

/-- A character of a normalized text that is white space, a separator, or the
start of a name and of nothing else. -/
def isCalm (c : Char) : Bool :=
  isSpace c || separators.contains c || (isNameStart c && c ≠ 'u' && c ≠ 'U')

namespace Lexeme

/-- A separator is a delimiter by itself. -/
theorem read_separator {c : Char} (hc : c ∈ separators) (rest : Text) :
    read c rest = (.delimiter, 1) := by
  simp only [separators, List.mem_cons, List.not_mem_nil, or_false] at hc
  rcases hc with rfl | rfl | rfl | rfl | rfl <;>
    exact congrArg (Prod.mk Kind.delimiter)
      (delimiterLength_single (by decide) (by decide) (by decide) rest)

/-- A stop is neither white space nor part of a name. -/
theorem stop_false {d : Char} (hd : isStop d = true) :
    isSpace d = false ∧ isNameChar d = false ∧ d ≠ '\\' ∧ d ≠ '(' := by
  simp only [isStop, Bool.or_eq_true, decide_eq_true_eq] at hd
  rcases hd with (((((rfl | rfl) | rfl) | rfl) | rfl) | rfl) | rfl <;>
    exact ⟨rfl, rfl, by decide, by decide⟩

/-- A stop is normalized to itself. -/
theorem normalizeBreaks_stop {d : Char} (hd : isStop d = true) (t : Text) :
    normalizeBreaks (d :: t) = d :: normalizeBreaks t ∧ d ≠ '\n' := by
  simp only [isStop, Bool.or_eq_true, decide_eq_true_eq] at hd
  rcases hd with (((((rfl | rfl) | rfl) | rfl) | rfl) | rfl) | rfl <;>
    exact ⟨rfl, by decide⟩

/-- A calm character is neither a backslash nor a parenthesis. -/
theorem calm_ne {c : Char} (hc : isCalm c = true) : c ≠ '\\' ∧ c ≠ '(' := by
  constructor <;> rintro rfl <;> exact absurd hc (by decide)

/-- A name in a calm text ends where its characters end. -/
theorem run_nameStep_calm {text : Text} (h : ∀ c ∈ text, isCalm c = true)
    {d : Char} (hd : isStop d = true) (t : Text) :
    Pieces.run nameStep (text ++ d :: t) =
      (text.takeWhile isNameChar, (text.takeWhile isNameChar).length) := by
  have hrefuse : ∀ {c : Char} (rest : Text), isNameChar c = false → c ≠ '\\' →
      Pieces.run nameStep (c :: rest) = ([], 0) := by
    intro c rest hc hslash
    have hstep : nameStep c rest = none := by
      rw [nameStep, hc, startsEscape_cons hslash]
      rfl
    rw [Pieces.run, Pieces.runAfter, hstep]
  induction text with
  | nil =>
    obtain ⟨_, hname, hslash, _⟩ := stop_false hd
    exact hrefuse t hname hslash
  | cons c rest ih =>
    rw [List.forall_mem_cons] at h
    rw [List.cons_append, List.takeWhile_cons]
    cases hc : isNameChar c with
    | false => exact hrefuse _ hc (calm_ne h.1).1
    | true =>
      have hstep : nameStep c (rest ++ d :: t) = some (c, 0) := by
        rw [nameStep, if_pos hc]
      have hrest := ih h.2
      rw [Pieces.run] at hrest
      rw [Pieces.run, Pieces.runAfter, hstep]
      dsimp only
      rw [hrest]
      rfl

/-- What is read at a calm character before a stop. -/
theorem read_calm {c : Char} {own : Text} (hc : isCalm c = true)
    (hown : ∀ c ∈ own, isCalm c = true) :
    ∃ kind n, n ≤ own.length ∧
      (kind = .space ∨ (∃ name, kind = .identifier name) ∨
        (kind = .delimiter ∧ n = 0)) ∧
      ∀ (d : Char) (t : Text), isStop d = true → read c (own ++ d :: t) =
        (kind, 1 + n) := by
  by_cases hspace : isSpace c = true
  · refine ⟨.space, (own.takeWhile isSpace).length,
      (List.takeWhile_prefix _).length_le, Or.inl rfl, fun d t hd => ?_⟩
    have hstop : (own ++ d :: t).takeWhile isSpace = own.takeWhile isSpace := by
      clear hown
      induction own with
      | nil => rw [List.nil_append, List.takeWhile_cons, (stop_false hd).1]; rfl
      | cons x own ih =>
        rw [List.cons_append, List.takeWhile_cons, List.takeWhile_cons, ih]
    rw [read]
    dsimp only
    rw [if_pos hspace, spaceLength, List.takeWhile_cons, if_pos hspace, hstop,
      List.length_cons, Nat.add_comm]
  by_cases hseparator : c ∈ separators
  · exact ⟨.delimiter, 0, Nat.zero_le _, Or.inr (Or.inr ⟨rfl, rfl⟩),
      fun d t _ => read_separator hseparator _⟩
  obtain ⟨hstart, hu, hU⟩ : isNameStart c = true ∧ c ≠ 'u' ∧ c ≠ 'U' := by
    simpa [isCalm, hspace, hseparator, and_assoc] using hc
  refine ⟨.identifier (c :: own.takeWhile isNameChar),
    (own.takeWhile isNameChar).length,
    (List.takeWhile_prefix _).length_le, Or.inr (Or.inl ⟨_, rfl⟩),
      fun d t hd => ?_⟩
  have hname := run_nameStep_calm (List.forall_mem_cons.mpr ⟨hc, hown⟩) hd t
  have hchar : isNameChar c = true := by
    rw [isNameChar, hstart]
    rfl
  rw [List.takeWhile_cons, if_pos hchar, ← readName_eq,
    List.cons_append] at hname
  have hparen : ∀ r,
      (c :: (own ++ d :: t)).drop (readName (c :: (own ++ d :: t))).2 ≠
        '(' :: r := by
    intro r hdrop
    rw [hname, List.length_cons, List.drop_succ_cons,
      List.drop_append_of_le_length (List.takeWhile_prefix _).length_le]
        at hdrop
    cases hleft : own.drop (own.takeWhile isNameChar).length with
    | nil =>
      rw [hleft] at hdrop
      exact (stop_false hd).2.2.2 (List.cons.inj hdrop).1
    | cons x left =>
      rw [hleft] at hdrop
      have hmem : x ∈ own := List.mem_of_mem_drop (hleft ▸ List.mem_cons_self)
      exact (calm_ne (hown x hmem)).2 (List.cons.inj hdrop).1
  have hdash : c ≠ '-' := by
    rintro rfl
    exact absurd hstart (by decide)
  rw [read]
  simp only [hspace, hu, hU, startsIdentifier, hstart,
    readIdentifierLike_plain hparen, hname, List.isPrefixOf]
  simp [Nat.add_comm, hdash.symm]

/-- The lexeme is white space, an identifier or a delimiter that ends
nothing. -/
def IsCalm (lexeme : Lexeme) : Prop :=
  lexeme.kind = .space ∨ (∃ name, lexeme.kind = .identifier name) ∨
    (lexeme.kind = .delimiter ∧ lexeme.text ≠ [';'])

theorem IsCalm.idle {lexeme : Lexeme} (h : lexeme.IsCalm) : lexeme.IsIdle := by
  rcases h with h | ⟨name, h⟩ | h
  · exact Or.inl h
  · exact Or.inr (Or.inl (by rw [h]; rfl))
  · exact Or.inr (Or.inr h)

/-- A calm text before a stop is read as the same lexemes whatever follows. -/
theorem exists_lexemes_calm (text : Text) (h : ∀ c ∈ text, isCalm c = true) :
    ∃ lexemes, plainOf lexemes = text ∧ (∀ lexeme ∈ lexemes, lexeme.IsCalm) ∧
      ∀ (d : Char) (t : Text), isStop d = true →
        ofText (text ++ d :: t) = lexemes ++ ofText (d :: t) := by
  match text with
  | [] => exact ⟨[], rfl, List.forall_mem_nil _, fun _ _ _ => rfl⟩
  | c :: own =>
    rw [List.forall_mem_cons] at h
    obtain ⟨kind, n, hn, hkind, hread⟩ := read_calm h.1 h.2
    obtain ⟨taken, left, rfl, rfl⟩ : ∃ taken left, own = taken ++ left ∧
        taken.length = n :=
      ⟨own.take n, own.drop n, (List.take_append_drop n own).symm,
        List.length_take_of_le hn⟩
    obtain ⟨lexemes, hplain, hcalm, hrest⟩ := exists_lexemes_calm left
      fun c hc => h.2 c (List.mem_append_right taken hc)
    refine ⟨⟨kind, c :: taken⟩ :: lexemes, ?_,
      List.forall_mem_cons.mpr ⟨?_, hcalm⟩, fun d t hd => ?_⟩
    · rw [plainOf_cons, hplain, List.cons_append]
    · refine hkind.imp id (Or.imp id ?_)
      rintro ⟨hdelimiter, htaken⟩
      refine ⟨hdelimiter, ?_⟩
      rintro ⟨⟩
      exact absurd h.1 (by decide)
    · have hread' := hread d t hd
      rw [List.append_assoc] at hread'
      rw [List.cons_append, List.append_assoc, ofText_of_read hread',
        hrest d t hd]
      rfl
termination_by text.length

end Lexeme

/-! ## Calm texts -/

/-- The text is made of blanks and of characters that start a name and nothing
else. -/
def Calm (text : Text) : Prop :=
  ∀ c ∈ text, isBlank c = true ∨ (isNameStart c && c ≠ 'u' && c ≠ 'U') = true

instance (text : Text) : Decidable (Calm text) :=
  List.decidableBAll (fun c => isBlank c = true ∨
    (isNameStart c && c ≠ 'u' && c ≠ 'U') = true) text

theorem calm_append {a b : Text} : Calm (a ++ b) ↔ Calm a ∧ Calm b :=
  List.forall_mem_append

/-- Blanks are calm, once the line breaks are normalized. -/
theorem isCalm_of_blank {c : Char} (h : isBlank c = true) (hr : c ≠ '\r')
    (hf : c ≠ '\x0c') :
    isCalm c = true := by
  by_cases hlarge : 0x7F < c.toNat
  · have hstart : isNameStart c = true := by
      rw [isNameStart, decide_eq_true hlarge, Bool.or_true]
    have hu : c ≠ 'u' ∧ c ≠ 'U' := by
      constructor <;> rintro rfl <;> exact absurd hlarge (by decide)
    simp [isCalm, hstart, hu.1, hu.2]
  · have hcode : c.toNat ∈ [0x09, 0x0A, 0x0B, 0x0C, 0x0D, 0x1C, 0x1D, 0x1E,
        0x1F, 0x20] := by
      simp [isBlank] at h ⊢
      omega
    rw [← Char.ofNat_toNat c] at hr hf ⊢
    generalize c.toNat = code at hcode hr hf ⊢
    simp only [List.mem_cons, List.not_mem_nil, or_false] at hcode
    rcases hcode with rfl | rfl | rfl | rfl | rfl | rfl | rfl | rfl | rfl | rfl
    all_goals first | rfl | exact absurd rfl hr | exact absurd rfl hf

/-- The characters of a calm text that is normalized are calm. -/
theorem Calm.isCalm {text : Text} (h : Calm text) :
    ∀ c ∈ normalizeBreaks text, Css.isCalm c = true := by
  intro c hc
  rw [normalizeBreaks_eq_map, List.mem_map] at hc
  obtain ⟨stroke, hstroke, rfl⟩ := hc
  rcases stroke_cases hstroke with rfl | ⟨d, rfl⟩
  · rfl
  · have hmem : d ∈ text := by
      rw [← flatten_strokes text]
      exact List.mem_flatten.mpr ⟨_, hstroke, List.mem_singleton_self d⟩
    by_cases hbreak : d = '\r' ∨ d = '\x0c'
    · rw [strokeChar, if_pos hbreak]
      rfl
    · rw [not_or] at hbreak
      have hcalm : Css.isCalm d = true := by
        rcases h d hmem with hblank | hname
        · exact isCalm_of_blank hblank hbreak.1 hbreak.2
        · rw [Css.isCalm, hname, Bool.or_true]
      have hnul : d ≠ '\x00' := by
        rintro rfl
        exact absurd hcalm (by decide)
      rw [strokeChar, if_neg (not_or.mpr hbreak), if_neg hnul]
      exact hcalm

/-- A calm text before a stop is read as leaves. -/
theorem Calm.exists_spells {text : Text} (h : Calm text) :
    ∃ own : List Word, (∀ word ∈ own, word.lexeme.IsCalm) ∧
      ∀ (d : Char) (t : Text), Lexeme.isStop d = true →
        Spells text (own.map Tree.leaf) (d :: t) := by
  obtain ⟨lexemes, hplain, hcalm, hread⟩ :=
    Lexeme.exists_lexemes_calm _ h.isCalm
  have hwords : ∀ word ∈ Word.cut lexemes (strokes text),
      word.lexeme.IsCalm := by
    intro word hword
    refine hcalm _ ?_
    rw [← Word.map_lexeme_cut lexemes (strokes text)]
    exact List.mem_map_of_mem hword
  refine ⟨Word.cut lexemes (strokes text), hwords, fun d t hd => ⟨?_, ?_⟩⟩
  · obtain ⟨hnormal, hbreak⟩ := Lexeme.normalizeBreaks_stop hd t
    rw [wordsOf_map_leaf]
    refine words_append (Or.inr (by simpa using hbreak)) hplain ?_
    rw [hnormal]
    exact hread _ _ hd
  · exact whole_of_idle fun word hword => (hwords word hword).idle

/-- A calm text that does not start with white space is read as the selector of
a rule. -/
theorem Calm.exists_leads {text : Text} (h : Calm text) {c : Char} {rest : Text}
    (htext : normalizeBreaks text = c :: rest) (hc : isSpace c = false) :
    ∃ before, Leads before ∧ ∀ t, Spells text before ('\x7b' :: t) := by
  obtain ⟨own, hcalm, hspells⟩ := h.exists_spells
  refine ⟨own.map Tree.leaf, ⟨⟨?_, ?_⟩, ?_⟩, fun t => hspells _ t rfl⟩
  · rw [List.forall_mem_map]
    exact fun word hword => segment_of_idle (hcalm word hword).idle
  · cases own with
    | nil => simp
    | cons word own =>
      rintro _ ⟨⟩
      refine isGap_of_idle (hcalm word List.mem_cons_self).idle fun hspace => ?_
      have hwords := (hspells '\x7b' [] rfl).words_eq
      rw [wordsOf_map_leaf] at hwords
      have hmem : word ∈ words (text ++ ['\x7b']) := by
        rw [hwords]
        simp
      have hall := isSpace_of_kind (lexeme_mem_of_mem_words hmem) hspace
      have hplain := plainOf_words (text ++ ['\x7b'])
      rw [hwords, normalizeBreaks_append (Or.inr (by simp)), htext,
        List.cons_append,
        Word.plainOf_cons] at hplain
      obtain ⟨d, chars, hchars⟩ := List.exists_cons_of_ne_nil
        (Lexeme.text_ne_nil_of_mem (lexeme_mem_of_mem_words hmem))
      rw [hchars] at hplain hall
      rw [← (List.cons.inj hplain).1, hall d List.mem_cons_self] at hc
      cases hc
  · cases own with
    | nil => simp
    | cons word own =>
      rintro _ ⟨⟩
      rw [Tree.isAtKeyword]
      rcases hcalm word List.mem_cons_self with
        hkind | ⟨name, hkind⟩ | ⟨hkind, _⟩
      all_goals
        rw [hkind]
        rfl

end OklchGate.Css
