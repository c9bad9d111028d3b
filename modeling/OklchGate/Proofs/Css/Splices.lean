import OklchGate.Proofs.Css.Seals
import OklchGate.Proofs.Css.Words

/-!
# Putting words between the words of a source

A word that ends itself, like a brace, ends there whatever follows.
After such a word other words may be put in, and the words before and after them
stay as they are.

There are three groups.

* `Lexeme.EndsItself`, and `Lexeme.ofText_append`: the lexemes up to one that
  ends itself do not depend on what follows.
* `Exact` and `Fixed`.  Words are exact if they are the words of their own text,
  and fixed if they are so before any other text.
* `Spliced`, which puts fixed words after words that end themselves, and
  `Spliced.exact`.
-/

namespace OklchGate.Css

namespace Lexeme

/-! ## Lexemes that end themselves -/

/-- A brace, a semicolon or a colon, or a comment that is closed. -/
def EndsItself (lexeme : Lexeme) : Prop :=
  lexeme.kind = .closing .curly ∨ lexeme.kind = .opening .curly ∨
    (lexeme.kind = .delimiter ∧ (lexeme.text = [';'] ∨ lexeme.text = [':'])) ∨
    lexeme.kind = .comment true

/-- The characters of some lexemes. -/
def plainOf (lexemes : List Lexeme) : Text := lexemes.flatMap Lexeme.text

@[simp] theorem plainOf_nil : plainOf [] = [] := rfl

@[simp] theorem plainOf_cons (lexeme : Lexeme) (rest : List Lexeme) :
    plainOf (lexeme :: rest) = lexeme.text ++ plainOf rest := rfl

@[simp] theorem plainOf_append (a b : List Lexeme) :
    plainOf (a ++ b) = plainOf a ++ plainOf b := by
  simp [plainOf]

/-- The first lexeme of a text, its characters, and what is left after them. -/
theorem ofText_eq_cons {text : Text} {lexeme : Lexeme} {rest : List Lexeme}
    (h : ofText text = lexeme :: rest) :
    ∃ c own left, text = c :: (own ++ left) ∧
      lexeme = ⟨(read c (own ++ left)).1, c :: own⟩ ∧ ofText left = rest ∧
      (left ≠ [] → (read c (own ++ left)).2 = 1 + own.length) := by
  cases text with
  | nil => exact absurd h nofun
  | cons c tail =>
    rw [ofText_cons, List.cons.injEq] at h
    obtain ⟨hfirst, hrest⟩ := h
    have hpos := read_pos c tail
    refine ⟨c, tail.take ((read c tail).2 - 1), tail.drop ((read c tail).2 - 1),
      ?_, ?_, hrest, ?_⟩
    · rw [List.take_append_drop]
    · rw [List.take_append_drop, ← text_first, ← hfirst]
      rfl
    · intro hleft
      have hlt := List.length_pos_iff.mpr hleft
      rw [List.length_drop] at hlt
      rw [List.take_append_drop, List.length_take]
      omega

/-- A lexeme whose length is known, and the lexemes after it. -/
theorem ofText_of_read {c : Char} {own left : Text} {kind : Kind}
    (h : read c (own ++ left) = (kind, 1 + own.length)) :
    ofText (c :: (own ++ left)) = ⟨kind, c :: own⟩ :: ofText left := by
  rw [ofText_cons, first, h]
  simp [Nat.add_comm 1]

/-- The lexemes after some lexemes of a text are those of what is left. -/
theorem ofText_of_append {lexemes rest : List Lexeme} {text : Text}
    (h : ofText (plainOf lexemes ++ text) = lexemes ++ rest) :
    ofText text = rest := by
  induction lexemes with
  | nil => exact h
  | cons lexeme lexemes ih =>
    obtain ⟨c, own, left, htext, rfl, hrest, _⟩ := ofText_eq_cons h
    rw [plainOf_cons, List.append_assoc, List.cons_append, List.cons.injEq,
      List.append_cancel_left_eq] at htext
    rw [← htext.2] at hrest
    exact ih hrest

/-- The lexemes before a seal do not depend on what follows the seal. -/
theorem ofText_seal {d : Char} (hd : isSeal d = true)
    {lexemes rest : List Lexeme} {t : Text} (t' : Text)
    (h : ofText (plainOf lexemes ++ d :: t) = lexemes ++ rest) :
    ofText (plainOf lexemes ++ d :: t') = lexemes ++ ofText (d :: t') := by
  induction lexemes with
  | nil => rfl
  | cons lexeme lexemes ih =>
    obtain ⟨c, own, left, htext, rfl, hrest, hlength⟩ := ofText_eq_cons h
    rw [plainOf_cons, List.append_assoc, List.cons_append, List.cons.injEq,
      List.append_cancel_left_eq] at htext
    obtain ⟨_, rfl⟩ := htext
    have hread :=
      hlength (List.append_ne_nil_of_right_ne_nil _ (List.cons_ne_nil _ _))
    have hsame : read c (own ++ (plainOf lexemes ++ d :: t')) =
        read c (own ++ (plainOf lexemes ++ d :: t)) := by
      rw [← List.append_assoc, ← List.append_assoc]
      apply read_eq_of_seal hd
      rw [List.append_assoc, hread, List.length_append]
      omega
    have hnext := ofText_of_read (hsame.trans (Prod.ext rfl hread))
    rw [plainOf_cons, List.append_assoc, List.cons_append, hnext, ih hrest]
    rfl

/-! ## The end of a comment -/

/-- A mark that is found does not depend on what follows it. -/
theorem find?_endMark {text : Text} {n : Nat}
    (h : Text.find? ['*', '/'] text = some n) (t' : Text) :
    Text.find? ['*', '/'] (text.take (n + 2) ++ t') = some n := by
  induction text generalizing n with
  | nil => exact absurd h nofun
  | cons c rest ih =>
    rw [Text.find?] at h
    split at h
    · rename_i hmark
      cases h
      cases rest with
      | nil => simp [List.isPrefixOf] at hmark
      | cons d rest => simpa [Text.find?, List.isPrefixOf] using hmark
    · rename_i hmark
      rw [Option.map_eq_some_iff] at h
      obtain ⟨m, hm, rfl⟩ := h
      have hrest := ih hm
      have hsame : ['*', '/'].isPrefixOf (c :: (rest.take (m + 2) ++ t')) =
          ['*', '/'].isPrefixOf (c :: rest) := by
        cases rest with
        | nil => exact absurd hm nofun
        | cons d rest => rfl
      rw [List.take_succ_cons, List.cons_append, Text.find?, hsame,
        if_neg hmark, hrest]
      rfl

theorem find?_endMark_le {text : Text} {n : Nat}
    (h : Text.find? ['*', '/'] text = some n) :
    n + 2 ≤ text.length := by
  induction text generalizing n with
  | nil => exact absurd h nofun
  | cons c rest ih =>
    rw [Text.find?] at h
    split at h
    · rename_i hmark
      cases h
      cases rest with
      | nil => simp [List.isPrefixOf] at hmark
      | cons d rest => simp
    · rw [Option.map_eq_some_iff] at h
      obtain ⟨m, hm, rfl⟩ := h
      have hle := ih hm
      rw [List.length_cons]
      omega

/-- A comment is read at its mark. -/
theorem read_mark (body : Text) :
    read '/' ('*' :: body) =
      (.comment (readComment body).2, 2 + (readComment body).1) := by
  have hnumber : readNumeric? ('/' :: '*' :: body) = none := by
    rw [readNumeric?]
    rfl
  rw [read]
  simp only [hnumber]
  rfl

/-- A comment starts with its mark. -/
theorem mark_of_comment {c : Char} {rest : Text} {closed : Bool}
    (h : (read c rest).1 = .comment closed) :
    ∃ body, c = '/' ∧ rest = '*' :: body := by
  revert h
  apply read_cases (motive := fun answer => answer.1 = .comment closed →
    ∃ body, c = '/' ∧ rest = '*' :: body)
  case comment =>
    intro hmark _
    cases rest with
    | nil => simp [List.isPrefixOf] at hmark
    | cons d body =>
      simp only [List.isPrefixOf, Bool.and_eq_true, beq_iff_eq] at hmark
      exact ⟨body, hmark.1.symm, by rw [hmark.2.1]⟩
  case word =>
    intro _ h
    rcases readIdentifierLike_cases (c :: rest) with
      he | he | ⟨ending, n, he⟩ <;> rw [he] at h
    · cases h
    · cases h
    · cases ending <;> cases h
  case string =>
    intro _ ending n h
    cases ending <;> cases h
  all_goals
    intros
    rename_i h
    cases h

theorem getLast?_endMark {text : Text} {n : Nat}
    (h : Text.find? ['*', '/'] text = some n) :
    (text.take (n + 2)).getLast? = some '/' := by
  induction text generalizing n with
  | nil => exact absurd h nofun
  | cons c rest ih =>
    rw [Text.find?] at h
    split at h
    · rename_i hmark
      cases h
      cases rest with
      | nil => simp [List.isPrefixOf] at hmark
      | cons d rest =>
        simp only [List.isPrefixOf, Bool.and_eq_true, beq_iff_eq] at hmark
        simp [← hmark.2.1]
    · rw [Option.map_eq_some_iff] at h
      obtain ⟨m, hm, rfl⟩ := h
      rw [List.take_succ_cons, List.getLast?_cons, ih hm]
      rfl

/-- A comment that is closed is its two marks and what stands between them. -/
theorem text_of_comment {lexeme : Lexeme} {text : Text}
    (h : lexeme ∈ ofText text) (hkind : lexeme.kind = .comment true) :
    ∃ body n, Text.find? ['*', '/'] body = some n ∧
      lexeme.text = '/' :: '*' :: body.take (n + 2) := by
  obtain ⟨c, tail, rfl⟩ := exists_first_of_mem h
  obtain ⟨body, rfl, rfl⟩ := mark_of_comment hkind
  rw [first, read_mark, Kind.comment.injEq] at hkind
  cases hfind : Text.find? ['*', '/'] body with
  | none =>
    rw [readComment, hfind] at hkind
    exact absurd hkind Bool.false_ne_true
  | some n =>
    have hlength : 2 + (n + 2) - 1 = n + 2 + 1 := by omega
    refine ⟨body, n, hfind, ?_⟩
    rw [text_first, read_mark, readComment, hfind]
    dsimp only
    rw [hlength, List.take_succ_cons]

/-- What ends itself is read alike before any other text. -/
theorem ofText_of_endsItself {lexeme : Lexeme} {text : Text}
    (h : lexeme ∈ ofText text) (hlexeme : lexeme.EndsItself) (t : Text) :
    ofText (lexeme.text ++ t) = lexeme :: ofText t := by
  obtain ⟨kind, own⟩ := lexeme
  rcases hlexeme with hkind | hkind | ⟨hkind, hown⟩ | hkind
  · have hown := text_of_closing h hkind
    dsimp only at hkind hown
    subst hkind hown
    exact ofText_of_read (read_closer .curly ([] ++ t))
  · have hown := text_of_opening h hkind nofun
    dsimp only at hkind hown
    subst hkind hown
    exact ofText_of_read (read_openBrace ([] ++ t))
  · dsimp only at hkind hown
    subst hkind
    rcases hown with rfl | rfl
    · exact ofText_of_read (read_semicolon ([] ++ t))
    · exact ofText_of_read (read_colon ([] ++ t))
  · obtain ⟨body, n, hfind, hown⟩ := text_of_comment h hkind
    dsimp only at hkind hown
    subst hkind hown
    refine ofText_of_read ?_
    have hle := find?_endMark_le hfind
    rw [List.cons_append, read_mark, readComment, find?_endMark hfind t,
      List.length_cons, List.length_take, Nat.min_eq_left hle]
    simp only [Prod.mk.injEq, true_and]
    omega

/-- What ends itself starts with a seal. -/
theorem head_of_endsItself {lexeme : Lexeme} {text : Text}
    (h : lexeme ∈ ofText text) (hlexeme : lexeme.EndsItself) :
    ∃ d own, lexeme.text = d :: own ∧ isSeal d = true := by
  rcases hlexeme with hkind | hkind | ⟨_, hown | hown⟩ | hkind
  · exact ⟨'\x7d', [], text_of_closing h hkind, rfl⟩
  · exact ⟨'\x7b', [], text_of_opening h hkind nofun, rfl⟩
  · exact ⟨';', [], hown, rfl⟩
  · exact ⟨':', [], hown, rfl⟩
  · obtain ⟨body, n, _, hown⟩ := text_of_comment h hkind
    exact ⟨'/', _, hown, rfl⟩

/-- What ends itself ends in a seal. -/
theorem getLast?_of_endsItself {lexeme : Lexeme} {text : Text}
    (h : lexeme ∈ ofText text) (hlexeme : lexeme.EndsItself) :
    ∃ d, lexeme.text.getLast? = some d ∧ isSeal d = true := by
  rcases hlexeme with hkind | hkind | ⟨_, hown | hown⟩ | hkind
  · exact ⟨'\x7d', by rw [text_of_closing h hkind]; rfl, rfl⟩
  · exact ⟨'\x7b', by rw [text_of_opening h hkind nofun]; rfl, rfl⟩
  · exact ⟨';', by rw [hown]; rfl, rfl⟩
  · exact ⟨':', by rw [hown]; rfl, rfl⟩
  · obtain ⟨body, n, hfind, hown⟩ := text_of_comment h hkind
    refine ⟨'/', ?_, rfl⟩
    rw [hown, List.getLast?_cons, List.getLast?_cons, getLast?_endMark hfind]
    rfl

/-- The lexemes up to one that ends itself do not depend on what follows. -/
theorem ofText_append {before rest : List Lexeme} {last : Lexeme} {t : Text}
    (hlast : last.EndsItself)
    (h : ofText (plainOf (before ++ [last]) ++ t) = before ++ last :: rest)
    (t' : Text) :
    ofText (plainOf (before ++ [last]) ++ t') =
      before ++ last :: ofText t' := by
  rw [plainOf_append, List.append_assoc, plainOf_cons, plainOf_nil,
    List.append_nil] at h ⊢
  obtain ⟨d, own, htext, hd⟩ := head_of_endsItself (by rw [h]; simp) hlast
  have hfirst := ofText_of_endsItself (by rw [h]; simp) hlast t'
  rw [htext, List.cons_append] at h hfirst ⊢
  rw [ofText_seal hd (own ++ t') h, hfirst]

end Lexeme

/-! ## Words of their own text -/

open Word

namespace Word

theorem cut_append (a b : List Lexeme) (strokes : List Text) :
    cut (a ++ b) strokes =
      cut a strokes ++ cut b (strokes.drop (Lexeme.plainOf a).length) := by
  induction a generalizing strokes with
  | nil => rfl
  | cons lexeme rest ih =>
    rw [List.cons_append, cut, cut, ih, Lexeme.plainOf_cons, List.length_append,
      List.drop_drop]
    rfl

/-- The words of lexemes use no more strokes than these have characters. -/
theorem cut_take (lexemes : List Lexeme) (strokes : List Text) {n : Nat}
    (h : (Lexeme.plainOf lexemes).length ≤ n) :
    cut lexemes (strokes.take n) = cut lexemes strokes := by
  induction lexemes generalizing strokes n with
  | nil => rfl
  | cons lexeme rest ih =>
    rw [Lexeme.plainOf_cons, List.length_append] at h
    rw [cut, cut, List.take_take, Nat.min_eq_left (by omega), List.drop_take,
      ih _ (by omega)]

theorem plainOf_map (words : List Word) :
    Lexeme.plainOf (words.map Word.lexeme) = plainOf words := by
  simp [Lexeme.plainOf, plainOf, List.flatMap_map]

end Word

/-- The words are those of their own text. -/
def Exact (ws : List Word) : Prop := words (textOf ws) = ws

/-- The words are those of their own text, whatever follows it. -/
def Fixed (ws : List Word) : Prop := ∀ t, words (textOf ws ++ t) = ws ++ words t

theorem exact_words (source : Text) : Exact (words source) := by
  rw [Exact, textOf_words]

theorem Fixed.exact {a b : List Word} (ha : Fixed a) (hb : Exact b) :
    Exact (a ++ b) := by
  rw [Exact, textOf_append, ha, hb]

theorem Fixed.append {a b : List Word} (ha : Fixed a) (hb : Fixed b) :
    Fixed (a ++ b) := by
  intro t
  rw [textOf_append, List.append_assoc, ha, hb, List.append_assoc]

/-- The strokes of exact words, those of the first words and those of the others
apart. -/
theorem Exact.strokes_eq {a b : List Word} (h : Exact (a ++ b)) :
    strokes (textOf a) = (strokes (textOf (a ++ b))).take (plainOf a).length ∧
      strokes (textOf b) =
        (strokes (textOf (a ++ b))).drop (plainOf a).length := by
  have ha : textOf a =
      ((strokes (textOf (a ++ b))).take (plainOf a).length).flatten :=
    textOf_of_cut h
  have hb : textOf b =
      ((strokes (textOf (a ++ b))).drop (plainOf a).length).flatten := by
    have hsplit := flatten_take_append_drop (textOf (a ++ b)) (plainOf a).length
    rw [← ha] at hsplit
    conv at hsplit => rhs; rw [textOf_append]
    exact (List.append_cancel_left hsplit).symm
  have hstrokes := strokes_take_flatten (textOf (a ++ b)) (plainOf a).length
  rw [← ha, ← hb] at hstrokes
  exact hstrokes

/-- The normalized text of exact words. -/
theorem Exact.normalizeBreaks_eq {ws : List Word} (h : Exact ws) :
    normalizeBreaks (textOf ws) = plainOf ws := by
  rw [← plainOf_words, h]

/-- The lexemes of exact words. -/
theorem Exact.ofText_eq {ws : List Word} (h : Exact ws) :
    Lexeme.ofText (plainOf ws) = ws.map Word.lexeme := by
  rw [← h.normalizeBreaks_eq, ← map_lexeme_words, h]

theorem Exact.normalizeBreaks_left {a b : List Word} (h : Exact (a ++ b)) :
    normalizeBreaks (textOf a) = plainOf a := by
  have hplain := h.normalizeBreaks_eq
  rw [normalizeBreaks_eq_map] at hplain
  rw [normalizeBreaks_eq_map, h.strokes_eq.1, List.map_take, hplain,
    plainOf_append, List.take_left]

theorem Exact.normalizeBreaks_right {a b : List Word} (h : Exact (a ++ b)) :
    normalizeBreaks (textOf b) = plainOf b := by
  have hplain := h.normalizeBreaks_eq
  rw [normalizeBreaks_eq_map] at hplain
  rw [normalizeBreaks_eq_map, h.strokes_eq.2, List.map_drop, hplain,
    plainOf_append, List.drop_left]

/-- The last of some exact words are exact. -/
theorem Exact.right {a b : List Word} (h : Exact (a ++ b)) : Exact b := by
  have hlexemes : Lexeme.ofText (plainOf b) = b.map Word.lexeme := by
    have hall := h.ofText_eq
    rw [plainOf_append, ← plainOf_map a, List.map_append] at hall
    exact Lexeme.ofText_of_append hall
  have hcut := h
  rw [Exact, words, h.normalizeBreaks_eq, h.ofText_eq, List.map_append,
    cut_append, plainOf_map, ← h.strokes_eq.2] at hcut
  have hlength : (cut (a.map Word.lexeme) (strokes (textOf (a ++ b)))).length =
      a.length := by
    rw [← List.length_map (f := Word.lexeme), map_lexeme_cut, List.length_map]
  rw [Exact, words, h.normalizeBreaks_right, hlexemes]
  exact (List.append_inj hcut hlength).2

/-- The last character of a word that ends itself is a seal. -/
theorem getLast?_text {source : Text} {word : Word} (h : word ∈ words source)
    (hword : word.lexeme.EndsItself) :
    ∃ d, word.text.getLast? = some d ∧ isSeal d = true := by
  obtain ⟨d, hlast, hd⟩ :=
    Lexeme.getLast?_of_endsItself (lexeme_mem_of_mem_words h) hword
  obtain ⟨own, hmem, hplain, htext⟩ := exists_strokes_of_mem h
  refine ⟨d, ?_, hd⟩
  rcases List.eq_nil_or_concat own with rfl | ⟨others, stroke, rfl⟩
  · rw [← hplain] at hlast
    exact absurd hlast nofun
  · rw [List.concat_eq_append] at hmem hplain htext
    rw [← hplain, List.map_append, List.map_singleton, List.getLast?_concat,
      Option.some.injEq] at hlast
    have hstroke : stroke = [d] := by
      refine stroke_eq_of_strokeChar (hmem stroke (by simp)) hlast ?_ ?_ <;>
        rintro rfl <;>
        exact absurd hd (by decide)
    rw [← htext, hstroke, List.flatten_append, List.flatten_singleton,
      List.getLast?_concat]

/-- Exact words up to one that ends itself are fixed. -/
theorem Exact.fixed {before rest : List Word} {last : Word}
    (h : Exact (before ++ last :: rest)) (hlast : last.lexeme.EndsItself) :
    Fixed (before ++ [last]) := by
  intro t
  have hsplit : Exact ((before ++ [last]) ++ rest) := by simpa using h
  have hmem : last ∈ words (textOf (before ++ last :: rest)) := by
    rw [h]
    simp
  obtain ⟨d, hchar, hd⟩ := getLast?_text hmem hlast
  have hreturn : (textOf (before ++ [last])).getLast? ≠ some '\r' := by
    rw [textOf_append, textOf_cons, textOf_nil, List.append_nil,
      List.getLast?_append, hchar]
    rintro ⟨⟩
    exact absurd hd (by decide)
  have hstrokes := strokes_append (b := t) (Or.inl hreturn)
  have hlexemes :
    Lexeme.ofText (plainOf (before ++ [last]) ++ normalizeBreaks t) =
      (before ++ [last]).map Word.lexeme ++
        Lexeme.ofText (normalizeBreaks t) := by
    have hall := hsplit.ofText_eq
    rw [plainOf_append, ← plainOf_map (before ++ [last])] at hall
    rw [← plainOf_map]
    simp only [List.map_append, List.map_cons, List.map_nil, List.append_assoc,
      List.singleton_append] at hall ⊢
    exact Lexeme.ofText_append hlast hall _
  have hcut : cut ((before ++ [last]).map Word.lexeme)
    (strokes (textOf (before ++ [last]))) = before ++ [last] := by
    have hall := hsplit
    rw [Exact, words, hsplit.normalizeBreaks_eq, hsplit.ofText_eq,
      List.map_append, cut_append] at hall
    rw [hsplit.strokes_eq.1, cut_take _ _ (Nat.le_of_eq (by rw [plainOf_map]))]
    refine (List.append_inj hall ?_).1
    rw [← List.length_map (f := Word.lexeme), map_lexeme_cut, List.length_map]
  have hlength : (strokes (textOf (before ++ [last]))).length =
      (plainOf (before ++ [last])).length := by
    rw [← length_normalizeBreaks, hsplit.normalizeBreaks_left]
  have hnormal : normalizeBreaks (textOf (before ++ [last]) ++ t) =
      plainOf (before ++ [last]) ++ normalizeBreaks t := by
    rw [normalizeBreaks_eq_map, hstrokes, List.map_append,
      ← normalizeBreaks_eq_map, ← normalizeBreaks_eq_map,
      hsplit.normalizeBreaks_left]
  rw [words, hnormal, hlexemes, hstrokes, cut_append, plainOf_map, ← hlength,
    List.drop_left, ← words]
  rw [← cut_take _ (strokes _ ++ strokes t)
    (n := (strokes (textOf (before ++ [last]))).length), List.take_left, hcut]
  exact Nat.le_of_eq (by rw [plainOf_map, hlength])

/-! ## Splices -/

/-- Words with other words put in, each time fixed words after a word that ends
itself. -/
inductive Spliced : List Word → List Word → Prop where
  | keep (ws : List Word) : Spliced ws ws
  | put (before : List Word) {after after' : List Word} {last : Word}
    {new : List Word}
      (hlast : last.lexeme.EndsItself) (hnew : Fixed new)
        (h : Spliced after after') :
      Spliced (before ++ last :: after) (before ++ last :: (new ++ after'))

namespace Spliced

theorem append_left {ws ws' : List Word} (before : List Word)
    (h : Spliced ws ws') :
    Spliced (before ++ ws) (before ++ ws') := by
  cases h with
  | keep => exact keep _
  | put middle hlast hnew h =>
    rw [← List.append_assoc, ← List.append_assoc]
    exact put (before ++ middle) hlast hnew h

theorem append {a a' b b' : List Word} (ha : Spliced a a') (hb : Spliced b b') :
    Spliced (a ++ b) (a' ++ b') := by
  induction ha with
  | keep ws => exact hb.append_left ws
  | put before hlast hnew h ih =>
    simp only [List.append_assoc, List.cons_append]
    exact put before hlast hnew ih

theorem nil_inv {ws : List Word} (h : Spliced [] ws) : ws = [] := by
  generalize hnil : ([] : List Word) = before at h
  cases h with
  | keep => rfl
  | put => exact absurd hnil (by simp)

/-- Other words may also be put in at the end, after a word that ends itself. -/
theorem append_put {a a' before new : List Word} {last : Word} (b : List Word)
    (h : Spliced a a') (ha : a = before ++ [last])
    (hlast : last.lexeme.EndsItself) (hnew : Fixed new) :
    Spliced (a ++ b) (a' ++ (new ++ b)) := by
  induction h generalizing before with
  | keep ws =>
    have hput := put before hlast hnew (keep b)
    simpa [ha] using hput
  | @put before' after after' last' new' hlast' hnew' h ih =>
    rcases List.eq_nil_or_concat after with rfl | ⟨inner, word, rfl⟩
    · rw [h.nil_inv, List.append_nil]
      have hput := put before' hlast' (hnew'.append hnew) (keep b)
      simpa using hput
    · rw [List.concat_eq_append] at ha ih ⊢
      have hword : word = last := by
        rw [← List.cons_append, ← List.append_assoc] at ha
        simpa using (List.append_inj_right' ha rfl)
      have hput := put before' hlast' hnew' (ih (by rw [hword]))
      simpa using hput

/-- Exact words with others put in are exact. -/
theorem exact {ws ws' : List Word} (h : Spliced ws ws') (hws : Exact ws) :
    Exact ws' := by
  induction h with
  | keep => exact hws
  | @put before after after' last new hlast hnew _ ih =>
    have hfixed := hws.fixed hlast
    have hsplit : Exact ((before ++ [last]) ++ after) := by simpa using hws
    have hnext := (hfixed.append hnew).exact (ih hsplit.right)
    simpa using hnext

end Spliced

end OklchGate.Css
