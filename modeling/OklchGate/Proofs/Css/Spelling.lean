import OklchGate.Proofs.Css.Reparsing
import OklchGate.Proofs.Css.Openings
import OklchGate.Proofs.Text.Rebreaking

/-!
# Texts that spell trees

A text spells trees before another text if its words are the words of these
trees, and the words of the other text follow them.
-/

namespace OklchGate.Css

open Word

/-! ## Plain texts -/

/-- The blanks of a text are spaces, tabs and line feeds. -/
def Plain (text : Text) : Prop :=
  ∀ c ∈ text, isBlank c = true → isSpace c = true

instance (text : Text) : Decidable (Plain text) :=
  List.decidableBAll (fun c => isBlank c = true → isSpace c = true) text

theorem plain_append {a b : Text} : Plain (a ++ b) ↔ Plain a ∧ Plain b :=
  List.forall_mem_append

theorem isBlank_of_isSpace {c : Char} (h : isSpace c = true) :
    isBlank c = true := by
  have hcases : c = ' ' ∨ c = '\n' ∨ c = '\t' := by
    simpa [isSpace, or_assoc] using h
  rcases hcases with rfl | rfl | rfl <;> rfl

/-- A plain text breaks its lines with LF. -/
theorem Plain.lf {text : Text} (h : Plain text) :
    '\r' ∉ text ∧ '\x0c' ∉ text := by
  constructor <;> intro hmem <;> exact absurd (h _ hmem rfl) (by decide)

/-- A text without a CR at its end may be cut from any other text. -/
theorem Plain.getLast? {text : Text} (h : Plain text) :
    text.getLast? ≠ some '\r' :=
  fun hlast => h.lf.1 (List.mem_of_getLast? hlast)

/-- Two texts are normalized apart, if no CR LF stands across them. -/
theorem normalizeBreaks_append {a t : Text}
    (h : a.getLast? ≠ some '\r' ∨ t.head? ≠ some '\n') :
    normalizeBreaks (a ++ t) = normalizeBreaks a ++ normalizeBreaks t := by
  rw [normalizeBreaks_eq_map, normalizeBreaks_eq_map, normalizeBreaks_eq_map,
    strokes_append h, List.map_append]

/-- The strokes of a plain text are its characters. -/
theorem strokes_eq_of_plain {text : Text} (h : Plain text) :
    strokes text = text.map ([·]) := by
  induction text with
  | nil => rfl
  | cons c rest ih =>
    have hc : c ≠ '\r' := fun hc => h.lf.1 (hc ▸ List.mem_cons_self)
    have hcut :=
      strokes_append (a := [c]) (b := rest) (Or.inl (by simpa using hc))
    rw [List.singleton_append, ih (List.forall_mem_cons.mp h).2] at hcut
    rw [hcut, strokes]
    · rfl
    · rintro rest rfl
      exact absurd rfl hc

/-- The character that a character of a plain text is normalized to. -/
theorem normalizeBreaks_eq_of_plain {text : Text} (h : Plain text) :
    normalizeBreaks text = text.map fun c => if c = '\x00' then '\uFFFD'
      else c := by
  rw [normalizeBreaks_eq_map, strokes_eq_of_plain h, List.map_map]
  refine List.map_congr_left fun c hc => ?_
  have hr : c ≠ '\r' := fun hr => h.lf.1 (hr ▸ hc)
  have hf : c ≠ '\x0c' := fun hf => h.lf.2 (hf ▸ hc)
  simp [strokeChar, hr, hf]

/-- A plain text that is normalized to a text without U+FFFD is that text. -/
theorem eq_of_normalizeBreaks {text plain : Text} (h : Plain text)
    (heq : normalizeBreaks text = plain) (hplain : '\uFFFD' ∉ plain) :
    text = plain := by
  subst heq
  rw [normalizeBreaks_eq_of_plain h] at hplain ⊢
  refine ((List.map_congr_left fun c hc => ?_).trans (List.map_id _)).symm
  refine if_neg ?_
  rintro rfl
  exact hplain (List.mem_map.mpr ⟨_, hc, rfl⟩)

/-- The words of a text before another text, by their lexemes. -/
theorem words_append {a t : Text} {lexemes : List Lexeme}
    (hcut : a.getLast? ≠ some '\r' ∨ t.head? ≠ some '\n')
    (hplain : Lexeme.plainOf lexemes = normalizeBreaks a)
    (h : Lexeme.ofText (normalizeBreaks a ++ normalizeBreaks t) =
      lexemes ++ Lexeme.ofText (normalizeBreaks t)) :
    words (a ++ t) = cut lexemes (strokes a) ++ words t := by
  have hlength : (Lexeme.plainOf lexemes).length = (strokes a).length := by
    rw [hplain, length_normalizeBreaks]
  rw [words, normalizeBreaks_append hcut, h, strokes_append hcut, cut_append,
    hlength, List.drop_left, ← cut_take lexemes _ (Nat.le_of_eq hlength),
    List.take_left]
  rfl

/-! ## Spelling -/

/-- A text is read as the words of some whole trees when `t` follows it. -/
structure Spells (text : Text) (trees : List Tree) (t : Text) : Prop where
  words_eq : words (text ++ t) = Tree.wordsOf trees ++ words t
  whole : Tree.WholeAll trees

theorem spells_nil (t : Text) : Spells [] [] t := ⟨rfl, trivial⟩

theorem Spells.append {a b t : Text} {as bs : List Tree}
    (ha : Spells a as (b ++ t)) (hb : Spells b bs t) :
    Spells (a ++ b) (as ++ bs) t where
  words_eq := by
    rw [List.append_assoc, ha.words_eq, hb.words_eq, Tree.wordsOf_append,
      List.append_assoc]
  whole := Tree.wholeAll_append.mpr ⟨ha.whole, hb.whole⟩

/-- The trees have the text that spells them. -/
theorem Spells.textOf_eq {text t : Text} {trees : List Tree}
    (h : Spells text trees t) :
    Tree.textOf trees = text := by
  have htext := congrArg Word.textOf h.words_eq
  rw [textOf_append, textOf_words, textOf_words] at htext
  exact (List.append_cancel_right htext).symm

/-- A text that spells trees at the end is read as these trees. -/
theorem Spells.ofText_eq {text : Text} {trees : List Tree}
    (h : Spells text trees []) :
    Tree.ofText text = trees := by
  have hwords := h.words_eq
  have hnil : words [] = [] := rfl
  rw [List.append_nil, hnil, List.append_nil] at hwords
  rw [← h.textOf_eq]
  refine Tree.ofText_of_exact ?_ h.whole
  rw [Exact, ← hwords, textOf_words]

/-- A word whose lexeme has the text of the word. -/
def same (lexeme : Lexeme) : Word := ⟨lexeme, lexeme.text⟩

theorem cut_singletons (lexemes : List Lexeme) :
    cut lexemes ((Lexeme.plainOf lexemes).map ([·])) = lexemes.map same := by
  induction lexemes with
  | nil => rfl
  | cons lexeme rest ih =>
    have hown : (lexeme.text.map fun c => [c]).flatten = lexeme.text := by
      induction lexeme.text with
      | nil => rfl
      | cons c own ih =>
        rw [List.map_cons, List.flatten_cons, ih, List.singleton_append]
    rw [Lexeme.plainOf_cons, List.map_append, cut,
      List.take_left' (List.length_map _), List.drop_left' (List.length_map _),
      ih, hown]
    rfl

/-- The words of a text without NULs are its lexemes. -/
theorem words_of_lexemes {text t : Text} {lexemes : List Lexeme}
    (hplain : Plain text) (hkept : normalizeBreaks text = text)
    (htext : Lexeme.plainOf lexemes = text)
    (hread : Lexeme.ofText (text ++ normalizeBreaks t) =
      lexemes ++ Lexeme.ofText (normalizeBreaks t)) :
    words (text ++ t) = lexemes.map same ++ words t := by
  rw [words_append (Or.inl hplain.getLast?) (by rw [htext, hkept])
    (by rw [hkept]; exact hread),
    strokes_eq_of_plain hplain, ← htext, cut_singletons]

/-- A text without NULs, by its lexemes. -/
theorem spells_of_lexemes {text t : Text} {lexemes : List Lexeme}
    {trees : List Tree} (hplain : Plain text)
    (hkept : normalizeBreaks text = text)
    (htext : Lexeme.plainOf lexemes = text)
    (hread : Lexeme.ofText (text ++ normalizeBreaks t) =
      lexemes ++ Lexeme.ofText (normalizeBreaks t))
    (htrees : Tree.wordsOf trees = lexemes.map same)
    (hwhole : Tree.WholeAll trees) :
    Spells text trees t where
  words_eq := by rw [words_of_lexemes hplain hkept htext hread, htrees]
  whole := hwhole

/-- Whole trees before a word that ends itself are read alike whatever follows
this word. -/
theorem Exact.spells {front rest : List Word} {trees : List Tree} {last : Word}
    (h : Exact (front ++ (Tree.wordsOf trees ++ last :: rest)))
    (hlast : last.lexeme.EndsItself) (hwhole : Tree.WholeAll trees) (t : Text) :
    Spells (Tree.textOf trees) trees (last.text ++ t) where
  words_eq := by
    rw [← List.append_assoc] at h
    have hall := (h.fixed hlast).exact (exact_words t)
    rw [List.append_assoc, List.append_assoc] at hall
    have hown : Exact (Tree.wordsOf trees ++ ([last] ++ words t)) := hall.right
    have hright : words (last.text ++ t) = [last] ++ words t := by
      have hlastExact := hown.right
      rwa [Exact, textOf_append, textOf_words, textOf_cons, textOf_nil,
        List.append_nil]
        at hlastExact
    rwa [Exact, textOf_append, textOf_append, textOf_words, textOf_cons,
      textOf_nil, List.append_nil, ← hright] at hown
  whole := hwhole

/-- Whole trees that end in a word that ends itself are read alike before any
text. -/
theorem Exact.spells_ended {front rest own : List Word} {trees : List Tree}
    {last : Word} (h : Exact (front ++ (Tree.wordsOf trees ++ rest)))
    (hown : Tree.wordsOf trees = own ++ [last]) (hlast : last.lexeme.EndsItself)
    (hwhole : Tree.WholeAll trees) (t : Text) :
    Spells (Tree.textOf trees) trees t where
  words_eq := by
    rw [hown, List.append_assoc, ← List.append_assoc] at h
    have hall := (h.fixed hlast).exact (exact_words t)
    rw [List.append_assoc, List.append_assoc, ← List.append_assoc own,
      ← hown] at hall
    have hright := hall.right
    rwa [Exact, textOf_append, textOf_words] at hright
  whole := hwhole

/-- A word of its own text. -/
def spelled (kind : Lexeme.Kind) (text : Text) : Word :=
  ⟨⟨kind, normalizeBreaks text⟩, text⟩

/-- A space, a name or a delimiter is whole by itself. -/
theorem whole_leaf {word : Word}
    (h : word.lexeme.kind = .space ∨ word.lexeme.kind.isName = true ∨
      word.lexeme.kind = .delimiter) :
    (Tree.leaf word).Whole := by
  obtain ⟨⟨kind, text⟩, own⟩ := word
  dsimp only at h
  rcases h with rfl | h | rfl
  · exact ⟨⟨rfl, by simp⟩, by simp⟩
  · cases kind <;> first | cases h; done | exact ⟨⟨rfl, by simp⟩, by simp⟩
  · exact ⟨⟨rfl, by simp⟩, by simp⟩

/-- A text that is one word. -/
theorem spells_word {text t own : Text} {c : Char} {kind : Lexeme.Kind}
    (hcut : text.getLast? ≠ some '\r' ∨ t.head? ≠ some '\n')
    (htext : normalizeBreaks text = c :: own)
    (hkind : kind = .space ∨ kind.isName = true ∨ kind = .delimiter)
    (hread : Lexeme.read c (own ++ normalizeBreaks t) =
      (kind, 1 + own.length)) :
    Spells text [.leaf (spelled kind text)] t where
  words_eq := by
    have hnormal : Lexeme.plainOf [⟨kind, c :: own⟩] =
        normalizeBreaks text := by
      rw [htext]
      simp
    rw [words_append hcut hnormal
      (by rw [htext, List.cons_append, Lexeme.ofText_of_read hread]; rfl)]
    have hlength := length_normalizeBreaks text
    rw [cut, cut, ← htext, hlength, List.take_length, flatten_strokes]
    rfl
  whole := ⟨whole_leaf hkind, trivial⟩

/-- A block between two brackets. -/
theorem spells_block {open' text t : Text} {bracket : Bracket}
    {trees : List Tree} (hplain : Plain open')
    (hkept : normalizeBreaks open' = open')
    (hopen : ∀ u, Lexeme.ofText (open' ++ u) =
      ⟨.opening bracket, open'⟩ :: Lexeme.ofText u)
    (h : Spells text trees (bracket.closer :: t)) :
    Spells (open' ++ text ++ [bracket.closer])
      [.block (same ⟨.opening bracket, open'⟩) bracket trees
        (some (same ⟨.closing bracket, [bracket.closer]⟩))] t where
  words_eq := by
    have hcloser : words (bracket.closer :: t) =
        [⟨.closing bracket, [bracket.closer]⟩].map same ++ words t := by
      rw [← List.singleton_append]
      refine words_of_lexemes ?_ ?_ rfl ?_
      · cases bracket <;> simp [Plain, Bracket.closer, isBlank]
      · cases bracket <;> rfl
      · have hread : Lexeme.read bracket.closer ([] ++ normalizeBreaks t) =
            (.closing bracket, 1 + 0) := Lexeme.read_closer bracket _
        exact Lexeme.ofText_of_read hread
    have htext : Lexeme.plainOf [⟨.opening bracket, open'⟩] = open' := by simp
    rw [List.append_assoc, List.append_assoc,
      words_of_lexemes hplain hkept htext (hopen _), List.singleton_append,
      h.words_eq, hcloser]
    simp
  whole := ⟨⟨rfl, ⟨_, rfl, rfl⟩, h.whole⟩, trivial⟩

/-! ## The head of a rule -/

/-- The tree is an at-keyword. -/
def Tree.isAtKeyword : Tree → Bool
  | .leaf word => word.lexeme.kind.isAtKeyword
  | .block .. => false

/-- Trees that make up the start of a segment. -/
structure IsSegment (trees : List Tree) : Prop where
  inside : ∀ tree ∈ trees, tree.isCurly = false ∧ tree.isDelimiter ';' = false
  first : ∀ tree ∈ trees.head?, tree.isGap = false

theorem isSegment_nil : IsSegment [] := ⟨List.forall_mem_nil _, by simp⟩

/-- A segment goes on with a tree that neither ends it nor is a gap at its
start. -/
theorem IsSegment.concat {segment : List Tree} {tree : Tree}
    (h : IsSegment segment) (hgap : segment ≠ [] ∨ tree.isGap = false)
    (hcurly : tree.isCurly = false)
    (hsemicolon : tree.isDelimiter ';' = false) :
    IsSegment (segment ++ [tree]) := by
  refine ⟨?_, ?_⟩
  · rw [List.forall_mem_append, List.forall_mem_singleton]
    exact ⟨h.inside, hcurly, hsemicolon⟩
  · cases segment with
    | nil =>
      rintro _ ⟨⟩
      exact hgap.resolve_left fun hne => hne rfl
    | cons first others => exact h.first

/-- The trees before a block that are read as the selector of a rule. -/
structure Leads (before : List Tree) : Prop extends IsSegment before where
  keyword : ∀ tree ∈ before.head?, tree.isAtKeyword = false

/-- Trees that neither end a segment nor stand at the start of one as a gap are
one segment. -/
theorem group_run {segment before : List Tree}
    (hbefore : ∀ tree ∈ before, tree.isCurly = false ∧
      tree.isDelimiter ';' = false)
    (hfirst : segment ≠ [] ∨ ∀ tree ∈ before.head?, tree.isGap = false)
    (rest : List Tree) :
    group segment (before ++ rest) =
      group (before.reverse ++ segment) rest := by
  induction before generalizing segment with
  | nil => rfl
  | cons tree before ih =>
    rw [List.forall_mem_cons] at hbefore
    have hgap : segment ≠ [] ∨ tree.isGap = false :=
      hfirst.imp_right fun h => h tree rfl
    rw [List.cons_append, group_other hgap hbefore.1.1 hbefore.1.2,
      ih hbefore.2 (Or.inl (List.cons_ne_nil _ _)), List.reverse_cons,
      List.append_assoc]
    rfl

/-- A segment and the block after it are one part. -/
theorem IsSegment.group_curly {before : List Tree} (h : IsSegment before)
    (opener : Word) (content : List Tree) (closer : Option Word)
    (rest : List Tree) :
    group [] (before ++ .block opener .curly content closer :: rest) =
      .block before opener (group [] content) closer :: group [] rest := by
  rw [group_run h.inside (Or.inr h.first), List.append_nil, Css.group_curly,
    List.reverse_reverse]

/-- A segment and the semicolon after it are one part. -/
theorem IsSegment.group_semicolon {first semicolon : Tree} {others : List Tree}
    (h : IsSegment (first :: others))
    (hsemicolon : semicolon.isDelimiter ';' = true) (rest : List Tree) :
    group [] (first :: (others ++ semicolon :: rest)) =
      .statement first (others ++ [semicolon]) :: group [] rest := by
  rw [← List.cons_append, group_run h.inside (Or.inr h.first), List.append_nil,
    Css.group_semicolon hsemicolon, List.reverse_cons, List.reverse_reverse]
  rfl

theorem atKeyword?_bare_eq_none {tree : Tree} {start stop : Nat} :
    (⟨tree.bare, start, stop⟩ : Piece).atKeyword? = none ↔
    tree.isAtKeyword = false := by
  cases tree with
  | block => exact ⟨fun _ => rfl, fun _ => rfl⟩
  | leaf word =>
    obtain ⟨⟨kind, text⟩, own⟩ := word
    cases kind <;> simp [Piece.atKeyword?, Tree.bare, Token.kind?,
      Tree.isAtKeyword, Lexeme.Kind.isAtKeyword]

/-- The part of a rule gives a rule with its selector. -/
theorem Leads.shapes_eq {before : List Tree} (h : Leads before) (opener : Word)
    (content : List Part) (closer : Option Word) :
    (Part.block before opener content closer).shapes =
      [.container (.generated {}) none (.rule (Text.trim (Tree.textOf before)))
        (shapesOf content)] := by
  have hhead : headOf (Tree.textOf before)
    (piecesOf 0 (Tree.textOf before).length before)
      (Tree.textOf before).length = .rule (Text.trim (Tree.textOf before)) := by
    cases before with
    | nil => rfl
    | cons first others =>
      rw [piecesOf, headOf, atKeyword?_bare_eq_none.mpr (h.keyword first rfl)]
      have hslice : Text.slice (Tree.textOf (first :: others)) 0
          (Tree.textOf (first :: others)).length =
            Tree.textOf (first :: others) := by
        rw [Text.slice, List.drop_zero, Nat.sub_zero, List.take_length]
      dsimp only
      rw [hslice]
  rw [Part.shapes, hhead]

/-! ## White space -/

/-- The first character of a plain text and of its normalization are white space
both or neither. -/
theorem head_space_of_plain {text : Text} (h : Plain text) (t : Text)
    (hne : text ≠ []) :
    (∀ c ∈ (normalizeBreaks (text ++ t)).head?, isSpace c = false) ↔
      ∀ c ∈ text.head?, isSpace c = false := by
  obtain ⟨c, rest, rfl⟩ := List.exists_cons_of_ne_nil hne
  rw [normalizeBreaks_append (Or.inl h.getLast?), normalizeBreaks_eq_of_plain h]
  by_cases hc : c = '\x00'
  · subst hc
    simp [isSpace]
  · simp [hc]

/-- The text consists of spaces, tabs and line breaks. -/
def White (text : Text) : Prop :=
  ∀ c ∈ text, c ∈ [' ', '\t', '\n', '\r', '\x0c']

instance (text : Text) : Decidable (White text) :=
  List.decidableBAll (fun c => c ∈ [' ', '\t', '\n', '\r', '\x0c']) text

theorem white_nil : White [] := nofun

theorem White.append {a b : Text} (ha : White a) (hb : White b) :
    White (a ++ b) := by
  intro c hc
  rw [List.mem_append] at hc
  exact hc.elim (ha c) (hb c)

theorem white_of_space {text : Text} (h : ∀ c ∈ text, isSpace c = true) :
    White text := by
  intro c hc
  have hcases : c = ' ' ∨ c = '\n' ∨ c = '\t' := by
    simpa [isSpace, or_assoc] using h c hc
  rcases hcases with rfl | rfl | rfl <;> decide

/-- A line break before white space. -/
theorem White.newline {text : Text} (h : White text) : White ('\n' :: text) :=
  List.forall_mem_cons.mpr ⟨by decide, h⟩

/-- The blanks of a text are spaces, tabs and line breaks. -/
def Ordinary (text : Text) : Prop :=
  ∀ c ∈ text, isBlank c = true → c ∈ [' ', '\t', '\n', '\r', '\x0c']

instance (text : Text) : Decidable (Ordinary text) :=
  List.decidableBAll
    (fun c => isBlank c = true → c ∈ [' ', '\t', '\n', '\r', '\x0c']) text

theorem Plain.ordinary {text : Text} (h : Plain text) : Ordinary text := by
  intro c hc hblank
  have hwhite : White [c] :=
    white_of_space (List.forall_mem_singleton.mpr (h c hc hblank))
  exact hwhite c (List.mem_singleton_self c)

/-- White space stays white space with other line breaks. -/
theorem White.rebreak {mark text : Text} (hmark : White mark) (h : White text) :
    White (mark.rebreak text) := by
  induction text with
  | nil => exact h
  | cons c rest ih =>
    have hrest := ih (List.forall_mem_cons.mp h).2
    by_cases hc : c = '\n'
    · rw [hc, Text.rebreak_break]
      exact hmark.append hrest
    · rw [Text.rebreak_other _ hc]
      exact List.forall_mem_cons.mpr ⟨(List.forall_mem_cons.mp h).1, hrest⟩

/-- White space is normalized to spaces, tabs and line feeds. -/
theorem White.isSpace {text : Text} (h : White text) :
    ∀ c ∈ normalizeBreaks text, isSpace c = true := by
  intro c hc
  rw [normalizeBreaks_eq_map, List.mem_map] at hc
  obtain ⟨stroke, hstroke, rfl⟩ := hc
  rcases stroke_cases hstroke with rfl | ⟨d, rfl⟩
  · rfl
  · have hmem : d ∈ text := by
      rw [← flatten_strokes text]
      exact List.mem_flatten.mpr ⟨_, hstroke, List.mem_singleton_self d⟩
    have hcases := h d hmem
    simp only [List.mem_cons, List.not_mem_nil, or_false] at hcases
    rcases hcases with rfl | rfl | rfl | rfl | rfl <;> rfl

/-- A text that starts with a blank and is ordinary is normalized to one that
starts with white space. -/
theorem Ordinary.head_normalizeBreaks {c : Char} (h : Ordinary [c])
    (hblank : isBlank c = true) (text : Text) :
    ∃ d, (normalizeBreaks (c :: text)).head? = some d ∧ isSpace d = true := by
  have hcases := h c (List.mem_singleton_self c) hblank
  simp only [List.mem_cons, List.not_mem_nil, or_false] at hcases
  rcases hcases with rfl | rfl | rfl | rfl | rfl
  · exact ⟨' ', rfl, rfl⟩
  · exact ⟨'\t', rfl, rfl⟩
  · exact ⟨'\n', rfl, rfl⟩
  · refine ⟨'\n', ?_, rfl⟩
    cases text with
    | nil => rfl
    | cons d rest =>
      by_cases hd : d = '\n'
      · rw [hd, normalizeBreaks]
        rfl
      · simp [normalizeBreaks, hd]
  · exact ⟨'\n', rfl, rfl⟩

/-- A word that is no white space does not start with white space. -/
theorem head_of_kind {lexeme : Lexeme} {text : Text}
    (h : lexeme ∈ Lexeme.ofText text) :
    lexeme.kind = .space ∨ ∀ c ∈ lexeme.text.head?, isSpace c = false := by
  obtain ⟨c, rest, rfl⟩ := Lexeme.exists_first_of_mem h
  rw [Lexeme.text_first]
  by_cases hc : isSpace c = true
  · left
    rw [Lexeme.first, Lexeme.read]
    dsimp only
    rw [if_pos hc]
  · right
    rintro d ⟨⟩
    simpa using hc

/-- A source whose first tree is no gap does not start with white space. -/
theorem head_of_first {source : Text} {tree : Tree} {rest : List Word}
    (h : words source = tree.words ++ rest) (hgap : tree.isGap = false)
    (hwhole : tree.Whole) :
    ∀ c ∈ (normalizeBreaks source).head?, isSpace c = false := by
  obtain ⟨word, own, hwords, hkind⟩ : ∃ word own, tree.words = word :: own ∧
      word.lexeme.kind ≠ .space := by
    cases tree with
    | leaf word =>
      refine ⟨word, [], rfl, fun hspace => ?_⟩
      simp [Tree.isGap, Tree.bare, Token.isGap, Token.isSpace, Token.kind?,
        hspace] at hgap
    | block opener bracket content closer =>
      refine ⟨opener, _, rfl, fun hspace => ?_⟩
      have hopener := hwhole.1
      rw [hspace] at hopener
      cases hopener
  have hmem : word ∈ words source := by
    rw [h, hwords]
    exact List.mem_cons_self
  have hlexeme := lexeme_mem_of_mem_words hmem
  have hhead := (head_of_kind hlexeme).resolve_left hkind
  obtain ⟨c, chars, hchars⟩ :=
    List.exists_cons_of_ne_nil (Lexeme.text_ne_nil_of_mem hlexeme)
  rw [← plainOf_words, h, hwords, List.cons_append, plainOf_cons, hchars]
  rwa [hchars] at hhead

/-- A text whose first tree is no gap does not start with white space. -/
theorem Spells.head {text t : Text} {tree : Tree} {rest : List Tree}
    (h : Spells text (tree :: rest) t) (hgap : tree.isGap = false) :
    ∀ c ∈ (normalizeBreaks (text ++ t)).head?, isSpace c = false := by
  have hwords := h.words_eq
  rw [Tree.wordsOf_cons, List.append_assoc] at hwords
  exact head_of_first hwords hgap h.whole.1

/-- White space is one word. -/
theorem spells_white {w t : Text} (hne : w ≠ []) (hw : White w)
    (ht : ∀ c ∈ (normalizeBreaks t).head?, isSpace c = false) :
    Spells w [.leaf (spelled .space w)] t := by
  have hspace := hw.isSpace
  obtain ⟨c, own, hown⟩ : ∃ c own, normalizeBreaks w = c :: own := by
    refine List.exists_cons_of_ne_nil fun hnil => hne ?_
    rw [normalizeBreaks_eq_map, List.map_eq_nil_iff] at hnil
    rw [← flatten_strokes w, hnil]
    rfl
  have hrest : (normalizeBreaks t).takeWhile isSpace = [] := by
    cases hnormal : normalizeBreaks t with
    | nil => rfl
    | cons d rest =>
      rw [hnormal] at ht
      rw [List.takeWhile_cons, ht d rfl]
      rfl
  have hcut : t.head? ≠ some '\n' := by
    intro hhead
    obtain ⟨rest, rfl⟩ := List.head?_eq_some_iff.mp hhead
    exact absurd (ht '\n' rfl) (by decide)
  rw [hown] at hspace
  have hlength : spaceLength (c :: own ++ normalizeBreaks t) =
      1 + own.length := by
    rw [spaceLength, List.takeWhile_append_of_pos hspace, hrest,
      List.append_nil, List.length_cons, Nat.add_comm]
  refine spells_word (Or.inr hcut) hown (Or.inl rfl) ?_
  rw [Lexeme.read]
  dsimp only
  rw [if_pos (hspace c List.mem_cons_self), ← List.cons_append, hlength]

/-! ## Heads of blocks -/

/-- The part of some trees before a block gives a container with this head. -/
def GivesHead (before : List Tree) (head : Head) : Prop :=
  ∀ opener content closer, (Part.block before opener content closer).shapes =
    [.container (.generated {}) none head (shapesOf content)]

/-- After white space, a text is read as the head of a block. -/
def ReadsAsHead (text : Text) (head : Head) : Prop :=
  ∀ w t : Text, w ≠ [] → White w →
    ∃ space before, Spells (w ++ (text ++ [' '])) (.leaf space :: before)
      ('\x7b' :: t) ∧
      space.lexeme.kind = .space ∧ IsSegment before ∧ GivesHead before head

/-- White space alone is the head of a rule without a selector. -/
theorem readsAsHead_nil : ReadsAsHead [] (.rule []) := by
  intro w t hne hw
  refine ⟨spelled .space (w ++ [' ']), [], ?_, rfl,
    ⟨List.forall_mem_nil _, by simp⟩,
    fun _ _ _ => rfl⟩
  exact spells_white (by simp) (hw.append (by decide))
    (by simp [normalizeBreaks, isSpace])

/-- A text that does not start with white space is read as a head by itself. -/
theorem readsAsHead_of_spells {text : Text} {head : Head} (hne : text ≠ [])
    (hplain : Plain text) (hstart : ∀ c ∈ text.head?, isSpace c = false)
    (h : ∀ t, ∃ before, Spells (text ++ [' ']) before ('\x7b' :: t) ∧
      IsSegment before ∧ GivesHead before head) :
    ReadsAsHead text head := by
  intro w t hw hspace
  obtain ⟨before, hspells, hsegment, hhead⟩ := h t
  refine ⟨spelled .space w, before, (spells_white hw hspace ?_).append hspells,
    rfl, hsegment, hhead⟩
  rw [List.append_assoc]
  exact (head_space_of_plain hplain _ hne).mpr hstart

/-- A text whose trees are read as the selector of a rule is one by itself. -/
theorem readsAsHead_of_leads {selector : Text} (hne : selector ≠ [])
    (hplain : Plain selector) (htrim : Text.trim selector = selector)
    (hstart : ∀ c ∈ selector.head?, isSpace c = false)
    (h : ∀ t, ∃ before, Spells (selector ++ [' ']) before ('\x7b' :: t) ∧
      Leads before) :
    ReadsAsHead selector (.rule selector) := by
  refine readsAsHead_of_spells hne hplain hstart fun t => ?_
  obtain ⟨before, hspells, hleads⟩ := h t
  refine ⟨before, hspells, hleads.toIsSegment, fun opener content closer => ?_⟩
  have htext : Text.trim ([] ++ (selector ++ [' '])) = selector :=
    Text.trim_of_blanks htrim (List.forall_mem_nil _) (by simp [isBlank])
  rw [hleads.shapes_eq, hspells.textOf_eq,
    ← List.nil_append (selector ++ [' ']), htext]

/-- What is read as an at-keyword with the space after it is the head of an
at-rule. -/
theorem readsAsHead_keyword {text name : Text} {c : Char} {rest : Text}
    (htext : text = c :: rest) (hplain : Plain (text ++ [' ']))
    (hkept : normalizeBreaks (text ++ [' ']) = text ++ [' '])
    (hspace : isSpace c = false)
    (hread : ∀ t, Lexeme.ofText ((text ++ [' ']) ++ '\x7b' :: t) =
      ⟨.atKeyword name, text ++ [' ']⟩ :: Lexeme.ofText ('\x7b' :: t)) :
    ReadsAsHead text (.atRule name [] true) := by
  subst htext
  refine readsAsHead_of_spells (List.cons_ne_nil _ _) (plain_append.mp hplain).1
    (by rintro _ ⟨⟩; exact hspace) fun t => ?_
  have hword : Lexeme.plainOf [⟨.atKeyword name, c :: rest ++ [' ']⟩] =
      c :: rest ++ [' '] := by
    simp
  refine ⟨[.leaf (same ⟨.atKeyword name, c :: rest ++ [' ']⟩)],
    spells_of_lexemes hplain hkept hword (hread _) rfl
      ⟨whole_leaf (Or.inr (Or.inl rfl)), trivial⟩, ⟨?_, ?_⟩, fun _ _ _ => ?_⟩
  · rw [List.forall_mem_singleton]
    exact ⟨rfl, rfl⟩
  · rintro _ ⟨⟩
    rfl
  · have hslice : ∀ text : Text, Text.slice text text.length text.length =
        [] := by
      intro text
      rw [Text.slice, Nat.sub_self, List.take_zero]
    rw [Part.shapes, piecesOf, endOf_nil, headOf]
    dsimp only
    rw [hslice]
    rfl

/-! ## Declarations -/

/-- Before a colon, the text is read as an identifier. -/
def ReadsAsProperty (text : Text) : Prop :=
  ∀ t, ∃ name, Spells text [.leaf (spelled (.identifier name) text)] (':' :: t)

/-- A property does not start with white space. -/
theorem ReadsAsProperty.head {text : Text} (h : ReadsAsProperty text)
    (t : Text) :
    ∀ c ∈ (normalizeBreaks (text ++ ':' :: t)).head?, isSpace c = false := by
  obtain ⟨name, hname⟩ := h t
  exact hname.head rfl

/-- A colon as a word. -/
def colon : Word := same ⟨.delimiter, [':']⟩

/-- A semicolon as a word. -/
def semicolon : Word := same ⟨.delimiter, [';']⟩

/-- The pieces of a segment that starts with an identifier and a colon. -/
theorem piecesOf_declaration (word : Word) (middle : List Tree) (stop : Nat) :
    piecesOf 0 stop
      (.leaf word :: (.leaf colon :: (middle ++ [.leaf semicolon]))) =
      ⟨(Tree.leaf word).bare, 0, word.text.length⟩ ::
        (⟨(Tree.leaf colon).bare, word.text.length,
          (word.text ++ [':']).length⟩ ::
          piecesOf (word.text ++ [':']).length
            ((word.text ++ [':']).length + (Tree.textOf middle).length)
              middle) ++
        [⟨(Tree.leaf semicolon).bare,
          (word.text ++ [':']).length + (Tree.textOf middle).length,
            stop⟩] := by
  have hend : ∀ after : Nat, endOf stop after (middle ++ [.leaf semicolon]) =
      after := by
    intro after
    cases middle <;> rfl
  have hword : (Tree.leaf word).text = word.text := by simp [Tree.text]
  have hcolon : (Tree.leaf colon).text = [':'] := rfl
  rw [piecesOf, piecesOf, piecesOf_concat, endOf_cons, hend, hword, hcolon,
    Nat.zero_add, List.length_append]
  rfl

/-- A segment that starts with an identifier and a colon is a declaration. -/
theorem shapes_declaration {word : Word} {name : Text}
    (hword : word.lexeme.kind = .identifier name) (middle : List Tree) :
    (Part.statement (.leaf word)
      (.leaf colon :: (middle ++ [.leaf semicolon]))).shapes =
      [.leaf (.generated {}) (.declaration word.text
        (splitImportant (Text.trim (removeComments (Tree.textOf middle)))).1
        (splitImportant
          (Text.trim (removeComments (Tree.textOf middle)))).2)] := by
  have htext : Tree.textOf
    (.leaf word :: (.leaf colon :: (middle ++ [.leaf semicolon]))) =
      (word.text ++ [':']) ++ Tree.textOf middle ++ [';'] := by
    have hword : (Tree.leaf word).text = word.text := by simp [Tree.text]
    rw [Tree.textOf_cons, Tree.textOf_cons, Tree.textOf_append, hword]
    simp [Tree.text, colon, semicolon, same]
  have hkind : (Tree.leaf word).bare.kind? = some (.identifier name) := by
    rw [Tree.bare, Token.kind?, hword]
  have hbody := Text.slice_of_append (word.text ++ [':'])
    (Tree.textOf middle) [';']
  have hproperty :
    Text.slice (word.text ++ [':'] ++ Tree.textOf middle ++ [';']) 0
      word.text.length = word.text := by
    have hslice :=
      Text.slice_of_append [] word.text ([':'] ++ Tree.textOf middle ++ [';'])
    simpa using hslice
  have hcolon : ∀ start stop rest,
      declarationColon? (⟨(Tree.leaf colon).bare, start, stop⟩ :: rest) =
        some stop :=
    fun _ _ _ => rfl
  have hsemicolon : (Tree.leaf semicolon).bare.isDelimiter ';' = true := rfl
  rw [Part.shapes, piecesOf_declaration, htext, List.cons_append, segmentNodes,
    statementNode, List.getLast?_append, List.getLast?_singleton,
    Option.some_or, Option.getD_some, List.cons_append]
  simp only [Piece.atKeyword?, Piece.isIdentifier, hkind, hsemicolon, hcolon,
    if_true, hbody, hproperty]
  rfl

/-! ## Texts that are read as nodes -/

/-- Between segments, a text is read as some nodes when `t` follows it. -/
def ReadsAs (text : Text) (nodes : List Node) (t : Text) : Prop :=
  ∃ trees, Spells text trees t ∧
    ∀ rest, shapesOf (group [] (trees ++ rest)) =
      nodes ++ shapesOf (group [] rest)

theorem ReadsAs.append {a b t : Text} {as bs : List Node}
    (ha : ReadsAs a as (b ++ t)) (hb : ReadsAs b bs t) :
    ReadsAs (a ++ b) (as ++ bs) t := by
  obtain ⟨first, hfirst, hshapes⟩ := ha
  obtain ⟨second, hsecond, hshapes'⟩ := hb
  refine ⟨first ++ second, hfirst.append hsecond, fun rest => ?_⟩
  rw [List.append_assoc, hshapes, hshapes', List.append_assoc]

/-- White space between segments belongs to no node. -/
theorem shapesOf_group_space {space : Word} (h : space.lexeme.kind = .space)
    (rest : List Tree) :
    shapesOf (group [] (.leaf space :: rest)) = shapesOf (group [] rest) := by
  obtain ⟨⟨kind, text⟩, own⟩ := space
  dsimp only at h
  subst h
  rw [group_gap rfl]
  rfl

theorem readsAs_white {w t : Text} (hne : w ≠ []) (hw : White w)
    (ht : ∀ c ∈ (normalizeBreaks t).head?, isSpace c = false) :
    ReadsAs w [] t :=
  ⟨[.leaf (spelled .space w)], spells_white hne hw ht, shapesOf_group_space rfl⟩

theorem spells_colon (t : Text) : Spells [':'] [.leaf colon] t := by
  have hfirst : Lexeme.read ':' ([] ++ normalizeBreaks t) =
      (.delimiter, 1 + 0) :=
    Lexeme.read_colon _
  have hread : Lexeme.ofText ([':'] ++ normalizeBreaks t) =
      [⟨.delimiter, [':']⟩] ++ Lexeme.ofText (normalizeBreaks t) :=
    Lexeme.ofText_of_read hfirst
  exact spells_of_lexemes (by decide) rfl rfl hread rfl
    ⟨whole_leaf (Or.inr (Or.inr rfl)), trivial⟩

theorem spells_semicolon (t : Text) : Spells [';'] [.leaf semicolon] t := by
  have hfirst : Lexeme.read ';' ([] ++ normalizeBreaks t) =
      (.delimiter, 1 + 0) :=
    Lexeme.read_semicolon _
  have hread : Lexeme.ofText ([';'] ++ normalizeBreaks t) =
      [⟨.delimiter, [';']⟩] ++ Lexeme.ofText (normalizeBreaks t) :=
    Lexeme.ofText_of_read hfirst
  exact spells_of_lexemes (by decide) rfl rfl hread rfl
    ⟨whole_leaf (Or.inr (Or.inr rfl)), trivial⟩

/-- A property, a colon, a space and a value that a semicolon ends are a
declaration. -/
theorem ReadsAsProperty.readsAs {property body t : Text} {middle : List Tree}
    (h : ReadsAsProperty property)
    (hbody : Spells ([' '] ++ body) middle (';' :: t))
    (hinside : ∀ tree ∈ middle, tree.isCurly = false ∧ tree.isDelimiter ';' =
      false) :
    ReadsAs (property ++ ([':'] ++ ([' '] ++ body ++ [';'])))
      [.leaf (.generated {}) (.declaration property
        (splitImportant (Text.trim (removeComments ([' '] ++ body)))).1
        (splitImportant (Text.trim (removeComments ([' '] ++ body)))).2)]
          t := by
  obtain ⟨name, hname⟩ := h ([' '] ++ body ++ [';'] ++ t)
  have hspells :=
    hname.append ((spells_colon ([' '] ++ body ++ [';'] ++ t)).append
    (hbody.append (spells_semicolon t)))
  refine ⟨_, hspells, fun rest => ?_⟩
  have hsegment : IsSegment (.leaf (spelled (.identifier name) property) ::
      (.leaf colon :: middle)) := by
    refine ⟨?_, ?_⟩
    · rw [List.forall_mem_cons, List.forall_mem_cons]
      exact ⟨⟨rfl, rfl⟩, ⟨rfl, rfl⟩, hinside⟩
    · rintro _ ⟨⟩
      rfl
  have hkind : (spelled (.identifier name) property).lexeme.kind = .identifier
      name := rfl
  have hshapes := shapes_declaration hkind middle
  rw [hbody.textOf_eq] at hshapes
  have htrees : [.leaf (spelled (.identifier name) property)] ++
      ([.leaf colon] ++ (middle ++ [.leaf semicolon])) ++ rest =
        Tree.leaf (spelled (.identifier name) property) ::
          ((Tree.leaf colon :: middle) ++ Tree.leaf semicolon :: rest) := by
    simp
  rw [htrees, hsegment.group_semicolon rfl, shapesOf_cons]
  exact congrArg (· ++ _) hshapes

/-- A head and a block of some nodes after white space are a container. -/
theorem ReadsAsHead.spells_block {text w content t : Text} {head : Head}
    {children : List Node} (h : ReadsAsHead text head) (hne : w ≠ [])
    (hw : White w) (hcontent : ReadsAs content children ('\x7d' :: t)) :
    ∃ before opener inside closer,
      Spells (w ++ (text ++ [' ']) ++ (['\x7b'] ++ content ++ ['\x7d']))
        (before ++ [.block opener .curly inside closer]) t ∧
      ∀ rest, shapesOf
        (group [] (before ++ [.block opener .curly inside closer] ++ rest)) =
        .container (.generated {}) none head children :: shapesOf
          (group [] rest) := by
  obtain ⟨inside, hinside, hshapes⟩ := hcontent
  have hopen : ∀ u, Lexeme.ofText (['\x7b'] ++ u) =
      ⟨.opening .curly, ['\x7b']⟩ :: Lexeme.ofText u := fun _ => rfl
  have hblock := Css.spells_block (by decide) rfl hopen hinside
  obtain ⟨space, before, hbefore, hspace, hsegment, hhead⟩ :=
    h w (content ++ ['\x7d'] ++ t) hne hw
  refine ⟨.leaf space :: before, _, inside, _, hbefore.append hblock,
    fun rest => ?_⟩
  have hchildren := hshapes []
  rw [List.append_nil, group_nil, shapesOf_nil, List.append_nil] at hchildren
  rw [List.cons_append, List.cons_append, shapesOf_group_space hspace,
    List.append_assoc, List.singleton_append, hsegment.group_curly,
    shapesOf_cons, hhead, hchildren]
  rfl

theorem ReadsAsHead.readsAs {text w content t : Text} {head : Head}
    {children : List Node} (h : ReadsAsHead text head) (hne : w ≠ [])
    (hw : White w) (hcontent : ReadsAs content children ('\x7d' :: t)) :
    ReadsAs (w ++ (text ++ [' ']) ++ (['\x7b'] ++ content ++ ['\x7d']))
      [.container (.generated {}) none head children] t := by
  obtain ⟨before, opener, inside, closer, hspells, hshapes⟩ :=
    h.spells_block hne hw hcontent
  exact ⟨_, hspells, hshapes⟩

end OklchGate.Css
