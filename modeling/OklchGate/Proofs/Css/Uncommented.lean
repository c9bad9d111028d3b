import OklchGate.Proofs.Css.ColorTokens
import OklchGate.Proofs.Css.Values

/-!
# Values without their comments

The reader takes the comments out of the text of a value with a search for their
marks.  Where the text holds nothing but characters of colors and comments, this
leaves what the tokens of the value write without the comments among them.

There are two groups.

* `Tree.uncommented` and `Tree.writtenOf`.  `Tree.exists_foreign` says that a
  tree with another character holds it where no comment starts.
* `removeComments_own`, by induction on the trees, and `IsReadFrom.isHexColor`.
-/

namespace OklchGate.Css

open Text

/-! ## The text of trees without comments -/

namespace Tree

/-- Some trees, the comments among them left out. -/
def uncommented (trees : List Tree) : List Tree :=
  trees.filter fun tree => !tree.comment?.isSome

/-- The source text of some trees, the comments among them left out. -/
def writtenOf (trees : List Tree) : Text := textOf (uncommented trees)

@[simp] theorem writtenOf_nil : writtenOf [] = [] := rfl

theorem writtenOf_comment {tree : Tree} (h : tree.comment?.isSome = true)
    (rest : List Tree) :
    writtenOf (tree :: rest) = writtenOf rest := by
  rw [writtenOf, uncommented, List.filter_cons_of_neg (by simp [h]), writtenOf,
    uncommented]

theorem writtenOf_other {tree : Tree} (h : tree.comment? = none)
    (rest : List Tree) :
    writtenOf (tree :: rest) = tree.text ++ writtenOf rest := by
  rw [writtenOf, uncommented, List.filter_cons_of_pos (by simp [h]),
    textOf_cons, writtenOf,
    uncommented]

@[simp] theorem writtenOf_append (a b : List Tree) :
    writtenOf (a ++ b) = writtenOf a ++ writtenOf b := by
  rw [writtenOf, uncommented, List.filter_append, textOf_append, writtenOf,
    writtenOf, uncommented, uncommented]

/-- A gap that is no comment is white space. -/
theorem white_of_isGap {source : Text} {tree : Tree} (h : Lawful source [tree])
    (hgap : tree.isGap = true) (hcomment : tree.comment? = none) :
    White tree.text := by
  rcases white_or_remark h hgap with hwhite | ⟨hsome, _⟩
  · exact hwhite
  · rw [hcomment] at hsome
    cases hsome

/-- A comment is a comment in the source. -/
theorem remark_of_comment {source : Text} {tree : Tree} {own : Text}
    (h : Lawful source [tree]) (hcomment : tree.comment? = some own) :
    Remark tree.text := by
  cases tree with
  | block => cases hcomment
  | leaf word =>
    have hword : word ∈ Css.words source := h.mem word (by simp)
    have hsound : word.Sound := h.faultless word (by simp [leaves])
    have htext : (leaf word).text = word.text := by simp [text]
    rw [htext]
    obtain ⟨⟨kind, plain⟩, text⟩ := word
    cases kind with
    | comment closed =>
      cases closed with
      | true => exact Word.remark_of_kind hword rfl
      | false => exact absurd rfl hsound.2
    | _ => cases hcomment

/-- Gaps are written as white space. -/
theorem white_writtenOf {source : Text} {gaps : List Tree}
    (h : Lawful source gaps) (hgaps : ∀ tree ∈ gaps, tree.isGap = true) :
    White (writtenOf gaps) := by
  induction gaps with
  | nil => exact white_nil
  | cons tree rest ih =>
    rw [← List.singleton_append, lawful_append] at h
    rw [List.forall_mem_cons] at hgaps
    cases hcomment : tree.comment? with
    | some text =>
      rw [writtenOf_comment (by rw [hcomment]; rfl)]
      exact ih h.2 hgaps.2
    | none =>
      rw [writtenOf_other hcomment]
      exact (white_of_isGap h.1 hgaps.1 hcomment).append (ih h.2 hgaps.2)

/-- Colors hold no bar. -/
theorem isBar_of_isColorChar {c : Char} (h : isColorChar c = true) :
    isBar c = false := by
  refine Bool.eq_false_iff.mpr fun hbar => ?_
  have hall : ['\\', '(', '"', '\'',
      '<'].all (fun d => !isColorChar d) = true := by decide
  have hmem : c ∈ ['\\', '(', '"', '\'', '<'] := by simpa [isBar] using hbar
  have hnot := List.all_eq_true.mp hall c hmem
  rw [h] at hnot
  cases hnot

/-- A tree that is no gap starts with a word that is neither white space nor a
comment. -/
theorem kind_of_head {tree : Tree} {word : Word} {others : List Word}
    (hmatched : MatchedAll [tree]) (hgap : tree.isGap = false)
    (hwords : tree.words = word :: others) :
    word.lexeme.kind ≠ .space ∧ ∀ closed,
      word.lexeme.kind ≠ .comment closed := by
  cases tree with
  | block opener bracket content closer =>
    cases hwords
    rw [hmatched.1.1]
    exact ⟨nofun, nofun⟩
  | leaf own =>
    cases hwords
    obtain ⟨⟨kind, text⟩, own⟩ := word
    cases kind with
    | space | comment => cases hgap
    | _ => exact ⟨nofun, nofun⟩

/-- A slash that is no comment has no star behind it. -/
theorem head?_of_slash {word : Word} {others : List Word}
    (hexact : Exact (word :: others))
    (hcomment : ∀ closed, word.lexeme.kind ≠ .comment closed)
    (hslash : word.lexeme.text = ['/']) :
    (Word.textOf others).head? ≠ some '*' := by
  intro hstar
  have hplain : (Word.plainOf others).head? = some '*' := by
    cases others with
    | nil => cases hstar
    | cons next rest =>
      have hnext : next ∈ Css.words (Word.textOf (word :: next :: rest)) := by
        rw [hexact]
        exact List.mem_cons_of_mem _ List.mem_cons_self
      obtain ⟨c, own, hown⟩ :=
        List.exists_cons_of_ne_nil (Word.text_ne_nil hnext)
      rw [Word.textOf_cons, hown, List.cons_append, List.head?_cons,
        ← List.head?_cons (l := own), ← hown,
        Word.head?_text hnext (by decide) (by decide) (by decide) (by decide)
          (by decide)] at hstar
      rw [Word.plainOf_cons, List.head?_append, hstar, Option.some_or]
  obtain ⟨more, hmore⟩ := List.head?_eq_some_iff.mp hplain
  have hlexemes := hexact.ofText_eq
  rw [Word.plainOf_cons, hslash, hmore, List.singleton_append,
    Lexeme.ofText_cons, List.map_cons] at hlexemes
  refine hcomment (readComment more).2 ?_
  rw [← (List.cons.inj hlexemes).1, Lexeme.first, Lexeme.read_mark]

/-- A tree that is no comment and holds another character than those of colors:
nothing in front of this character is taken for a comment. -/
theorem exists_foreign {source : Text} {tree : Tree} {after : List Word}
    (hexact : Exact (tree.words ++ after)) (hlawful : Lawful source [tree])
    (hcomment : tree.comment? = none)
    (h : ¬ ∀ c ∈ tree.text, isColorChar c = true) :
    ∃ front c back, tree.text = front ++ c :: back ∧
      (∀ d ∈ front, isColorChar d = true) ∧ isColorChar c = false ∧ c ≠ '\x7d' ∧
      (c = '/' → (back ++ Word.textOf after).head? ≠ some '*') := by
  have hgap : tree.isGap = false := Bool.eq_false_iff.mpr fun hgap =>
    h (white_of_isGap hlawful hgap hcomment).blanks.chars
  obtain ⟨word, others, hwords, hmem, hcloser⟩ := hlawful.head
  obtain ⟨hspace, hcomment⟩ := kind_of_head hlawful.matched hgap hwords
  have hforeign : ∃ c ∈ word.text, isColorChar c = false := by
    cases tree with
    | leaf own =>
      cases hwords
      simpa [text] using h
    | block opener bracket content closer =>
      cases hwords
      refine ⟨bracket.opener, Word.mem_text_of_opening hmem hlawful.matched.1.1,
        ?_⟩
      cases bracket <;> decide
  obtain ⟨front, c, rest, htext, hfront, hc⟩ : ∃ front c rest,
    word.text = front ++ c :: rest ∧
      (∀ d ∈ front, isColorChar d = true) ∧ isColorChar c = false := by
    obtain ⟨c, hc⟩ : ∃ c, List.find? (fun c => !isColorChar c) word.text =
        some c :=
      Option.isSome_iff_exists.mp
        (List.find?_isSome.mpr (by simpa using hforeign))
    obtain ⟨hc, front, rest, htext, hfront⟩ :=
      List.find?_eq_some_iff_append.mp hc
    exact ⟨front, c, rest, htext, by simpa using hfront, by simpa using hc⟩
  refine ⟨front, c, rest ++ Word.textOf others, ?_, hfront, hc, ?_⟩
  · rw [text, hwords, Word.textOf_cons, htext, List.append_assoc,
      List.cons_append]
  rcases Word.tight_of_mem hmem hspace hcomment with
    ⟨d, hd, hlexeme, hone⟩ | htight
  · -- The word is this one character.
    obtain ⟨rfl, hcons⟩ : front = [] ∧ c :: rest = [d] := by
      rw [hone] at htext
      exact (List.append_eq_singleton_iff.mp htext.symm).resolve_right
        fun hnil => absurd hnil.2 (List.cons_ne_nil _ _)
    obtain ⟨rfl, rfl⟩ := List.cons.inj hcons
    constructor
    · rintro rfl
      exact hcloser (Lexeme.kind_of_closer (b := .curly)
        (lexeme_mem_of_mem_words hmem) hlexeme)
    · rintro rfl
      rw [List.nil_append, ← Word.textOf_append]
      rw [hwords, List.cons_append] at hexact
      exact head?_of_slash hexact hcomment hlexeme
  · rw [htext] at htight
    have hother := htight.first fun d hd => isBar_of_isColorChar (hfront d hd)
    constructor
    · rintro rfl
      exact absurd hother (by decide)
    · rintro rfl
      exact absurd hother (by decide)

end Tree

/-- A closing brace at the end of a text does not belong to a text before it
that ends otherwise. -/
theorem exists_of_append_braces {a b own braces : Text}
    (h : a ++ b = own ++ braces) (ha : a.getLast? ≠ some '\x7d')
    (hbraces : ∀ c ∈ braces, c = '\x7d') :
    ∃ rest, own = a ++ rest ∧ b = rest ++ braces := by
  rcases List.append_eq_append_iff.mp h with
    ⟨rest, hown, hb⟩ | ⟨rest, ha', hbraces'⟩
  · exact ⟨rest, hown, hb⟩
  · rcases List.eq_nil_or_concat rest with rfl | ⟨front, last, rfl⟩
    · rw [List.append_nil] at ha'
      refine ⟨[], by rw [ha', List.append_nil], ?_⟩
      rw [hbraces', List.nil_append, List.nil_append]
    · have hlast : last = '\x7d' := hbraces last (by rw [hbraces']; simp)
      rw [ha', hlast, List.concat_eq_append, ← List.append_assoc,
        List.getLast?_concat] at ha
      exact absurd rfl ha

/-! ## What is read -/

/-- A character that does not start a comment stays. -/
theorem mem_removeComments {front rest : Text} {c : Char} (hfront : '/' ∉ front)
    (hc : c = '/' → rest.head? ≠ some '*') :
    c ∈ removeComments (front ++ c :: rest) := by
  rw [removeComments_append hfront]
  refine List.mem_append_right _ ?_
  by_cases hslash : c = '/'
  · rw [hslash, removeComments_slash (hc hslash)]
    exact List.mem_cons_self
  · rw [removeComments_other hslash]
    exact List.mem_cons_self

/-- What the reader leaves of the text of a value is what its trees write
without their comments, or neither of the two holds characters of colors
only. -/
theorem removeComments_own {source own braces : Text} {core : List Tree}
    {after : List Word} (hexact : Exact (Tree.wordsOf core ++ after))
    (hlawful : Tree.Lawful source core)
    (htext : Tree.textOf core = own ++ braces)
    (hbraces : ∀ c ∈ braces, c = '\x7d') :
    removeComments own = Tree.writtenOf core ∨
      (∃ c ∈ removeComments own, isColorChar c = false) ∧
        ∃ c ∈ Tree.writtenOf core, isColorChar c = false := by
  induction core generalizing own with
  | nil =>
    rw [(List.append_eq_nil_iff.mp htext.symm).1]
    exact Or.inl removeComments_nil
  | cons tree rest ih =>
    rw [Tree.wordsOf_cons, List.append_assoc] at hexact
    rw [← List.singleton_append, Tree.lawful_append] at hlawful
    rw [Tree.textOf_cons] at htext
    cases hcomment : tree.comment? with
    | some comment =>
      have hremark : Remark tree.text :=
        Tree.remark_of_comment hlawful.1 hcomment
      obtain ⟨others, rfl, hrest⟩ :=
        exists_of_append_braces htext hremark.getLast?_ne hbraces
      rw [removeComments_remark hremark,
        Tree.writtenOf_comment (by rw [hcomment]; rfl)]
      exact ih hexact.right hlawful.2 hrest
    | none =>
      rw [Tree.writtenOf_other hcomment]
      by_cases hchars : ∀ c ∈ tree.text, isColorChar c = true
      · have hother : ∀ c, isColorChar c = false → c ∉ tree.text := by
          intro c hc hmem
          rw [hchars c hmem] at hc
          cases hc
        obtain ⟨others, rfl, hrest⟩ := exists_of_append_braces htext
          (fun hlast => hother _ (by decide) (List.mem_of_getLast? hlast))
            hbraces
        rw [removeComments_append (hother _ (by decide))]
        rcases ih hexact.right hlawful.2 hrest with
          h | ⟨⟨c, hc, hown⟩, d, hd, hwritten⟩
        · exact Or.inl (congrArg (tree.text ++ ·) h)
        · exact Or.inr ⟨⟨c, List.mem_append_right _ hc, hown⟩, d,
            List.mem_append_right _ hd, hwritten⟩
      · obtain ⟨front, c, back, hsplit, hfront, hc, hbrace, hslash⟩ :=
          Tree.exists_foreign hexact hlawful.1 hcomment hchars
        have hfrontSlash : '/' ∉ front :=
          fun hmem => absurd (hfront _ hmem) (by decide)
        have hassoc : (front ++ [c]) ++ (back ++ Tree.textOf rest) =
            own ++ braces := by
          rw [← htext, hsplit]
          simp
        obtain ⟨others, rfl, hrest⟩ := exists_of_append_braces hassoc
          (by rw [List.getLast?_concat]; simpa using hbrace) hbraces
        have hstar : c = '/' → others.head? ≠ some '*' := by
          intro hmark hstar
          refine hslash hmark ?_
          rw [Word.textOf_append, ← List.append_assoc]
          change (back ++ Tree.textOf rest ++ _).head? = _
          rw [hrest, List.append_assoc, List.head?_append, hstar,
            Option.some_or]
        right
        refine ⟨⟨c, ?_, hc⟩, c, ?_, hc⟩
        · rw [List.append_assoc, List.singleton_append]
          exact mem_removeComments hfrontSlash hstar
        · rw [hsplit]
          simp

/-- The value that is read from some trees is a hex color exactly when the text
of the trees without their comments spells one. -/
theorem IsReadFrom.isHexColor {source : Text} {trees : List Tree}
    {after : List Word} {answer : Text × Bool} (h : IsReadFrom trees answer)
    (hexact : Exact (Tree.wordsOf trees ++ after))
    (hlawful : Tree.Lawful source trees) :
    isHexColor answer.1 = true ↔ SpellsColor (Tree.writtenOf trees) := by
  obtain ⟨core, gaps, own, braces, rfl, hgaps, htext, hbraces, rfl⟩ := h
  rw [Tree.wordsOf_append, List.append_assoc] at hexact
  rw [Tree.lawful_append] at hlawful
  rw [isHexColor_iff_spells, Tree.writtenOf_append,
    spellsColor_blanks (Tree.white_writtenOf hlawful.2 hgaps).blanks]
  rcases removeComments_own hexact hlawful.1 htext hbraces with
    h | ⟨⟨c, hc, hown⟩, d, hd, hwritten⟩
  · rw [h]
  · constructor <;> intro hspells
    · rw [hspells.chars c hc] at hown
      cases hown
    · rw [hspells.chars d hd] at hwritten
      cases hwritten

end OklchGate.Css
