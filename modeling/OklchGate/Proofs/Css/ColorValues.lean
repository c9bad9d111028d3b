import OklchGate.Proofs.Css.Legible
import OklchGate.Proofs.Css.Uncommented

/-!
# Values that are colors

The reader decides on the tokens of a declaration, but it cuts its value out as
text, takes the comments out of this text, trims it and splits the mark of
importance off.  So a value can be a hex color although its tokens are none, and
the other way round.  This module says exactly when.

There are two groups.

* `IsColor` for trees and its relation to the text: `IsColor.spells`,
  `IsColor.regular` and `Regular.isColor`.
* `isHexColor_iff_of_parse`, which says it of the declarations of a style sheet.
-/

namespace OklchGate.Css

open Text

/-! ## Colors as text and as trees -/

/-- Without white space and comments, the trees are a hash that writes a hex
color, and the mark of importance may stand behind it. -/
def IsColor (trees : List Tree) : Prop :=
  ∃ word rest, trees.filter (fun tree => !tree.isGap) = .leaf word :: rest ∧
    word.IsColor ∧
    (rest = [] ∨ ∃ bang name, rest = [bang, .leaf name] ∧
      bang.isDelimiter '!' = true ∧ name.IsImportant)

/-- The text of the trees is in ASCII, its blanks are white space, and no two
words meet when the comments are left out. -/
structure Regular (trees : List Tree) : Prop where
  ascii : ∀ c ∈ Tree.writtenOf trees, c.toNat < 128
  white : ∀ c ∈ Tree.writtenOf trees, isBlank c = true → c ∈ [' ', '\t', '\n',
    '\r', '\x0c']
  apart : Apart (Tree.uncommented trees)

namespace Tree

variable {source : Text} {trees : List Tree}

theorem mem_textOf {c : Char} :
    c ∈ textOf trees ↔ ∃ tree ∈ trees, c ∈ tree.text := by
  induction trees with
  | nil => simp
  | cons tree rest ih => simp [ih]

theorem mem_uncommented {tree : Tree} :
    tree ∈ uncommented trees ↔ tree ∈ trees ∧ tree.comment? = none := by
  simp [uncommented]

/-- Comments are gaps. -/
theorem comment?_of_isGap {tree : Tree} (h : tree.isGap = false) :
    tree.comment? = none := by
  have hgap : (tree.bare.isSpace || tree.comment?.isSome) = false := h
  rw [Bool.or_eq_false_iff] at hgap
  exact Option.not_isSome_iff_eq_none.mp
    (by rw [hgap.2]; exact Bool.false_ne_true)

theorem filter_uncommented (trees : List Tree) :
    (uncommented trees).filter (fun tree => !tree.isGap) =
      trees.filter fun tree => !tree.isGap := by
  rw [uncommented, List.filter_filter]
  refine List.filter_congr fun tree _ => ?_
  cases hgap : tree.isGap with
  | true => rfl
  | false => rw [comment?_of_isGap hgap]; rfl

/-- A tight text of characters of colors is solid if its blanks are white
space. -/
theorem isSolid_of_tight {text : Text} (htight : Tight text)
    (hchars : ∀ c ∈ text, isColorChar c = true)
    (hwhite : ∀ c ∈ text, isBlank c = true → c ∈ [' ', '\t', '\n', '\r',
      '\x0c']) :
    ∀ c ∈ text, isSolid c = true := by
  intro c hc
  have hloose : isLoose c = false :=
    htight.isLoose (fun d hd => isBar_of_isColorChar (hchars d hd)) c hc
  have hblank : isBlank c = false := Bool.eq_false_iff.mpr fun hblank => by
    have hall : [' ', '\t', '\n', '\r', '\x0c'].all isLoose = true := by decide
    rw [List.all_eq_true.mp hall c (hwhite c hc hblank)] at hloose
    cases hloose
  have hbang : c ≠ '!' := by
    rintro rfl
    cases hloose
  rw [isSolid, hblank, decide_eq_true hbang]
  rfl

/-- Trees that hold characters of colors only, and no blanks but white space,
are simple. -/
theorem simple_of_written (hlawful : Lawful source trees)
    (hchars : ∀ c ∈ writtenOf trees, isColorChar c = true)
    (hwhite : ∀ c ∈ writtenOf trees, isBlank c = true → c ∈ [' ', '\t', '\n',
      '\r', '\x0c']) :
    ∀ tree ∈ uncommented trees, Simple source tree := by
  intro tree htree
  obtain ⟨hmem, hcomment⟩ := mem_uncommented.mp htree
  have hone := hlawful.singleton hmem
  have hwritten : ∀ c ∈ tree.text, c ∈ writtenOf trees :=
    fun c hc => mem_textOf.mpr ⟨tree, htree, hc⟩
  obtain ⟨word, others, hwords, hword, _⟩ := hone.head
  cases hgap : tree.isGap with
  | true =>
    refine .gap hgap ?_ (white_of_isGap hone hgap hcomment)
    rw [text, hwords, Word.textOf_cons]
    exact List.append_ne_nil_of_left_ne_nil (Word.text_ne_nil hword) _
  | false =>
    obtain ⟨hspace, hremark⟩ := kind_of_head hone.matched hgap hwords
    cases tree with
    | block opener bracket content closer =>
      cases hwords
      have hopener := hchars _ (hwritten _ (List.mem_append_left _
        (Word.mem_text_of_opening hword hone.matched.1.1)))
      cases bracket <;> exact absurd hopener (by decide)
    | leaf own =>
      cases hwords
      rw [text_leaf] at hwritten
      rcases Word.tight_of_mem hword hspace hremark with
        ⟨c, hc, hlexeme, htext⟩ | htight
      · have hcolor :=
          hchars c (hwritten c (by rw [htext]; exact List.mem_singleton_self c))
        obtain rfl : c = '!' := by
          simp only [List.mem_cons, List.not_mem_nil, or_false] at hc
          rcases hc with rfl | rfl | rfl
          · rfl
          · cases hcolor
          · cases hcolor
        have hkind :=
          Lexeme.kind_of_bang (lexeme_mem_of_mem_words hword) hlexeme
        refine .bang ?_ ((text_leaf _).trans htext)
        simp [isDelimiter, bare, Token.isDelimiter, hkind, hlexeme]
      · have hsolid :=
          isSolid_of_tight htight (fun c hc => hchars c (hwritten c hc))
          fun c hc => hwhite c (hwritten c hc)
        refine .solid hword hgap (Bool.eq_false_iff.mpr fun hbang => ?_) hsolid
        obtain ⟨_, ⟨⟩, _, hlexeme⟩ := exists_of_isDelimiter hbang
        have hmark : '!' ∈ word.text := by
          refine Word.mem_text_of_lexeme hword ?_ (by decide) (by decide)
          rw [hlexeme]
          exact List.mem_singleton_self _
        exact absurd (hsolid _ hmark) (by decide)

/-- The first tree that is no gap, and the text before it. -/
theorem exists_written {tree : Tree} {rest : List Tree}
    (hlawful : Lawful source trees)
    (h : trees.filter (fun tree => !tree.isGap) = tree :: rest) :
    ∃ blanks more, writtenOf trees = blanks ++ (tree.text ++ writtenOf more) ∧
      Blanks blanks ∧ Lawful source [tree] ∧ Lawful source more ∧
      more.filter (fun tree => !tree.isGap) = rest := by
  obtain ⟨gaps, more, rfl, hgaps, htree, hrest⟩ := List.filter_eq_cons_iff.mp h
  rw [lawful_append, ← List.singleton_append, lawful_append] at hlawful
  have hcomment : tree.comment? = none :=
    comment?_of_isGap (by simpa using htree)
  refine ⟨writtenOf gaps, more, ?_, (white_writtenOf hlawful.1 ?_).blanks,
    hlawful.2.1, hlawful.2.2, hrest⟩
  · rw [writtenOf_append, writtenOf_other hcomment]
  · simpa using hgaps

theorem blanks_writtenOf (hlawful : Lawful source trees)
    (h : trees.filter (fun tree => !tree.isGap) = []) :
    Blanks (writtenOf trees) :=
  (white_writtenOf hlawful (by simpa using List.filter_eq_nil_iff.mp h)).blanks

end Tree

section Values

variable {source : Text} {trees : List Tree}

/-- A color whose `important` has no escapes spells a color. -/
theorem IsColor.spells (h : IsColor trees) (hlawful : Tree.Lawful source trees)
    (hslash : '\\' ∉ Tree.writtenOf trees) :
    SpellsColor (Tree.writtenOf trees) := by
  obtain ⟨word, rest, hfilter, ⟨_, hhex⟩, hrest⟩ := h
  obtain ⟨front, more, hwritten, hfront, _, hmore, hfilter⟩ :=
    Tree.exists_written hlawful hfilter
  rw [Tree.text_leaf] at hwritten
  rcases hrest with rfl | ⟨bang, name, rfl, hbang, hname⟩
  · refine ⟨front, word.text, Tree.writtenOf more, [], [], ?_, hfront, hhex,
      Tree.blanks_writtenOf hmore hfilter, Or.inl rfl, nofun⟩
    rw [hwritten, List.append_nil, List.append_nil]
  · obtain ⟨gap, more, hmoreWritten, hgap, hone, hmore, hfilter⟩ :=
      Tree.exists_written hmore hfilter
    obtain ⟨blanks, more, hnameWritten, hblanks, hnameLawful, hmore, hfilter⟩ :=
      Tree.exists_written hmore hfilter
    rw [Tree.text_of_isDelimiter hone hbang (by decide) (by decide),
      hnameWritten,
      Tree.text_leaf] at hmoreWritten
    have hletters :=
      hname.letters (hnameLawful.mem name (by simp)) fun hmem => by
      rw [hwritten, hmoreWritten] at hslash
      simp [hmem] at hslash
    refine ⟨front, word.text, gap, '!' :: (blanks ++ name.text),
      Tree.writtenOf more, ?_, hfront,
      hhex, hgap, Or.inr ⟨blanks, name.text, rfl, hblanks, hletters.1⟩,
      Tree.blanks_writtenOf hmore hfilter⟩
    rw [hwritten, hmoreWritten]
    simp

/-- What spells a color has no escapes. -/
theorem SpellsColor.plain {text : Text} (h : SpellsColor text) : '\\' ∉ text :=
  fun hmem => absurd (h.chars _ hmem) (by decide)

/-- The trees of a color that are no gaps hold no blanks and are in ASCII if
there are no escapes. -/
theorem IsColor.chars (h : IsColor trees) (hlawful : Tree.Lawful source trees)
    (hslash : '\\' ∉ Tree.writtenOf trees) :
    ∀ tree ∈ trees, tree.isGap = false → ∀ c ∈ tree.text, c.toNat < 128 ∧
      isBlank c = false := by
  obtain ⟨word, rest, hfilter, ⟨_, hhex⟩, hrest⟩ := h
  intro tree htree hgap
  have hone := hlawful.singleton htree
  have hwritten : ∀ c ∈ tree.text, c ∈ Tree.writtenOf trees := fun c hc =>
    Tree.mem_textOf.mpr
      ⟨tree, Tree.mem_uncommented.mpr ⟨htree, Tree.comment?_of_isGap hgap⟩, hc⟩
  have hmem : tree ∈ Tree.leaf word :: rest := by
    rw [← hfilter, List.mem_filter, hgap]
    exact ⟨htree, rfl⟩
  rcases List.mem_cons.mp hmem with rfl | hmem
  · rw [Tree.text_leaf]
    exact fun c hc => ⟨hhex.ascii c hc, isBlank_of_isSolid (hhex.solid c hc)⟩
  rcases hrest with rfl | ⟨bang, name, rfl, hbang, hname⟩
  · cases hmem
  simp only [List.mem_cons, List.not_mem_nil, or_false] at hmem
  rcases hmem with rfl | rfl
  · rw [Tree.text_of_isDelimiter hone hbang (by decide) (by decide),
      List.forall_mem_singleton]
    decide
  · rw [Tree.text_leaf] at hwritten ⊢
    obtain ⟨hletters, hascii⟩ :=
      hname.letters (hone.mem name (by simp)) fun hmem =>
        hslash (hwritten _ hmem)
    exact fun c hc => ⟨hascii c hc, isBlank_of_isSolid (hletters.solid c hc)⟩

/-- In a color no two words meet. -/
theorem IsColor.apart (h : IsColor trees) : Apart (Tree.uncommented trees) := by
  obtain ⟨word, rest, hfilter, _, hrest⟩ := h
  intro front a b back hsplit
  cases ha : a.isGap with
  | true => exact Or.inl rfl
  | false =>
    cases hb : b.isGap with
    | true => exact Or.inr (Or.inr (Or.inl rfl))
    | false =>
      rw [← Tree.filter_uncommented, hsplit, List.filter_append,
        List.filter_cons_of_pos (by rw [ha]; rfl),
          List.filter_cons_of_pos (by rw [hb]; rfl)]
        at hfilter
      generalize front.filter (fun tree => !tree.isGap) = kept at hfilter
      generalize back.filter (fun tree => !tree.isGap) = last at hfilter
      rcases hrest with rfl | ⟨bang, name, rfl, hbang, _⟩
      · rcases kept with _ | ⟨_, _ | _⟩ <;> cases hfilter
      · -- One of the two is the exclamation mark in the middle.
        rcases kept with _ | ⟨_, _ | ⟨_, _ | ⟨_, _ | _⟩⟩⟩ <;> cases hfilter
        · exact Or.inr (Or.inr (Or.inr hbang))
        · exact Or.inr (Or.inl hbang)

/-- A color whose `important` has no escapes is regular. -/
theorem IsColor.regular (h : IsColor trees) (hlawful : Tree.Lawful source trees)
    (hslash : '\\' ∉ Tree.writtenOf trees) : Regular trees := by
  have hchars : ∀ c ∈ Tree.writtenOf trees,
      c ∈ [' ', '\t', '\n', '\r',
        '\x0c'] ∨ c.toNat < 128 ∧ isBlank c = false := by
    intro c hc
    obtain ⟨tree, htree, hc⟩ := Tree.mem_textOf.mp hc
    obtain ⟨htree, hcomment⟩ := Tree.mem_uncommented.mp htree
    cases hgap : tree.isGap with
    | true =>
      exact Or.inl (Tree.white_of_isGap (hlawful.singleton htree) hgap
        hcomment c hc)
    | false => exact Or.inr (h.chars hlawful hslash tree htree hgap c hc)
  refine ⟨fun c hc => ?_, fun c hc hblank => ?_, h.apart⟩
  · rcases hchars c hc with hwhite | ⟨hascii, _⟩
    · have hall : [' ', '\t', '\n', '\r',
          '\x0c'].all (fun c => c.toNat < 128) = true := by decide
      exact of_decide_eq_true (List.all_eq_true.mp hall c hwhite)
    · exact hascii
  · refine (hchars c hc).resolve_right fun hother => ?_
    rw [hblank] at hother
    exact absurd hother.2 nofun

/-- What is regular and spells a color is one. -/
theorem Regular.isColor (h : Regular trees) (hlawful : Tree.Lawful source trees)
    (hspells : SpellsColor (Tree.writtenOf trees)) : IsColor trees := by
  have hlegible : Tree.Legible source (Tree.uncommented trees) :=
    ⟨Tree.simple_of_written hlawful hspells.chars h.white, h.apart⟩
  obtain ⟨front, hex, gap, mark, back, htext, hfront, hhex, hgap, hmark,
      hback⟩ := hspells
  rw [IsColor, ← Tree.filter_uncommented]
  have hbehind : ∀ c ∈ (mark ++ back).head?, isSolid c = false := by
    rcases hmark with rfl | ⟨blanks, letters, rfl, _⟩
    · exact hback.head
    · rintro _ ⟨⟩
      rfl
  obtain ⟨word, more, hfilter, hword, hwordText, hmore, hlegible⟩ :=
    hlegible.word htext hfront hhex.ne_nil hhex.solid (hgap.head_append hbehind)
  have hcolor : word.IsColor := Word.isColor_of_text hword (by rwa [hwordText])
  refine ⟨word, _, hfilter, hcolor, ?_⟩
  rcases hmark with rfl | ⟨blanks, letters, rfl, hblanks, hletters⟩
  · left
    refine hlegible.gaps ?_
    rw [hmore]
    exact hgap.append hback
  · right
    rw [List.cons_append, List.append_assoc] at hmore
    obtain ⟨bang, more, hbangFilter, hbang, hmore, hlegible⟩ :=
      hlegible.bang hmore hgap
    obtain ⟨name, last, hnameFilter, hname, hnameText, hlast, hlegible⟩ :=
      hlegible.word hmore hblanks hletters.ne_nil hletters.solid hback.head
    refine ⟨bang, name, ?_, hbang,
      Word.isImportant_of_text hname (by rwa [hnameText]) ?_⟩
    · rw [hbangFilter, hnameFilter, hlegible.gaps (by rwa [hlast])]
    · intro c hc
      have hmem : c ∈ Tree.writtenOf trees := by
        rw [hnameText] at hc
        rw [htext]
        simp [hc]
      have hascii := h.ascii c hmem
      constructor <;> rintro rfl <;> exact absurd hascii (by decide)

end Values

/-! ## Declarations of a style sheet -/

/-- The node is a leaf with this origin and this item. -/
def Node.isLeaf (origin : Origin) (item : Leaf) : Node → Bool
  | .leaf own other => own = origin && other = item
  | .container .. => false

/-- A leaf that is found in a style sheet. -/
theorem exists_leaf {source : Text} {origin : Origin} {item : Leaf}
    (h : ((Document.parse source).toOption.any fun document =>
      (walk document.children).any (Node.isLeaf origin item)) = true) :
    ∃ document, Document.parse source = .ok document ∧
      .leaf origin item ∈ walk document.children := by
  cases hparse : Document.parse source with
  | error error =>
    rw [hparse] at h
    cases h
  | ok document =>
    rw [hparse] at h
    obtain ⟨node, hnode, hleaf⟩ := List.any_eq_true.mp h
    refine ⟨document, rfl, ?_⟩
    cases node with
    | container => cases hleaf
    | leaf own other =>
      rw [Node.isLeaf, Bool.and_eq_true, decide_eq_true_eq,
        decide_eq_true_eq] at hleaf
      rw [← hleaf.1, ← hleaf.2]
      exact hnode

/-- A declaration has one list of trees for its value in the source.  Its value
is a hex color exactly when the text of these trees without their comments
spells one.  This is the same as being a color if and only if a color has no
escapes in its `important`, and the trees spell a color only with blanks that
are white space, with letters in ASCII, and without words that meet where a
comment was. -/
theorem isHexColor_iff_of_parse {source : Text} {document : Document}
    {origin : Origin} {property value : Text} {important : Bool}
    (h : Document.parse source = .ok document)
    (hmem : .leaf origin (.declaration property value important) ∈
      walk document.children) :
    ∃ span trees, origin = .parsed span ∧
      (∀ others, IsValue source span.start others ↔ others = trees) ∧
      (isHexColor value = true ↔ SpellsColor (Tree.writtenOf trees)) ∧
      ((isHexColor value = true ↔ IsColor trees) ↔
        (IsColor trees → '\\' ∉ Tree.writtenOf trees) ∧
          (SpellsColor (Tree.writtenOf trees) → Regular trees)) := by
  obtain ⟨hfaultless, hvalued⟩ := valued_of_parse h
  obtain ⟨span, trees, rfl, hvalue, hread⟩ := hvalued _ hmem
  obtain ⟨before, after, hwords⟩ := hvalue.exists_words
  have hlawful := hvalue.lawful hfaultless
  have hexact : Exact (Tree.wordsOf trees ++ after) := by
    have hall := exact_words source
    rw [hwords, List.append_assoc] at hall
    exact hall.right
  have hcolor : isHexColor value = true ↔ SpellsColor (Tree.writtenOf trees) :=
    hread.isHexColor hexact hlawful
  refine ⟨span, trees, rfl, fun others =>
    ⟨fun hothers => hothers.unique hvalue, ?_⟩, hcolor, ?_⟩
  · rintro rfl
    exact hvalue
  rw [hcolor]
  constructor
  · intro hsame
    have hplain : IsColor trees → '\\' ∉ Tree.writtenOf trees :=
      fun hcolor => (hsame.mpr hcolor).plain
    exact ⟨hplain, fun hspells =>
      (hsame.mp hspells).regular hlawful hspells.plain⟩
  · rintro ⟨hplain, hregular⟩
    exact ⟨fun hspells => (hregular hspells).isColor hlawful hspells,
      fun hcolor => hcolor.spells hlawful (hplain hcolor)⟩

/-- A color with the mark of importance. -/
theorem isHexColor_iff_of_parse_important :
    ∃ document span trees,
      Document.parse "a\x7bb:#fff !important\x7d".toList = .ok document ∧
      .leaf (.parsed span) (.declaration ['b'] "#fff".toList true) ∈
        walk document.children ∧
      (∀ others, IsValue "a\x7bb:#fff !important\x7d".toList span.start others ↔
        others = trees) ∧
      (isHexColor "#fff".toList = true ↔ SpellsColor (Tree.writtenOf trees)) ∧
      ((isHexColor "#fff".toList = true ↔ IsColor trees) ↔
        (IsColor trees → '\\' ∉ Tree.writtenOf trees) ∧
          (SpellsColor (Tree.writtenOf trees) → Regular trees)) := by
  have hfound :
    ((Document.parse "a\x7bb:#fff !important\x7d".toList).toOption.any
    fun document =>
      (walk document.children).any (Node.isLeaf (.parsed ⟨2, 19⟩)
        (.declaration ['b'] "#fff".toList true))) = true := by
    decide +kernel
  obtain ⟨document, hparse, hmem⟩ := exists_leaf hfound
  obtain ⟨span, trees, horigin, htrees⟩ := isHexColor_iff_of_parse hparse hmem
  cases horigin
  exact ⟨document, _, trees, hparse, hmem, htrees⟩

/-- A comment between a hash and an identifier. -/
def joined : Text := "a\x7bb:#ff/**/f\x7d".toList

/-- The trees behind the colon: a hash of two digits, the comment and the
identifier. -/
def joinedValue : List Tree :=
  [.leaf (same ⟨.hash "ff".toList, "#ff".toList⟩),
    .leaf (same ⟨.comment true, "/**/".toList⟩),
    .leaf (same ⟨.identifier ['f'], ['f']⟩)]

theorem isValue_joined : IsValue joined 2 joinedValue := by
  have hwords : words joined =
      [same ⟨.identifier ['a'], ['a']⟩, same ⟨.opening .curly, ['\x7b']⟩,
        same ⟨.identifier ['b'], ['b']⟩, colon] ++ Tree.wordsOf joinedValue ++
          [same ⟨.closing .curly, ['\x7d']⟩] := by
    decide +kernel
  have htrees : Tree.ofText joined =
      [.leaf (same ⟨.identifier ['a'], ['a']⟩)] ++
        .block (same ⟨.opening .curly, ['\x7b']⟩) .curly
          (.leaf (same ⟨.identifier ['b'], ['b']⟩) :: .leaf colon ::
            joinedValue)
          (some (same ⟨.closing .curly, ['\x7d']⟩)) :: [] := by
    rw [Tree.ofText, hwords]
    rfl
  refine ⟨[same ⟨.identifier ['a'], ['a']⟩,
    same ⟨.opening .curly, ['\x7b']⟩], [],
    same ⟨.identifier ['b'], ['b']⟩, ['b'], [], .leaf colon, [], ?_, rfl, rfl,
    List.forall_mem_nil _, rfl, by decide, by simp⟩
  rw [htrees, List.append_nil]
  exact .inside .here

/-- The comment is left out, and the text of both tokens is one color. -/
theorem isHexColor_joined :
    ∃ document, Document.parse joined = .ok document ∧
      .leaf (.parsed ⟨2, 12⟩) (.declaration ['b'] "#fff".toList false) ∈
        walk document.children ∧
      (∀ others, IsValue joined 2 others ↔ others = joinedValue) ∧
      ¬ (isHexColor "#fff".toList = true ↔ IsColor joinedValue) := by
  have hfound : ((Document.parse joined).toOption.any fun document =>
      (walk document.children).any (Node.isLeaf (.parsed ⟨2, 12⟩)
        (.declaration ['b'] "#fff".toList false))) = true := by
    decide +kernel
  obtain ⟨document, hparse, hmem⟩ := exists_leaf hfound
  refine ⟨document, hparse, hmem, fun others =>
    ⟨fun h => h.unique isValue_joined, ?_⟩, ?_⟩
  · rintro rfl
    exact isValue_joined
  · rintro ⟨hcolor, _⟩
    obtain ⟨word, rest, hfilter, ⟨_, digits, htext, _, hlength⟩, _⟩ :=
      hcolor (by decide +kernel)
    cases hfilter
    cases htext
    exact absurd hlength (by decide)

end OklchGate.Css
