import OklchGate.Proofs.Css.Places
import OklchGate.Proofs.Text.Rebreaking

/-!
# Reading a style sheet with other line breaks

The style sheet with its line breaks written as CR LF or CR has the same
lexemes, and its tree is the same one with stretched spans and with the other
breaks inside its texts.

There are four groups.

* The parts of a node: `removeComments_rebreak` and `splitImportant_rebreak`.
* Words, trees and parts with other breaks.  `words_rebreak`, `ofText_rebreak`
  and `group_rebreak` say that they are those of the other source.
* `Node.rebreak`, a node over the source with other breaks, and what it keeps.
* `readParts_rebreak`, and `parse_rebreak` for a whole style sheet.
-/

namespace OklchGate.Css

variable {mark : Text}

/-! ## Parts of a node -/

theorem removeComments_nil : removeComments [] = [] := rfl

theorem removeComments_other {c : Char} (hc : c ≠ '/') (rest : Text) :
    removeComments (c :: rest) = c :: removeComments rest := by
  rw [removeComments, Pieces.cut_cons]
  split
  · exact absurd rfl hc
  · rfl

/-- A comment is left out up to its end mark. -/
theorem removeComments_comment {body : Text} {length : Nat}
    (h : Text.find? ['*', '/'] body = some length) :
    removeComments ('/' :: '*' :: body) =
      removeComments (body.drop (length + 2)) := by
  rw [removeComments, Pieces.cut_cons]
  simp only [h]
  rfl

theorem removeComments_open {body : Text}
    (h : Text.find? ['*', '/'] body = none) :
    removeComments ('/' :: '*' :: body) =
      '/' :: removeComments ('*' :: body) := by
  rw [removeComments, Pieces.cut_cons]
  simp only [h]
  rfl

theorem removeComments_slash {rest : Text} (h : rest.head? ≠ some '*') :
    removeComments ('/' :: rest) = '/' :: removeComments rest := by
  rw [removeComments, Pieces.cut_cons]
  split
  · exact absurd rfl h
  · rfl

/-- What stands before the first slash is kept. -/
theorem removeComments_append {before : Text} (h : '/' ∉ before) (rest : Text) :
    removeComments (before ++ rest) = before ++ removeComments rest := by
  induction before with
  | nil => rfl
  | cons c others ih =>
    rw [List.mem_cons, not_or] at h
    rw [List.cons_append, removeComments_other (Ne.symm h.1), ih h.2,
      List.cons_append]

/-- Comments are left out of a text in the same way however its lines are
broken. -/
theorem removeComments_rebreak (hmark : Text.IsBreak mark) :
    ∀ text : Text, removeComments (mark.rebreak text) =
      mark.rebreak (removeComments text)
  | [] => rfl
  | c :: rest => by
    by_cases hbreak : c = '\n'
    · have hslash : '/' ∉ mark := by
        intro hmem
        rcases hmark.2 _ hmem with h | h <;> cases h
      rw [hbreak, Text.rebreak_break, removeComments_append hslash,
        removeComments_rebreak hmark rest, removeComments_other (by decide),
          Text.rebreak_break]
    · rw [Text.rebreak_other _ hbreak]
      by_cases hslash : c = '/'
      · subst hslash
        by_cases hstar : rest.head? = some '*'
        · obtain ⟨body, rfl⟩ : ∃ body, rest = '*' :: body := by
            cases rest with
            | nil => exact absurd hstar nofun
            | cons d body => exact ⟨body, by rw [Option.some.inj hstar]⟩
          have hfind := Text.find?_rebreak hmark body
          rw [Text.rebreak_other _ (by decide)]
          cases hlength : Text.find? ['*', '/'] body with
          | none =>
            rw [hlength] at hfind
            rw [removeComments_open hfind, removeComments_open hlength,
              ← Text.rebreak_other mark (by decide),
                removeComments_rebreak hmark ('*' :: body),
              Text.rebreak_other _ (by decide)]
          | some length =>
            rw [hlength] at hfind
            rw [removeComments_comment hfind, removeComments_comment hlength,
              ← removeComments_rebreak hmark (body.drop (length + 2)),
              ← Text.stretch_find? mark hlength, Text.drop_rebreak]
        · have hhead : (mark.rebreak rest).head? ≠ some '*' := by
            rw [Ne, Text.head?_rebreak hmark rest (by decide) (by decide)]
            exact hstar
          rw [removeComments_slash hhead, removeComments_slash hstar,
            removeComments_rebreak hmark rest, Text.rebreak_other _ (by decide)]
      · rw [removeComments_other hslash, removeComments_other hslash,
          removeComments_rebreak hmark rest, Text.rebreak_other _ hbreak]
termination_by text => text.length

/-- Letters at the end of a text are found however its lines are broken. -/
theorem dropLetters_rebreak (hmark : Text.IsBreak mark) {letters : Text}
    (hletters : letters.all (fun letter => !isLetter letter '\r' &&
      !isLetter letter '\n') = true)
    (text : Text) :
    dropLetters letters (mark.rebreak text) =
      (dropLetters letters text).map mark.rebreak := by
  induction letters generalizing text with
  | nil => rfl
  | cons letter letters ih =>
    rw [List.all_cons, Bool.and_eq_true, Bool.and_eq_true, Bool.not_eq_true',
      Bool.not_eq_true'] at hletters
    obtain ⟨hletter, hletters⟩ := hletters
    cases text with
    | nil => rfl
    | cons c rest =>
      by_cases hc : c = '\n'
      · obtain ⟨d, others, hcons, hd⟩ := hmark.exists_cons
        rw [hc, Text.rebreak_break, hcons, List.cons_append, dropLetters,
          dropLetters, hletter.2]
        rcases hd with rfl | rfl
        · rw [hletter.1]
          rfl
        · rw [hletter.2]
          rfl
      · rw [Text.rebreak_other _ hc, dropLetters, dropLetters]
        split
        · exact ih hletters rest
        · rfl

/-- A value that ends in the mark of importance is split before it. -/
theorem splitImportant_mark {value before rest : Text}
    (hletters : dropLetters "important".toList.reverse value.reverse =
      some before)
    (hmark : before.dropWhile isBlank = '!' :: rest) :
    splitImportant value = ((rest.dropWhile isBlank).reverse, true) := by
  rw [splitImportant, hletters]
  simp only [hmark]

/-- A value that does not end in the mark of importance is left as it is. -/
theorem splitImportant_plain {value : Text}
    (h : ∀ before, dropLetters "important".toList.reverse value.reverse =
      some before → (before.dropWhile isBlank).head? ≠ some '!') :
    splitImportant value = (value, false) := by
  rw [splitImportant]
  cases hletters : dropLetters "important".toList.reverse value.reverse with
  | none => rfl
  | some before =>
    have hhead := h before hletters
    dsimp only
    split
    · rename_i rest hrest
      rw [hrest] at hhead
      exact absurd rfl hhead
    · rfl

/-- The mark of importance is split off however the lines of a value are
broken. -/
theorem splitImportant_rebreak (hmark : Text.IsBreak mark) (value : Text) :
    splitImportant (mark.rebreak value) =
      (mark.rebreak (splitImportant value).1, (splitImportant value).2) := by
  have hletters :
    dropLetters "important".toList.reverse (mark.rebreak value).reverse =
      (dropLetters "important".toList.reverse value.reverse).map
        (Text.rebreak mark.reverse) := by
    rw [Text.reverse_rebreak]
    exact dropLetters_rebreak hmark.reverse rfl value.reverse
  by_cases h : ∃ before rest,
    dropLetters "important".toList.reverse value.reverse = some before ∧
      before.dropWhile isBlank = '!' :: rest
  · obtain ⟨before, rest, hbefore, hrest⟩ := h
    rw [hbefore] at hletters
    have hblanks : (Text.rebreak mark.reverse before).dropWhile isBlank =
        '!' :: Text.rebreak mark.reverse rest := by
      rw [Text.dropBlanks_rebreak hmark.reverse, hrest,
        Text.rebreak_other _ (by decide)]
    rw [splitImportant_mark hletters hblanks, splitImportant_mark hbefore hrest,
      Text.dropBlanks_rebreak hmark.reverse, Text.reverse_rebreak,
      List.reverse_reverse]
  · have hplain : ∀ before,
        dropLetters "important".toList.reverse value.reverse = some before →
          (before.dropWhile isBlank).head? ≠ some '!' := by
      intro before hbefore hhead
      obtain ⟨rest, hrest⟩ := List.head?_eq_some_iff.mp hhead
      exact h ⟨before, rest, hbefore, hrest⟩
    rw [splitImportant_plain hplain, splitImportant_plain]
    intro before hbefore
    rw [hletters, Option.map_eq_some_iff] at hbefore
    obtain ⟨first, hfirst, rfl⟩ := hbefore
    rw [Text.dropBlanks_rebreak hmark.reverse, Ne,
      Text.head?_rebreak hmark.reverse _ (by decide) (by decide)]
    exact hplain first hfirst

/-! ## Words, trees and parts -/

/-- A word with other breaks in its text. -/
def Word.rebreak (mark : Text) (word : Word) : Word :=
  ⟨word.lexeme, mark.rebreak word.text⟩

theorem Word.textOf_rebreak (mark : Text) (words : List Word) :
    Word.textOf (words.map (Word.rebreak mark)) =
      mark.rebreak (Word.textOf words) := by
  induction words with
  | nil => rfl
  | cons word rest ih =>
    rw [List.map_cons, Word.textOf_cons, Word.textOf_cons, Text.rebreak_append,
      ih]
    rfl

theorem Word.cut_rebreak (mark : Text) (lexemes : List Lexeme)
    (strokes : List Text) :
    Word.cut lexemes (strokes.map mark.rebreak) =
      (Word.cut lexemes strokes).map (Word.rebreak mark) := by
  induction lexemes generalizing strokes with
  | nil => rfl
  | cons lexeme rest ih =>
    rw [Word.cut, Word.cut, List.map_cons, Word.rebreak, ← List.map_take,
      ← List.map_drop, ih, Text.rebreak_flatten]

/-- The words of a source with other breaks. -/
theorem words_rebreak (hmark : Text.Style mark) {source : Text}
    (hcr : '\r' ∉ source) :
    words (mark.rebreak source) = (words source).map (Word.rebreak mark) := by
  rw [words, words, normalizeBreaks_rebreak hmark hcr,
    strokes_rebreak hmark hcr, Word.cut_rebreak]

namespace Tree

mutual

/-- A tree with other breaks in the texts of its words. -/
def rebreak (mark : Text) : Tree → Tree
  | leaf word => .leaf (word.rebreak mark)
  | block opener bracket content closer =>
    .block (opener.rebreak mark) bracket (rebreakAll mark content)
      (closer.map (Word.rebreak mark))
termination_by structural tree => tree

/-- Some trees with other breaks in the texts of their words. -/
def rebreakAll (mark : Text) : List Tree → List Tree
  | [] => []
  | tree :: rest => tree.rebreak mark :: rebreakAll mark rest
termination_by structural trees => trees

end

theorem rebreakAll_eq_map (mark : Text) (trees : List Tree) :
    rebreakAll mark trees = trees.map (rebreak mark) := by
  induction trees with
  | nil => rfl
  | cons tree rest ih => rw [rebreakAll, ih, List.map_cons]

theorem bare_rebreak (mark : Text) (tree : Tree) :
    (tree.rebreak mark).bare = tree.bare := by
  cases tree with
  | leaf word => rfl
  | block opener bracket content closer =>
    rw [rebreak, bare, bare, Option.isSome_map]
    rfl

@[simp] theorem isGap_rebreak (mark : Text) (tree : Tree) :
    (tree.rebreak mark).isGap = tree.isGap := by
  rw [isGap, bare_rebreak, isGap]

@[simp] theorem isDelimiter_rebreak (mark : Text) (tree : Tree) (c : Char) :
    (tree.rebreak mark).isDelimiter c = tree.isDelimiter c := by
  rw [isDelimiter, bare_rebreak, isDelimiter]

@[simp] theorem isCurly_rebreak (mark : Text) (tree : Tree) :
    (tree.rebreak mark).isCurly = tree.isCurly := by
  rw [isCurly, bare_rebreak, isCurly]

@[simp] theorem comment?_rebreak (mark : Text) (tree : Tree) :
    (tree.rebreak mark).comment? = tree.comment? := by
  rw [comment?, bare_rebreak, comment?]

mutual

theorem words_rebreak (mark : Text) (tree : Tree) :
    (tree.rebreak mark).words = tree.words.map (Word.rebreak mark) := by
  cases tree with
  | leaf word => rfl
  | block opener bracket content closer =>
    rw [rebreak, words_block, words_block, wordsOf_rebreakAll mark content]
    cases closer <;> simp

theorem wordsOf_rebreakAll (mark : Text) (trees : List Tree) :
    wordsOf (rebreakAll mark trees) =
      (wordsOf trees).map (Word.rebreak mark) := by
  cases trees with
  | nil => rfl
  | cons tree rest =>
    rw [rebreakAll, wordsOf_cons, wordsOf_cons, List.map_append,
      words_rebreak mark tree, wordsOf_rebreakAll mark rest]

end

theorem text_rebreak (mark : Text) (tree : Tree) :
    (tree.rebreak mark).text = mark.rebreak tree.text := by
  rw [text, words_rebreak, Word.textOf_rebreak, text]

theorem textOf_rebreakAll (mark : Text) (trees : List Tree) :
    textOf (rebreakAll mark trees) = mark.rebreak (textOf trees) := by
  rw [textOf, wordsOf_rebreakAll, Word.textOf_rebreak, textOf]

/-- An open block with other breaks. -/
def Frame.rebreak (mark : Text) (frame : Frame) : Frame :=
  ⟨frame.opener.rebreak mark, frame.bracket, rebreakAll mark frame.before⟩

theorem close_rebreak (mark : Text) (frame : Frame) (content : List Tree)
    (closer : Option Word) :
    (frame.rebreak mark).close (rebreakAll mark content)
      (closer.map (Word.rebreak mark)) =
      rebreakAll mark (frame.close content closer) := by
  simp [Frame.close, Frame.rebreak, rebreakAll_eq_map, rebreak]

/-- Nesting looks at the lexemes of words only. -/
theorem nest_rebreak (mark : Text) (stack : List Frame) (done : List Tree)
    (words : List Word) :
    nest (stack.map (Frame.rebreak mark)) (rebreakAll mark done)
        (words.map (Word.rebreak mark)) =
      rebreakAll mark (nest stack done words) := by
  induction words generalizing stack done with
  | nil =>
    rw [List.map_nil, nest, nest]
    have hfold : ∀ done : List Tree,
        (stack.map (Frame.rebreak mark)).foldl
          (fun trees frame => frame.close trees none) (rebreakAll mark done) =
          rebreakAll mark
            (stack.foldl (fun trees frame => frame.close trees none) done) := by
      induction stack with
      | nil => intro done; rfl
      | cons frame outer ih =>
        intro done
        rw [List.map_cons, List.foldl_cons, List.foldl_cons, ← ih]
        have hclose := close_rebreak mark frame done none
        rw [Option.map_none] at hclose
        rw [hclose]
    rw [hfold]
    simp [rebreakAll_eq_map]
  | cons word rest ih =>
    have hkind : (word.rebreak mark).lexeme.kind = word.lexeme.kind := rfl
    rcases nest_cases stack done word rest with
      ⟨b, hb, h⟩ | ⟨frame, outer, rfl, hb, h⟩ | ⟨hopen, hclose, h⟩
    · rw [h, ← ih, List.map_cons]
      simp only [nest, hkind, hb]
      rfl
    · have hbracket : frame.bracket = (frame.rebreak mark).bracket := rfl
      rw [h, ← ih, ← close_rebreak, List.map_cons, List.map_cons]
      simp only [nest, hkind, hb]
      rw [if_pos hbracket]
      rfl
    · rw [h, ← ih, List.map_cons]
      rcases nest_cases (stack.map (Frame.rebreak mark)) (rebreakAll mark done)
          (word.rebreak mark) (rest.map (Word.rebreak mark)) with
        ⟨b, hb, _⟩ | ⟨frame, outer, hstack, hb, _⟩ | ⟨_, _, h'⟩
      · exact absurd hb (hopen b)
      · cases stack with
        | nil => cases hstack
        | cons frame' outer' =>
          rw [List.map_cons, List.cons.injEq] at hstack
          rw [← hstack.1] at hb
          exact absurd hb (hclose frame' outer' rfl)
      · rw [h']
        rfl

/-- The trees of a source with other breaks. -/
theorem ofText_rebreak (hmark : Text.Style mark) {source : Text}
    (hcr : '\r' ∉ source) :
    ofText (mark.rebreak source) = rebreakAll mark (ofText source) := by
  rw [ofText, Css.words_rebreak hmark hcr]
  exact nest_rebreak mark [] [] (Css.words source)

mutual

theorem leaves_rebreak (mark : Text) (tree : Tree) :
    (tree.rebreak mark).leaves = tree.leaves.map (Word.rebreak mark) := by
  cases tree with
  | leaf word => rfl
  | block opener bracket content closer =>
    rw [rebreak, leaves, leaves, leavesOf_rebreakAll mark content]

theorem leavesOf_rebreakAll (mark : Text) (trees : List Tree) :
    leavesOf (rebreakAll mark trees) =
      (leavesOf trees).map (Word.rebreak mark) := by
  cases trees with
  | nil => rfl
  | cons tree rest =>
    rw [rebreakAll, leavesOf_cons, leavesOf_cons, List.map_append,
      leaves_rebreak mark tree, leavesOf_rebreakAll mark rest]

end

theorem faultless_rebreakAll {trees : List Tree} (h : Faultless trees) :
    Faultless (rebreakAll mark trees) := by
  intro word hword
  rw [leavesOf_rebreakAll, List.mem_map] at hword
  obtain ⟨own, hown, rfl⟩ := hword
  exact h own hown

end Tree

mutual

/-- A part with other breaks in the texts of its words. -/
def Part.rebreak (mark : Text) : Part → Part
  | .gap tree => .gap (tree.rebreak mark)
  | .comment tree => .comment (tree.rebreak mark)
  | .statement first others =>
    .statement (first.rebreak mark) (Tree.rebreakAll mark others)
  | .block before opener content closer =>
    .block (Tree.rebreakAll mark before) (opener.rebreak mark)
      (rebreakParts mark content) (closer.map (Word.rebreak mark))
termination_by structural part => part

/-- Some parts with other breaks in the texts of their words. -/
def rebreakParts (mark : Text) : List Part → List Part
  | [] => []
  | part :: rest => part.rebreak mark :: rebreakParts mark rest
termination_by structural parts => parts

end

theorem rebreakParts_eq_map (mark : Text) (parts : List Part) :
    rebreakParts mark parts = parts.map (Part.rebreak mark) := by
  induction parts with
  | nil => rfl
  | cons part rest ih => rw [rebreakParts, ih, List.map_cons]

theorem ofSegment_rebreak (mark : Text) (segment : List Tree) :
    Part.ofSegment (Tree.rebreakAll mark segment) =
      rebreakParts mark (Part.ofSegment segment) := by
  cases segment <;> rfl

theorem ofGap_rebreak (mark : Text) (tree : Tree) :
    Part.ofGap (tree.rebreak mark) = (Part.ofGap tree).rebreak mark := by
  rw [Part.ofGap, Part.ofGap, Tree.comment?_rebreak]
  split <;> rfl

theorem ofUnfinished_rebreak (mark : Text) (segment : List Tree) :
    Part.ofUnfinished (Tree.rebreakAll mark segment) =
      rebreakParts mark (Part.ofUnfinished segment) := by
  have hgap : Tree.isGap ∘ Tree.rebreak mark = Tree.isGap := by
    funext tree
    exact Tree.isGap_rebreak mark tree
  rw [Part.ofUnfinished, Part.ofUnfinished, Tree.rebreakAll_eq_map,
    List.dropWhile_map, List.takeWhile_map, hgap, ← List.map_reverse,
    ← List.map_reverse, ← Tree.rebreakAll_eq_map, ofSegment_rebreak,
    rebreakParts_eq_map, rebreakParts_eq_map, List.map_append, List.map_map,
    List.map_map]
  rfl

mutual

theorem contentParts_rebreak (mark : Text) (tree : Tree) :
    (tree.rebreak mark).contentParts = rebreakParts mark tree.contentParts := by
  cases tree with
  | leaf word => rfl
  | block opener bracket content closer =>
    exact group_rebreak mark [] content

/-- Trees with other breaks make the same parts. -/
theorem group_rebreak (mark : Text) (segment trees : List Tree) :
    group (Tree.rebreakAll mark segment) (Tree.rebreakAll mark trees) =
      rebreakParts mark (group segment trees) := by
  cases trees with
  | nil => exact ofUnfinished_rebreak mark segment
  | cons tree rest =>
    have hreverse : ∀ trees : List Tree, (Tree.rebreakAll mark trees).reverse =
        Tree.rebreakAll mark trees.reverse := by
      intro trees
      rw [Tree.rebreakAll_eq_map, Tree.rebreakAll_eq_map, List.map_reverse]
    have hrest := group_rebreak mark [] rest
    have hnil : Tree.rebreakAll mark [] = [] := rfl
    have hcons : Tree.rebreakAll mark (tree :: rest) =
        tree.rebreak mark :: Tree.rebreakAll mark rest := rfl
    rw [hnil] at hrest
    rw [hcons]
    rcases group_cases segment tree with
      ⟨rfl, hgap⟩ | ⟨opener, content, closer, rfl⟩ | hsemicolon | ⟨hgap, hcurly,
        hsemicolon⟩
    · rw [hnil, group_gap (by rw [Tree.isGap_rebreak, hgap]), group_gap hgap,
        rebreakParts, hrest, ofGap_rebreak]
    · have hcontent :=
        contentParts_rebreak mark (.block opener .curly content closer)
      rw [Tree.rebreak, Tree.contentParts, Tree.contentParts] at hcontent
      rw [Tree.rebreak, group_curly, group_curly, rebreakParts, Part.rebreak,
        hrest, hcontent, hreverse]
    · rw [group_semicolon (by rw [Tree.isDelimiter_rebreak, hsemicolon]),
        group_semicolon hsemicolon, hrest, rebreakParts_eq_map _ (_ ++ _),
          List.map_append,
        ← rebreakParts_eq_map, ← rebreakParts_eq_map, ← ofSegment_rebreak,
          ← hreverse]
      rfl
    · rw [group_other _ (by rw [Tree.isCurly_rebreak, hcurly])
        (by rw [Tree.isDelimiter_rebreak, hsemicolon]),
          group_other hgap hcurly hsemicolon,
        ← group_rebreak mark (tree :: segment) rest, Tree.rebreakAll]
      rcases hgap with h | h
      · left
        intro hnil
        cases segment with
        | nil => exact h rfl
        | cons first others => exact absurd hnil nofun
      · right
        rw [Tree.isGap_rebreak, h]

end

namespace Part

mutual

theorem trees_rebreak (mark : Text) (part : Part) :
    (part.rebreak mark).trees = Tree.rebreakAll mark part.trees := by
  cases part with
  | gap tree => rfl
  | comment tree => rfl
  | statement first others => rfl
  | block before opener content closer =>
    have h := treesOf_rebreakParts mark content
    rw [Tree.rebreakAll_eq_map] at h
    rw [rebreak, trees, trees, h, Tree.rebreakAll_eq_map,
      Tree.rebreakAll_eq_map, List.map_append, List.map_singleton, Tree.rebreak,
      Tree.rebreakAll_eq_map]

theorem treesOf_rebreakParts (mark : Text) (parts : List Part) :
    treesOf (rebreakParts mark parts) =
      Tree.rebreakAll mark (treesOf parts) := by
  cases parts with
  | nil => rfl
  | cons part rest =>
    rw [rebreakParts, treesOf_cons, treesOf_cons, trees_rebreak mark part,
      treesOf_rebreakParts mark rest, Tree.rebreakAll_eq_map,
      Tree.rebreakAll_eq_map, Tree.rebreakAll_eq_map, List.map_append]

end

theorem text_rebreak (mark : Text) (part : Part) :
    (part.rebreak mark).text = mark.rebreak part.text := by
  rw [text, trees_rebreak, Tree.textOf_rebreakAll, text]

end Part

/-! ## Nodes -/

/-- A span over the source with other breaks. -/
def Span.rebreak (mark source : Text) (span : Span) : Span :=
  ⟨mark.stretch source span.start, mark.stretch source span.stop⟩

/-- An origin over the source with other breaks. -/
def Origin.rebreak (mark source : Text) : Origin → Origin
  | parsed span => .parsed (span.rebreak mark source)
  | generated layout => .generated layout

/-- A leaf with other breaks in the texts that it copies from the source.  The
text of a comment is not one of them. -/
def Leaf.rebreak (mark : Text) : Leaf → Leaf
  | declaration property value important =>
    .declaration (mark.rebreak property) (mark.rebreak value) important
  | comment text => .comment text
  | statement text => .statement (mark.rebreak text)

/-- A head with other breaks in the texts that it copies from the source.  The
name of an at-rule is not one of them. -/
def Head.rebreak (mark : Text) : Head → Head
  | rule selector => .rule (mark.rebreak selector)
  | atRule name params hasBlock => .atRule name (mark.rebreak params) hasBlock

mutual

/-- A node over the source with other breaks. -/
def Node.rebreak (mark source : Text) : Node → Node
  | .leaf origin item => .leaf (origin.rebreak mark source) (item.rebreak mark)
  | .container origin content head children =>
    .container (origin.rebreak mark source)
      (content.map (Span.rebreak mark source))
      (head.rebreak mark) (rebreakNodes mark source children)
termination_by structural node => node

/-- Some nodes over the source with other breaks. -/
def rebreakNodes (mark source : Text) : List Node → List Node
  | [] => []
  | node :: rest => node.rebreak mark source :: rebreakNodes mark source rest
termination_by structural nodes => nodes

end

theorem rebreakNodes_eq_map (mark source : Text) (nodes : List Node) :
    rebreakNodes mark source nodes = nodes.map (Node.rebreak mark source) := by
  induction nodes with
  | nil => rfl
  | cons node rest ih => rw [rebreakNodes, ih, List.map_cons]

/-- A piece over the source with other breaks. -/
def Piece.rebreak (mark source : Text) (piece : Piece) : Piece :=
  ⟨piece.token, mark.stretch source piece.start, mark.stretch source piece.stop⟩

theorem declarationColon?_rebreak (mark source : Text) (pieces : List Piece) :
    declarationColon? (pieces.map (Piece.rebreak mark source)) =
      (declarationColon? pieces).map (mark.stretch source) := by
  induction pieces with
  | nil => rfl
  | cons piece rest ih =>
    rw [List.map_cons, declarationColon?, declarationColon?, ih]
    show (if piece.token.isGap then _ else if piece.token.isDelimiter ':' then _
      else _) = _
    split
    · rfl
    · split <;> rfl

section Reading

variable {source : Text}

theorem statementNode_rebreak (hmark : Text.IsBreak mark) (first : Piece)
    (others : List Piece) :
    statementNode (mark.rebreak source) (first.rebreak mark source)
        (others.map (Piece.rebreak mark source)) =
      (statementNode source first others).rebreak mark source := by
  have hlast : (others.map (Piece.rebreak mark source)).getLast?.getD
      (first.rebreak mark source) =
        (others.getLast?.getD first).rebreak mark source := by
    rw [List.getLast?_map]
    cases others.getLast? <;> rfl
  have hkeyword : (first.rebreak mark source).atKeyword? = first.atKeyword? :=
    rfl
  have hidentifier : (first.rebreak mark source).isIdentifier =
      first.isIdentifier := rfl
  have hbody : ∀ last : Piece,
      (if (last.rebreak mark source).token.isDelimiter ';' = true then
        (last.rebreak mark source).start else (last.rebreak mark source).stop) =
      mark.stretch source (if last.token.isDelimiter ';' = true then last.start
        else last.stop) := by
    intro last
    show (if last.token.isDelimiter ';' = true then _ else _) = _
    split <;> rfl
  have hslice : ∀ a b, (mark.rebreak source).slice (mark.stretch source a)
      (mark.stretch source b) = mark.rebreak (source.slice a b) :=
    Text.slice_rebreak mark source
  have htrim : ∀ text : Text, Text.trim (removeComments (mark.rebreak text)) =
      mark.rebreak (Text.trim (removeComments text)) := by
    intro text
    rw [removeComments_rebreak hmark, Text.trim_rebreak hmark]
  rw [statementNode, statementNode, hlast, hkeyword, hidentifier,
    declarationColon?_rebreak]
  simp only [hbody]
  simp only [Piece.rebreak, hslice, htrim]
  cases first.atKeyword? with
  | some name => rfl
  | none =>
    have hcolon : (if first.isIdentifier = true then
        (declarationColon? others).map (mark.stretch source) else none) =
        (if first.isIdentifier = true then declarationColon? others
          else none).map (mark.stretch source) := by
      split <;> rfl
    rw [hcolon]
    cases if first.isIdentifier = true then declarationColon? others
      else none with
    | none => rfl
    | some colon =>
      simp only [Option.map_some, hslice, htrim, splitImportant_rebreak hmark]
      rfl

theorem segmentNodes_rebreak (hmark : Text.IsBreak mark) (pieces : List Piece) :
    segmentNodes (mark.rebreak source)
      (pieces.map (Piece.rebreak mark source)) =
      rebreakNodes mark source (segmentNodes source pieces) := by
  cases pieces with
  | nil => rfl
  | cons first others =>
    rw [List.map_cons, segmentNodes, segmentNodes, statementNode_rebreak hmark]
    rfl

theorem headOf_rebreak (source : Text) (hmark : Text.IsBreak mark)
    (before : List Piece) (blockStart : Nat) :
    headOf (mark.rebreak source) (before.map (Piece.rebreak mark source))
        (mark.stretch source blockStart) =
      (headOf source before blockStart).rebreak mark := by
  cases before with
  | nil => rfl
  | cons first others =>
    have hkeyword : (first.rebreak mark source).atKeyword? = first.atKeyword? :=
      rfl
    have hslice : ∀ a b, (mark.rebreak source).slice (mark.stretch source a)
        (mark.stretch source b) = mark.rebreak (source.slice a b) :=
      Text.slice_rebreak mark source
    rw [List.map_cons, headOf, headOf, hkeyword]
    cases first.atKeyword? with
    | some name =>
      simp only [Piece.rebreak, hslice, removeComments_rebreak hmark,
        Text.trim_rebreak hmark]
      rfl
    | none =>
      simp only [Piece.rebreak, hslice, Text.trim_rebreak hmark]
      rfl

/-- A block between braces moves with its braces. -/
theorem blockNode_rebreak (hmark : Text.IsBreak mark) (before : List Piece)
    (block : Span) (children : List Node)
    (hopen : source[block.start]? = some '\x7b')
    (hclose : 0 < block.stop ∧ source[block.stop - 1]? = some '\x7d') :
    blockNode (mark.rebreak source) (before.map (Piece.rebreak mark source))
        (block.rebreak mark source) (rebreakNodes mark source children) =
      (blockNode source before block children).rebreak mark source := by
  have hstart := Text.stretch_succ mark (by decide) hopen
  have hstop := Text.stretch_succ mark (by decide) hclose.2
  rw [Nat.sub_add_cancel hclose.1] at hstop
  have hhead := headOf_rebreak source hmark before block.start
  have hfirst :
    ((before.map (Piece.rebreak mark source)).head?.map Piece.start).getD
      (mark.stretch source block.start) =
      mark.stretch source
        ((before.head?.map Piece.start).getD block.start) := by
    cases before <;> rfl
  have hspan : block.rebreak mark source =
      ⟨mark.stretch source block.start, mark.stretch source block.stop⟩ := rfl
  rw [blockNode, blockNode, hspan]
  dsimp only
  rw [hhead, hfirst, ← hstart, show mark.stretch source block.stop - 1 =
    mark.stretch source (block.stop - 1) by omega]
  rfl

theorem endOf_rebreak {α β : Type} (mark source : Text) (stop after : Nat)
    {a : List α} {b : List β} (h : a.isEmpty = b.isEmpty) :
    endOf (mark.stretch source stop) (mark.stretch source after) a =
      mark.stretch source (endOf stop after b) := by
  rw [endOf, endOf, h]
  split <;> rfl

/-- The pieces of trees over the source with other breaks. -/
theorem piecesOf_rebreak (mark : Text) (front back : Text) (stop : Nat)
    (trees : List Tree)
    (hsource : source = front ++ Tree.textOf trees ++ back) :
    piecesOf (mark.stretch source front.length) (mark.stretch source stop)
        (Tree.rebreakAll mark trees) =
      (piecesOf front.length stop trees).map (Piece.rebreak mark source) := by
  induction trees generalizing front with
  | nil => rfl
  | cons tree rest ih =>
    have hsplit : source = (front ++ tree.text) ++ Tree.textOf rest ++
        back := by
      rw [hsource, Tree.textOf_cons]
      simp
    have hadd := Text.stretch_add mark
      (show source = front ++ tree.text ++ (Tree.textOf rest ++ back) by
        rw [hsplit, List.append_assoc])
    have hrest := ih (front ++ tree.text) hsplit
    rw [List.length_append] at hrest
    have hempty : (Tree.rebreakAll mark rest).isEmpty = rest.isEmpty := by
      cases rest <;> rfl
    rw [Tree.rebreakAll, piecesOf, piecesOf, Tree.text_rebreak, ← hadd, hrest,
      Tree.bare_rebreak, endOf_rebreak mark source stop _ hempty]
    rfl

/-- A block between braces in a source with other breaks is the block, moved,
when its content is. -/
theorem read_block_rebreak (hmark : Text.IsBreak mark) (front back : Text)
    {stop : Nat} {before : List Tree} {opener : Word} {content : List Part}
    (closer : Option Word) {children : List Node}
    (hsource : source = front ++ Tree.textOf before ++ '\x7b' :: back)
    (hopener : opener.text = ['\x7b'])
    (hclose : source.slice (stop - 1) stop = ['\x7d'])
    (hcontent : readParts (mark.rebreak source)
      (mark.stretch source (front.length + (Tree.textOf before).length + 1))
      (mark.stretch source (stop - 1)) (rebreakParts mark content) =
      some (rebreakNodes mark source children)) :
    ((Part.block before opener content closer).rebreak mark).read
      (mark.rebreak source)
        (mark.stretch source front.length) (mark.stretch source stop) =
      some (rebreakNodes mark source
        [blockNode source
          (piecesOf front.length
            (front.length + (Tree.textOf before).length) before)
          ⟨front.length + (Tree.textOf before).length, stop⟩ children]) := by
  have hopen : source[front.length + (Tree.textOf before).length]? =
      some '\x7b' := by
    rw [hsource, ← List.length_append]
    simp
  have hbefore :=
    piecesOf_rebreak mark front _
      (front.length + (Tree.textOf before).length) before hsource
  have hlead := Text.stretch_add mark hsource
  -- A brace is no break, so the places beside the two braces move with the
  -- braces.
  have hstart := Text.stretch_succ mark (by decide) hopen
  have hlast := slice_eq_singleton hclose
  have hstop := Text.stretch_succ mark (by decide) hlast.2
  rw [Nat.sub_add_cancel hlast.1] at hstop
  have hbrace : mark.stretch source stop - 1 =
      mark.stretch source (stop - 1) := by omega
  have hslice := Text.slice_rebreak mark source (stop - 1) stop
  rw [hclose, Text.rebreak_singleton _ (by decide)] at hslice
  rw [hstart] at hcontent
  have hblock := blockNode_rebreak hmark
    (piecesOf front.length (front.length + (Tree.textOf before).length) before)
    ⟨front.length + (Tree.textOf before).length, stop⟩ children hopen hlast
  rw [Part.rebreak, Part.read, Tree.textOf_rebreakAll, ← hlead, hbrace,
    if_pos hslice, Word.rebreak,
    hopener, Text.rebreak_singleton mark (by decide), List.length_singleton,
      hcontent, hbefore,
    Option.map_some, ← Span.rebreak.eq_1 mark source ⟨_, stop⟩, hblock]
  rfl

mutual

/-- A part of the source with other breaks has the nodes of the part, moved. -/
theorem Part.read_rebreak (hmark : Text.IsBreak mark) (front back : Text)
    {stop : Nat} {nodes : List Node} (part : Part)
    (hsource : source = front ++ part.text ++ back)
    (hlawful : Tree.Lawful source part.trees)
    (hread : part.read source front.length stop = some nodes) :
    (part.rebreak mark).read (mark.rebreak source)
      (mark.stretch source front.length) (mark.stretch source stop) =
      some (rebreakNodes mark source nodes) := by
  cases part with
  | gap tree =>
    cases hread
    rfl
  | comment tree =>
    cases hread
    rw [Part.rebreak, Part.read, Tree.comment?_rebreak]
    rfl
  | statement first others =>
    cases hread
    have hpieces :=
      piecesOf_rebreak mark front back stop (first :: others) hsource
    rw [Part.rebreak, Part.read, ← segmentNodes_rebreak hmark, ← hpieces,
      Tree.rebreakAll]
  | block before opener content closer =>
    rw [Part.read] at hread
    split at hread
    · rename_i hclose
      obtain ⟨children, hchildren, rfl⟩ := Option.map_eq_some_iff.mp hread
      rw [Part.trees, Tree.lawful_append] at hlawful
      obtain ⟨hopener, -, hcontent⟩ := hlawful.2.block
      have hlead : source = front ++ Tree.textOf before ++
          '\x7b' :: (Part.textOf content ++
            (Word.textOf closer.toList ++ back)) := by
        rw [hsource]
        simp [Part.text, Part.trees, Part.textOf, Tree.textOf, hopener]
      have hinside : source = (front ++ Tree.textOf before ++ ['\x7b']) ++
        Part.textOf content ++ (Word.textOf closer.toList ++ back) := by
        rw [hlead]
        simp
      have hlength : (front ++ Tree.textOf before ++ ['\x7b']).length =
          front.length + (Tree.textOf before).length + 1 := by
        rw [List.length_append, List.length_append, List.length_singleton]
      rw [hopener, List.length_singleton, ← hlength] at hchildren
      have hmoved :=
        readParts_rebreak hmark (front ++ Tree.textOf before ++ ['\x7b'])
          _ content hinside hcontent hchildren
      rw [hlength] at hmoved
      exact read_block_rebreak hmark front _ closer hlead hopener hclose hmoved
    · exact absurd hread nofun

/-- Some parts of the source with other breaks have the nodes of the parts,
moved. -/
theorem readParts_rebreak (hmark : Text.IsBreak mark) (front back : Text)
    {stop : Nat} {nodes : List Node} (parts : List Part)
    (hsource : source = front ++ Part.textOf parts ++ back)
    (hlawful : Tree.Lawful source (Part.treesOf parts))
    (hread : readParts source front.length stop parts = some nodes) :
    readParts (mark.rebreak source) (mark.stretch source front.length)
        (mark.stretch source stop) (rebreakParts mark parts) =
      some (rebreakNodes mark source nodes) := by
  cases parts with
  | nil =>
    cases hread
    rfl
  | cons part rest =>
    obtain ⟨own, others, rfl, hown, hothers⟩ := exists_of_readParts_cons hread
    rw [Part.treesOf_cons, Tree.lawful_append] at hlawful
    have hsplit : source = front ++ part.text ++
        (Part.textOf rest ++ back) := by
      rw [hsource, Part.textOf_cons]
      simp
    have hsplit' : source = (front ++ part.text) ++ Part.textOf rest ++
        back := by
      rw [hsplit]
      simp
    have hadd := Text.stretch_add mark hsplit
    have hempty : (rebreakParts mark rest).isEmpty = rest.isEmpty := by
      cases rest <;> rfl
    have hown' := part.read_rebreak hmark front (Part.textOf rest ++ back)
      hsplit hlawful.1 hown
    rw [← List.length_append] at hothers
    have hothers' :=
      readParts_rebreak hmark (front ++ part.text) back rest hsplit' hlawful.2
      hothers
    rw [List.length_append] at hothers'
    rw [rebreakParts, readParts, Part.text_rebreak, ← hadd,
      endOf_rebreak mark source stop _ hempty, hown', hothers',
      Option.bind_some, Option.map_some, rebreakNodes_eq_map,
      rebreakNodes_eq_map, rebreakNodes_eq_map, List.map_append]

end

/-- A style sheet whose lines are broken otherwise is read as the same tree,
with stretched spans and with the other breaks in its texts. -/
theorem parse_rebreak (hmark : Text.Style mark) (hcr : '\r' ∉ source)
    {document : Document} (h : Document.parse source = .ok document) :
    Document.parse (mark.rebreak source) =
      .ok ⟨mark.rebreak source,
        rebreakNodes mark source document.children⟩ := by
  rw [parse_eq_ok_iff] at h ⊢
  obtain ⟨hfaultless, nodes, hnodes, rfl⟩ := h
  have htext : Part.textOf (group [] (Tree.ofText source)) = source := by
    rw [Part.textOf, treesOf_group, List.reverse_nil, List.nil_append,
      Tree.textOf, Tree.wordsOf_ofText, textOf_words]
  have hlawful :
      Tree.Lawful source (Part.treesOf (group [] (Tree.ofText source))) := by
    rw [treesOf_group]
    exact Tree.lawful_ofText hfaultless
  have hread := readParts_rebreak hmark.isBreak [] [] _ (by rw [htext]; simp)
    hlawful hnodes
  rw [Text.stretch_length, List.length_nil, Text.stretch_zero,
    ← group_rebreak] at hread
  rw [Tree.ofText_rebreak hmark hcr]
  exact ⟨Tree.faultless_rebreakAll hfaultless, _, hread, rfl⟩


/-! ## Texts of nodes -/

theorem mem_of_mem_removeComments {c : Char} :
    ∀ text : Text, c ∈ removeComments text → c ∈ text
  | [], h => h
  | d :: rest, h => by
    by_cases hslash : d = '/'
    · subst hslash
      by_cases hstar : rest.head? = some '*'
      · obtain ⟨body, rfl⟩ := List.head?_eq_some_iff.mp hstar
        cases hfind : Text.find? ['*', '/'] body with
        | none =>
          rw [removeComments_open hfind, List.mem_cons] at h
          exact List.mem_cons.mpr (h.imp id (mem_of_mem_removeComments _))
        | some length =>
          rw [removeComments_comment hfind] at h
          have hbody := List.mem_of_mem_drop (mem_of_mem_removeComments _ h)
          exact List.mem_cons_of_mem _ (List.mem_cons_of_mem _ hbody)
      · rw [removeComments_slash hstar, List.mem_cons] at h
        exact List.mem_cons.mpr (h.imp id (mem_of_mem_removeComments _))
    · rw [removeComments_other hslash, List.mem_cons] at h
      exact List.mem_cons.mpr (h.imp id (mem_of_mem_removeComments _))
termination_by text => text.length

theorem dropLetters_suffix {letters text before : Text}
    (h : dropLetters letters text = some before) : before <:+ text := by
  induction letters generalizing text with
  | nil =>
    cases h
    exact List.suffix_rfl
  | cons letter letters ih =>
    cases text with
    | nil => cases h
    | cons c rest =>
      rw [dropLetters] at h
      split at h
      · exact (ih h).trans (List.suffix_cons c rest)
      · cases h

/-- The value before the mark of importance is trimmed like the whole value, and
it is the start of it. -/
theorem splitImportant_trimmed {value : Text} (h : value.trim = value) :
    (splitImportant value).1.trim = (splitImportant value).1 ∧
      (splitImportant value).1 <+: value := by
  by_cases hmark : ∃ before rest,
      dropLetters "important".toList.reverse value.reverse = some before ∧
        before.dropWhile isBlank = '!' :: rest
  · obtain ⟨before, rest, hbefore, hrest⟩ := hmark
    have hsuffix : rest.dropWhile isBlank <:+ value.reverse := by
      have hfirst : rest <:+ before := by
        have hdrop := List.dropWhile_suffix (l := before) isBlank
        rw [hrest] at hdrop
        exact (List.suffix_cons '!' rest).trans hdrop
      exact ((List.dropWhile_suffix isBlank).trans hfirst).trans
        (dropLetters_suffix hbefore)
    have hprefix : (rest.dropWhile isBlank).reverse <+: value := by
      rw [← List.reverse_suffix, List.reverse_reverse]
      exact hsuffix
    rw [splitImportant_mark hbefore hrest]
    exact ⟨Text.trim_of_prefix h hprefix (by
      intro c hc
      rw [List.getLast?_reverse] at hc
      have hhead := List.head?_dropWhile_not isBlank rest
      rw [hc] at hhead
      exact hhead), hprefix⟩
  · rw [splitImportant_plain]
    · exact ⟨h, List.prefix_rfl⟩
    · intro before hbefore hhead
      obtain ⟨rest, hrest⟩ := List.head?_eq_some_iff.mp hhead
      exact hmark ⟨before, rest, hbefore, hrest⟩

/-- A node whose texts hold no CR, and whose value is trimmed. -/
def Node.Plain : Node → Prop
  | .leaf _ (.declaration property value _) =>
    '\r' ∉ property ∧ '\r' ∉ value ∧ value.trim = value
  | .leaf _ _ => True
  | .container _ _ (.rule selector) _ => '\r' ∉ selector
  | .container _ _ (.atRule _ params _) _ => '\r' ∉ params

/-- The nodes of a source without CR are plain. -/
theorem plain_of_parse (hcr : '\r' ∉ source) {document : Document}
    (h : Document.parse source = .ok document) :
    ∀ node ∈ walk document.children, node.Plain := by
  have hslice : ∀ a b, '\r' ∉ source.slice a b := by
    intro a b hmem
    exact hcr (List.mem_of_mem_drop (List.mem_of_mem_take hmem))
  have htrim : ∀ a b, '\r' ∉ Text.trim (removeComments (source.slice a b)) := by
    intro a b hmem
    exact hslice a b (mem_of_mem_removeComments _ (Text.mem_of_mem_trim hmem))
  refine of_mem_walk_parse ⟨fun _ _ => trivial, ?_, ?_⟩ h
  · intro first others
    rw [statementNode]
    dsimp only
    split
    · exact htrim _ _
    · split
      · have hvalue := fun text => splitImportant_trimmed (Text.trim_trim text)
        exact ⟨hslice _ _, fun hmem => htrim _ _ ((hvalue _).2.subset hmem),
          (hvalue _).1⟩
      · trivial
  · intro before block children
    cases before with
    | nil => exact List.not_mem_nil
    | cons first others =>
      rw [blockNode, headOf]
      cases first.atKeyword? with
      | some name => exact htrim _ _
      | none => exact fun hmem => hslice _ _ (Text.mem_of_mem_trim hmem)

end Reading

end OklchGate.Css
