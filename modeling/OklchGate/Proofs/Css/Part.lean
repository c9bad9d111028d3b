import OklchGate.Css.Document
import OklchGate.Proofs.Css.Tree

/-!
# Parts of a style sheet

A list of trees falls into parts: white space and comments between segments,
segments that a semicolon or the end of the list ends, and segments that a
curly block ends.  The content of such a block falls into parts again.

There are three groups.

* `Token.bare`, a token without its position, and the kinds of trees.
* `Part` and the trees of a part.
* `group`, which finds the parts of a list of trees.  `group_gap`,
  `group_curly`, `group_semicolon` and `group_other` are its equations, and
  `treesOf_group` says that no tree is lost.
-/

namespace OklchGate.Css

/-! ## Kinds of trees -/

namespace Token

/-- A token without its position and its content. -/
def bare : Token → Token
  | leaf _ lexeme => .leaf {} lexeme
  | block _ opener bracket _ closed => .block {} opener bracket [] closed

@[simp] theorem kind?_bare (token : Token) :
    token.bare.kind? = token.kind? := by
  cases token <;> rfl

@[simp] theorem isCurly_bare (token : Token) :
    token.bare.isCurly = token.isCurly := by
  cases token <;> rfl

@[simp] theorem isDelimiter_bare (token : Token) (c : Char) :
    token.bare.isDelimiter c = token.isDelimiter c := by
  cases token <;> rfl

@[simp] theorem comment?_bare (token : Token) :
    token.bare.comment? = token.comment? := by
  cases token with
  | leaf position lexeme =>
    obtain ⟨kind, text⟩ := lexeme
    cases kind <;> rfl
  | block => rfl

@[simp] theorem isGap_bare (token : Token) :
    token.bare.isGap = token.isGap := by
  simp [isGap, isSpace]

end Token

namespace Tree

/-- The token of a tree without its position and its content. -/
def bare : Tree → Token
  | leaf word => .leaf {} word.lexeme
  | block opener bracket _ closer =>
    .block {} opener.lexeme bracket [] closer.isSome

/-- The tree is white space or a comment. -/
def isGap (tree : Tree) : Bool := tree.bare.isGap

/-- The tree is a block between braces. -/
def isCurly (tree : Tree) : Bool := tree.bare.isCurly

/-- The tree is the delimiter `c`. -/
def isDelimiter (c : Char) (tree : Tree) : Bool := tree.bare.isDelimiter c

/-- The text between the marks of a comment. -/
def comment? (tree : Tree) : Option Text := tree.bare.comment?

theorem bare_place (tree : Tree) (position : Position) :
    (tree.place position).bare = tree.bare := by
  cases tree <;> rfl

theorem isGap_place (tree : Tree) (position : Position) :
    (tree.place position).isGap = tree.isGap := by
  rw [← Token.isGap_bare, bare_place, isGap]

theorem isCurly_place (tree : Tree) (position : Position) :
    (tree.place position).isCurly = tree.isCurly := by
  rw [← Token.isCurly_bare, bare_place, isCurly]

theorem isDelimiter_place (tree : Tree) (position : Position) (c : Char) :
    (tree.place position).isDelimiter c = tree.isDelimiter c := by
  rw [← Token.isDelimiter_bare, bare_place, isDelimiter]

theorem comment?_place (tree : Tree) (position : Position) :
    (tree.place position).comment? = tree.comment? := by
  rw [← Token.comment?_bare, bare_place, comment?]

/-- A curly block is a block between braces. -/
theorem eq_block_of_isCurly {tree : Tree} (h : tree.isCurly = true) :
    ∃ opener content closer, tree = block opener .curly content closer := by
  cases tree with
  | leaf word => cases h
  | block opener bracket content closer =>
    have hb : bracket = .curly := of_decide_eq_true h
    exact ⟨opener, content, closer, by rw [hb]⟩

end Tree

/-! ## Parts -/

/-- A part of a list of trees. -/
inductive Part where
  /-- White space or a comment that belongs to no node. -/
  | gap (tree : Tree)
  /-- A comment between two segments. -/
  | comment (tree : Tree)
  /-- A segment without a block; a semicolon may be its last tree. -/
  | statement (first : Tree) (others : List Tree)
  /-- A block between braces, with the trees of its segment before it. -/
  | block (before : List Tree) (opener : Word) (content : List Part)
    (closer : Option Word)

namespace Part

mutual

/-- The trees of a part. -/
def trees : Part → List Tree
  | gap tree => [tree]
  | comment tree => [tree]
  | statement first others => first :: others
  | block before opener content closer =>
    before ++ [.block opener .curly (treesOf content) closer]
termination_by structural part => part

/-- The trees of some parts. -/
def treesOf : List Part → List Tree
  | [] => []
  | part :: rest => part.trees ++ treesOf rest
termination_by structural parts => parts

end

@[simp] theorem treesOf_nil : treesOf [] = [] := rfl

@[simp] theorem treesOf_cons (part : Part) (rest : List Part) :
    treesOf (part :: rest) = part.trees ++ treesOf rest := rfl

@[simp] theorem treesOf_append (a b : List Part) :
    treesOf (a ++ b) = treesOf a ++ treesOf b := by
  induction a with
  | nil => rfl
  | cons part rest ih => simp [ih]

@[simp] theorem treesOf_map_gap (trees : List Tree) :
    treesOf (trees.map gap) = trees := by
  induction trees with
  | nil => rfl
  | cons tree rest ih => simp [ih, Part.trees]

/-- The source text of a part. -/
def text (part : Part) : Text := Tree.textOf part.trees

/-- The source text of some parts. -/
def textOf (parts : List Part) : Text := Tree.textOf (treesOf parts)

@[simp] theorem textOf_nil : textOf [] = [] := rfl

@[simp] theorem textOf_cons (part : Part) (rest : List Part) :
    textOf (part :: rest) = part.text ++ textOf rest := by
  simp [textOf, text]

@[simp] theorem textOf_append (a b : List Part) :
    textOf (a ++ b) = textOf a ++ textOf b := by
  simp [textOf]

/-! ## Grouping trees into parts -/

/-- The part of a segment without a block, or none if the segment is empty. -/
def ofSegment : List Tree → List Part
  | [] => []
  | first :: others => [statement first others]

@[simp] theorem treesOf_ofSegment (segment : List Tree) :
    treesOf (ofSegment segment) = segment := by
  cases segment <;> simp [ofSegment, Part.trees]

/-- The parts of the trees that no semicolon ends, the last tree first. -/
def ofUnfinished (segment : List Tree) : List Part :=
  ofSegment (segment.dropWhile Tree.isGap).reverse ++
    (segment.takeWhile Tree.isGap).reverse.map gap

@[simp] theorem treesOf_ofUnfinished (segment : List Tree) :
    treesOf (ofUnfinished segment) = segment.reverse := by
  rw [ofUnfinished, treesOf_append, treesOf_ofSegment, treesOf_map_gap,
    ← List.reverse_append, List.takeWhile_append_dropWhile]

/-- The part of white space or a comment between segments. -/
def ofGap (tree : Tree) : Part :=
  if tree.comment?.isSome then comment tree else gap tree

@[simp] theorem trees_ofGap (tree : Tree) : (ofGap tree).trees = [tree] := by
  rw [ofGap]
  split <;> rfl

end Part

mutual

/-- The parts of the content of a block; a leaf has none. -/
def Tree.contentParts : Tree → List Part
  | .leaf _ => []
  | .block _ _ content _ => group [] content
termination_by structural tree => tree

/-- The parts of some trees.  `segment` holds the trees since the last end of a
segment, the last one first. -/
def group (segment : List Tree) : List Tree → List Part
  | [] => Part.ofUnfinished segment
  | tree :: rest =>
    if segment.isEmpty && tree.isGap then Part.ofGap tree :: group [] rest
    else
      match tree with
      | .block opener .curly _ closer =>
        .block segment.reverse opener tree.contentParts closer :: group [] rest
      | _ =>
        if tree.isDelimiter ';' then
          (Part.ofSegment (tree :: segment).reverse ++ group [] rest :
          List Part)
        else group (tree :: segment) rest
termination_by structural trees => trees

end

theorem group_nil : group [] [] = [] := rfl

theorem group_gap {tree : Tree} (h : tree.isGap = true) (rest : List Tree) :
    group [] (tree :: rest) = .ofGap tree :: group [] rest := by
  rw [group.eq_def]
  simp [h]

theorem group_curly (segment : List Tree) (opener : Word) (content : List Tree)
    (closer : Option Word) (rest : List Tree) :
    group segment (.block opener .curly content closer :: rest) =
      .block segment.reverse opener (group [] content) closer :: group
        [] rest := by
  rw [group.eq_def]
  simp [Tree.isGap, Tree.bare, Token.isGap, Token.isSpace, Token.kind?,
    Token.comment?, Tree.contentParts]

/-- A delimiter is neither white space nor a comment. -/
theorem Tree.isGap_of_isDelimiter {tree : Tree} {c : Char}
    (h : tree.isDelimiter c = true) :
    tree.isGap = false := by
  cases tree with
  | leaf word =>
    obtain ⟨⟨kind, text⟩, source⟩ := word
    cases kind <;> first | rfl | cases h
  | block => cases h

theorem group_semicolon {tree : Tree} (h : tree.isDelimiter ';' = true)
    (segment rest : List Tree) :
    group segment (tree :: rest) =
      Part.ofSegment (tree :: segment).reverse ++ group [] rest := by
  cases tree with
  | leaf word =>
    rw [group.eq_def]
    simp [Tree.isGap_of_isDelimiter h, h]
  | block => cases h

theorem group_other {segment : List Tree} {tree : Tree}
    (hgap : segment ≠ [] ∨ tree.isGap = false) (hcurly : tree.isCurly = false)
    (hsemicolon : tree.isDelimiter ';' = false) (rest : List Tree) :
    group segment (tree :: rest) = group (tree :: segment) rest := by
  have hskip : (segment.isEmpty && tree.isGap) = false := by
    rcases hgap with h | h
    · simp [h]
    · simp [h]
  cases tree with
  | leaf word =>
    rw [group.eq_def]
    simp [hskip, hsemicolon]
  | block opener bracket content closer =>
    cases bracket with
    | curly => cases hcurly
    | square | round =>
      rw [group.eq_def]
      simp [hskip, hsemicolon]

/-- The four things that a tree can do: it is white space or a comment between
segments, it ends a segment as a curly block or as a semicolon, or it is one
more tree of a segment. -/
theorem group_cases (segment : List Tree) (tree : Tree) :
    (segment = [] ∧ tree.isGap = true) ∨
      (∃ opener content closer, tree = .block opener .curly content closer) ∨
      tree.isDelimiter ';' = true ∨
      ((segment ≠ [] ∨ tree.isGap = false) ∧ tree.isCurly = false ∧
        tree.isDelimiter ';' = false) := by
  by_cases hgap : segment = [] ∧ tree.isGap = true
  · exact Or.inl hgap
  cases hcurly : tree.isCurly with
  | true => exact Or.inr (Or.inl (Tree.eq_block_of_isCurly hcurly))
  | false =>
    cases hsemicolon : tree.isDelimiter ';' with
    | true => exact Or.inr (Or.inr (Or.inl rfl))
    | false =>
      refine Or.inr (Or.inr (Or.inr ⟨?_, rfl, rfl⟩))
      rcases Decidable.not_and_iff_not_or_not.mp hgap with h | h
      · exact Or.inl h
      · exact Or.inr (Bool.eq_false_iff.mpr h)

/-- Grouping loses no tree. -/
theorem treesOf_group (segment trees : List Tree) :
    Part.treesOf (group segment trees) = segment.reverse ++ trees := by
  cases trees with
  | nil => rw [group, Part.treesOf_ofUnfinished, List.append_nil]
  | cons tree rest =>
    rcases group_cases segment tree with
      ⟨rfl, hgap⟩ | ⟨opener, content, closer, rfl⟩ | hsemicolon | ⟨hgap, hcurly,
        hsemicolon⟩
    · rw [group_gap hgap, Part.treesOf_cons, Part.trees_ofGap,
        treesOf_group [] rest]
      rfl
    · rw [group_curly, Part.treesOf_cons, Part.trees, treesOf_group [] rest,
        treesOf_group [] content]
      simp
    · rw [group_semicolon hsemicolon, Part.treesOf_append,
        Part.treesOf_ofSegment, treesOf_group [] rest]
      simp
    · rw [group_other hgap hcurly hsemicolon,
        treesOf_group (tree :: segment) rest]
      simp

end OklchGate.Css
