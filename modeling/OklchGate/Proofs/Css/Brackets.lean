import OklchGate.Css.ParseError
import OklchGate.Proofs.Css.Tree

/-!
# Brackets and faults in trees

What nesting guarantees of the trees of a source, and where the faults of a
source can lie.

There are three groups.

* `Tree.Matched`: blocks stand between words that open and close the same
  bracket.  `matched_ofText` says so of the trees of a source.
* `Tree.leavesOf`, the words that are no brackets of a block, and
  `Tree.Faultless`, which rules faults out among them.
* `firstLexicalError?_placeAll` and `firstOpenComment?_placeAll`: the reader
  finds no fault exactly when there is none.
-/

namespace OklchGate.Css

/-- A word that a style sheet may hold where it is no bracket of a block. -/
def Word.Sound (word : Word) : Prop :=
  ParseError.Cause.ofKind? word.lexeme.kind = none ∧
    word.lexeme.kind ≠ .comment false

namespace Tree

/-! ## Matched brackets -/

mutual

/-- The words around every block in a tree open and close its bracket, and no
leaf opens one. -/
def Matched : Tree → Prop
  | leaf word => ∀ bracket, word.lexeme.kind ≠ .opening bracket
  | block opener bracket content closer =>
    opener.lexeme.kind = .opening bracket ∧
      (∀ word ∈ closer, word.lexeme.kind = .closing bracket) ∧
        MatchedAll content
termination_by structural tree => tree

/-- Every one of some trees is matched. -/
def MatchedAll : List Tree → Prop
  | [] => True
  | tree :: rest => tree.Matched ∧ MatchedAll rest
termination_by structural trees => trees

end

theorem matchedAll_iff {trees : List Tree} :
    MatchedAll trees ↔ ∀ tree ∈ trees, tree.Matched := by
  induction trees with
  | nil => simp [MatchedAll]
  | cons tree rest ih => simp [MatchedAll, ih]

theorem matchedAll_append {a b : List Tree} :
    MatchedAll (a ++ b) ↔ MatchedAll a ∧ MatchedAll b := by
  simp [matchedAll_iff, or_imp, forall_and]

theorem matchedAll_reverse {trees : List Tree} :
    MatchedAll trees.reverse ↔ MatchedAll trees := by
  simp [matchedAll_iff]

/-- The open blocks start with words that open their brackets, after trees that
are matched. -/
def StackMatched (stack : List Frame) : Prop :=
  ∀ frame ∈ stack,
    frame.opener.lexeme.kind = .opening frame.bracket ∧ MatchedAll frame.before

theorem matchedAll_close {frame : Frame} {content : List Tree}
    {closer : Option Word}
    (hframe : frame.opener.lexeme.kind = .opening frame.bracket ∧
      MatchedAll frame.before)
    (hcloser : ∀ word ∈ closer, word.lexeme.kind = .closing frame.bracket)
    (hcontent : MatchedAll content) : MatchedAll (frame.close content closer) :=
  ⟨⟨hframe.1, hcloser, matchedAll_reverse.mpr hcontent⟩, hframe.2⟩

/-- Nesting gives matched trees. -/
theorem matched_nest {stack : List Frame} {done : List Tree} {words : List Word}
    (hstack : StackMatched stack) (hdone : MatchedAll done) :
    MatchedAll (nest stack done words) := by
  induction words generalizing stack done with
  | nil =>
    rw [nest, matchedAll_reverse]
    induction stack generalizing done with
    | nil => exact hdone
    | cons frame outer ih =>
      rw [StackMatched, List.forall_mem_cons] at hstack
      exact ih hstack.2 (matchedAll_close hstack.1 (by simp) hdone)
  | cons word rest ih =>
    rcases nest_cases stack done word rest with
      ⟨b, hkind, hnest⟩ | ⟨frame, outer, rfl, hkind, hnest⟩ | ⟨hopening,
        _, hnest⟩
    · rw [hnest]
      exact ih (List.forall_mem_cons.mpr ⟨⟨hkind, hdone⟩, hstack⟩) trivial
    · rw [hnest]
      rw [StackMatched, List.forall_mem_cons] at hstack
      refine ih hstack.2 (matchedAll_close hstack.1 ?_ hdone)
      rintro _ ⟨⟩
      exact hkind
    · rw [hnest]
      exact ih hstack ⟨hopening, hdone⟩

/-- The trees of a source are matched. -/
theorem matched_ofText (source : Text) : MatchedAll (ofText source) :=
  matched_nest nofun trivial

/-! ## Leaves -/

mutual

/-- The words of a tree that are no brackets of a block. -/
def leaves : Tree → List Word
  | leaf word => [word]
  | block _ _ content _ => leavesOf content
termination_by structural tree => tree

/-- The words of some trees that are no brackets of a block. -/
def leavesOf : List Tree → List Word
  | [] => []
  | tree :: rest => tree.leaves ++ leavesOf rest
termination_by structural trees => trees

end

@[simp] theorem leavesOf_nil : leavesOf [] = [] := rfl

@[simp] theorem leavesOf_cons (tree : Tree) (rest : List Tree) :
    leavesOf (tree :: rest) = tree.leaves ++ leavesOf rest := rfl

@[simp] theorem leavesOf_append (a b : List Tree) :
    leavesOf (a ++ b) = leavesOf a ++ leavesOf b := by
  induction a with
  | nil => rfl
  | cons tree rest ih => simp [ih]

/-- No leaf of some trees is faulty. -/
def Faultless (trees : List Tree) : Prop := ∀ word ∈ leavesOf trees, word.Sound

theorem faultless_append {a b : List Tree} :
    Faultless (a ++ b) ↔ Faultless a ∧ Faultless b := by
  simp [Faultless, or_imp, forall_and]

/-! ## Faults that the reader finds -/

mutual

theorem lexicalError?_place (position : Position) (tree : Tree) :
    (tree.place position).lexicalError? = none ↔
      ∀ word ∈ tree.leaves, ParseError.Cause.ofKind? word.lexeme.kind =
        none := by
  cases tree with
  | leaf word => simp [place, leaves, Token.lexicalError?]
  | block opener bracket content closer =>
    exact firstLexicalError?_placeAll _ content

/-- The reader finds no faulty lexeme exactly when no leaf is faulty. -/
theorem firstLexicalError?_placeAll (position : Position) (trees : List Tree) :
    firstLexicalError? (placeAll position trees) = none ↔
      ∀ word ∈ leavesOf trees, ParseError.Cause.ofKind? word.lexeme.kind =
        none := by
  cases trees with
  | nil => simp [placeAll, firstLexicalError?]
  | cons tree rest =>
    rw [placeAll, firstLexicalError?, Option.or_eq_none_iff,
      lexicalError?_place position tree, firstLexicalError?_placeAll _ rest]
    simp [or_imp, forall_and]

end

mutual

theorem openComment?_place (position : Position) (tree : Tree) :
    (tree.place position).openComment? = none ↔
      ∀ word ∈ tree.leaves, word.lexeme.kind ≠ .comment false := by
  cases tree with
  | leaf word => simp [place, leaves, Token.openComment?]
  | block opener bracket content closer =>
    exact firstOpenComment?_placeAll _ content

/-- The reader finds no open comment exactly when no leaf is one. -/
theorem firstOpenComment?_placeAll (position : Position) (trees : List Tree) :
    firstOpenComment? (placeAll position trees) = none ↔
      ∀ word ∈ leavesOf trees, word.lexeme.kind ≠ .comment false := by
  cases trees with
  | nil => simp [placeAll, firstOpenComment?]
  | cons tree rest =>
    rw [placeAll, firstOpenComment?, Option.or_eq_none_iff,
      openComment?_place position tree, firstOpenComment?_placeAll _ rest]
    simp [or_imp, forall_and]

end

/-- The reader finds no fault in a source exactly when no leaf of its trees is
faulty. -/
theorem faultless_ofText (source : Text) :
    (firstLexicalError? (Token.ofText source)).or
      (firstOpenComment? (Token.ofText source)) = none ↔
      Faultless (ofText source) := by
  rw [Option.or_eq_none_iff, token_ofText, firstLexicalError?_placeAll,
    firstOpenComment?_placeAll]
  simp [Faultless, Word.Sound, forall_and]

end Tree

end OklchGate.Css
