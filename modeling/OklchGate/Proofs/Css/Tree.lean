import OklchGate.Css.Token
import OklchGate.Proofs.Css.Words

/-!
# Trees of words

A tree is a token without its position: a word, or a block with its brackets
and its content.  A tree keeps all of its words, so trees can be turned back
into words.

There are three groups.

* `Tree` and the words of a tree.
* `Tree.nest`, which nests words by brackets, and `Tree.wordsOf_nest`, which
  says that no word is lost.
* `Tree.place`, which gives trees their positions.  `Tree.token_ofText`:
  the tokens of a source are its trees, placed from the start.
-/

namespace OklchGate.Css

/-- A word, or a block of trees between two brackets; the closing one may be
missing. -/
inductive Tree where
  | leaf (word : Word)
  | block (opener : Word) (bracket : Bracket) (content : List Tree)
    (closer : Option Word)

namespace Tree

/-! ## The words of a tree -/

mutual

/-- The words of a tree, in the order of the text. -/
def words : Tree → List Word
  | leaf word => [word]
  | block opener _ content closer =>
    opener :: (wordsOf content ++ closer.toList)
termination_by structural tree => tree

/-- The words of some trees. -/
def wordsOf : List Tree → List Word
  | [] => []
  | tree :: rest => tree.words ++ wordsOf rest
termination_by structural trees => trees

end

@[simp] theorem wordsOf_nil : wordsOf [] = [] := rfl

@[simp] theorem wordsOf_cons (tree : Tree) (rest : List Tree) :
    wordsOf (tree :: rest) = tree.words ++ wordsOf rest := rfl

@[simp] theorem words_leaf (word : Word) : (leaf word).words = [word] := rfl

@[simp] theorem words_block (opener : Word) (bracket : Bracket)
    (content : List Tree) (closer : Option Word) :
    (block opener bracket content closer).words =
      opener :: (wordsOf content ++ closer.toList) := rfl

@[simp] theorem wordsOf_append (a b : List Tree) :
    wordsOf (a ++ b) = wordsOf a ++ wordsOf b := by
  induction a with
  | nil => rfl
  | cons tree rest ih => simp [ih]

/-- The source text of a tree. -/
def text (tree : Tree) : Text := Word.textOf tree.words

/-- The source text of some trees. -/
def textOf (trees : List Tree) : Text := Word.textOf (wordsOf trees)

@[simp] theorem textOf_nil : textOf [] = [] := rfl

@[simp] theorem textOf_cons (tree : Tree) (rest : List Tree) :
    textOf (tree :: rest) = tree.text ++ textOf rest := by
  simp [textOf, text]

@[simp] theorem textOf_append (a b : List Tree) :
    textOf (a ++ b) = textOf a ++ textOf b := by
  simp [textOf]

/-! ## Nesting -/

/-- A block that is open: its opening word, and the trees before it in the list
that it stands in, the last one first. -/
structure Frame where
  opener : Word
  bracket : Bracket
  before : List Tree

/-- The block of a frame with its content, put after the trees before it; the
last tree first. -/
def Frame.close (frame : Frame) (content : List Tree) (closer : Option Word) :
    List Tree :=
  block frame.opener frame.bracket content.reverse closer :: frame.before

/-- The trees of some words.  `stack` holds the open blocks, the innermost
first, and `done` the trees so far of the innermost block, the last one
first. -/
def nest (stack : List Frame) (done : List Tree) : List Word → List Tree
  | [] => (stack.foldl (fun trees frame => frame.close trees none) done).reverse
  | word :: rest =>
    match word.lexeme.kind, stack with
    | .opening bracket, _ => nest (⟨word, bracket, done⟩ :: stack) [] rest
    | .closing bracket, frame :: outer =>
      if bracket = frame.bracket then
        nest outer (frame.close done (some word)) rest
      else nest stack (leaf word :: done) rest
    | _, _ => nest stack (leaf word :: done) rest

/-- The three things that a word can do: it opens a block, it closes the
innermost one, or it is a leaf. -/
theorem nest_cases (stack : List Frame) (done : List Tree) (word : Word)
    (rest : List Word) :
    (∃ b, word.lexeme.kind = .opening b ∧
        nest stack done (word :: rest) =
          nest (⟨word, b, done⟩ :: stack) [] rest) ∨
      (∃ frame outer, stack = frame :: outer ∧
        word.lexeme.kind = .closing frame.bracket ∧
        nest stack done (word :: rest) =
          nest outer (frame.close done (some word)) rest) ∨
      ((∀ b, word.lexeme.kind ≠ .opening b) ∧
        (∀ frame outer, stack = frame :: outer →
          word.lexeme.kind ≠ .closing frame.bracket) ∧
        nest stack done (word :: rest) =
          nest stack (leaf word :: done) rest) := by
  rw [nest.eq_def]
  dsimp only
  split
  · rename_i b hkind
    exact Or.inl ⟨b, hkind, rfl⟩
  · rename_i b frame outer hkind
    by_cases hb : b = frame.bracket
    · rw [if_pos hb]
      exact Or.inr (Or.inl ⟨frame, outer, rfl, hb ▸ hkind, rfl⟩)
    · rw [if_neg hb]
      refine Or.inr (Or.inr ⟨fun b h => by simp [hkind] at h, ?_, rfl⟩)
      rintro _ _ ⟨rfl, rfl⟩ h
      rw [hkind, Lexeme.Kind.closing.injEq] at h
      exact hb h
  · rename_i hopening hclosing
    exact Or.inr (Or.inr ⟨hopening, fun frame outer hs h => hclosing _ _ _ h hs,
      rfl⟩)

/-- The trees of a source. -/
def ofText (source : Text) : List Tree := nest [] [] (Css.words source)

/-- The words before the innermost open block, and the words of that block so
far. -/
def openWords (stack : List Frame) (done : List Tree) : List Word :=
  match stack with
  | [] => wordsOf done.reverse
  | frame :: outer =>
    openWords outer frame.before ++ frame.opener :: wordsOf done.reverse

theorem openWords_cons (stack : List Frame) (tree : Tree) (done : List Tree) :
    openWords stack (tree :: done) = openWords stack done ++ tree.words := by
  cases stack <;> simp [openWords]

theorem openWords_close (frame : Frame) (outer : List Frame) (done : List Tree)
    (closer : Option Word) :
    openWords outer (frame.close done closer) =
      openWords (frame :: outer) done ++ closer.toList := by
  rw [Frame.close, openWords_cons, openWords]
  simp

/-- Nesting loses no word. -/
theorem wordsOf_nest (stack : List Frame) (done : List Tree)
    (words : List Word) :
    wordsOf (nest stack done words) = openWords stack done ++ words := by
  induction words generalizing stack done with
  | nil =>
    rw [nest, List.append_nil]
    induction stack generalizing done with
    | nil => rfl
    | cons frame outer ih =>
      rw [List.foldl_cons, ih, openWords_close]
      simp
  | cons word rest ih =>
    rcases nest_cases stack done word rest with
      ⟨b, _, hnest⟩ | ⟨frame, outer, rfl, _, hnest⟩ | ⟨_, _, hnest⟩
    · rw [hnest, ih, openWords]
      simp
    · rw [hnest, ih, openWords_close]
      simp
    · rw [hnest, ih, openWords_cons]
      simp

/-- The words of the trees of a source are the words of the source. -/
theorem wordsOf_ofText (source : Text) :
    wordsOf (ofText source) = Css.words source := by
  rw [ofText, wordsOf_nest]
  rfl

/-! ## Positions -/

/-- The normalized text of some trees. -/
def plainOf (trees : List Tree) : Text := Word.plainOf (wordsOf trees)

mutual

/-- The token of a tree that starts at a position. -/
def place (position : Position) : Tree → Token
  | leaf word => .leaf position word.lexeme
  | block opener bracket content closer =>
    .block position opener.lexeme bracket
      (placeAll (position.advance opener.lexeme.text) content) closer.isSome
termination_by structural tree => tree

/-- The tokens of some trees that start at a position. -/
def placeAll (position : Position) : List Tree → List Token
  | [] => []
  | tree :: rest =>
    tree.place position :: placeAll
      (position.advance (Word.plainOf tree.words)) rest
termination_by structural trees => trees

end

theorem advance_append (position : Position) (a b : Text) :
    position.advance (a ++ b) = (position.advance a).advance b := by
  rw [Position.advance, List.foldl_append]
  rfl

theorem placeAll_append (position : Position) (a b : List Tree) :
    placeAll position (a ++ b) =
      placeAll position a ++ placeAll (position.advance (plainOf a)) b := by
  induction a generalizing position with
  | nil => rfl
  | cons tree rest ih =>
    rw [List.cons_append, placeAll, placeAll, ih, ← advance_append, plainOf,
      plainOf, wordsOf_cons, Word.plainOf_append]
    rfl

/-- The position at which the innermost open block has its content, where the
outermost list starts at `start`. -/
def contentStart (start : Position) : List Frame → Position
  | [] => start
  | frame :: outer =>
    ((contentStart start outer).advance (plainOf frame.before.reverse)).advance
      frame.opener.lexeme.text

/-- The open blocks with their positions. -/
def placeStack (start : Position) : List Frame → List Token.Frame
  | [] => []
  | frame :: outer =>
    ⟨(contentStart start outer).advance (plainOf frame.before.reverse),
      frame.opener.lexeme,
      frame.bracket,
        (placeAll (contentStart start outer) frame.before.reverse).reverse⟩ ::
      placeStack start outer

/-- The trees of the innermost block so far with their positions, the last one
first. -/
def placeDone (start : Position) (stack : List Frame) (done : List Tree) :
    List Token :=
  (placeAll (contentStart start stack) done.reverse).reverse

theorem placeDone_cons (start : Position) (stack : List Frame) (tree : Tree)
    (done : List Tree) :
    placeDone start stack (tree :: done) =
      tree.place ((contentStart start stack).advance (plainOf done.reverse)) ::
        placeDone start stack done := by
  rw [placeDone, List.reverse_cons, placeAll_append]
  simp [placeAll, placeDone]

theorem placeDone_close (start : Position) (frame : Frame) (outer : List Frame)
    (done : List Tree) (closer : Option Word) :
    ∃ placed, placeStack start (frame :: outer) =
      placed :: placeStack start outer ∧ placed.bracket = frame.bracket ∧
      placed.close (placeDone start (frame :: outer) done) closer.isSome =
        placeDone start outer (frame.close done closer) := by
  refine ⟨_, rfl, rfl, ?_⟩
  rw [Frame.close, placeDone_cons, Token.Frame.close, place]
  simp [placeDone, contentStart]

/-- The position after the trees so far. -/
def donePosition (start : Position) (stack : List Frame) (done : List Tree) :
    Position :=
  (contentStart start stack).advance (plainOf done.reverse)

theorem donePosition_cons (start : Position) (stack : List Frame) (tree : Tree)
    (done : List Tree) :
    donePosition start stack (tree :: done) =
      (donePosition start stack done).advance (Word.plainOf tree.words) := by
  rw [donePosition, List.reverse_cons, plainOf, wordsOf_append,
    Word.plainOf_append, advance_append]
  simp [donePosition, plainOf]

theorem donePosition_close (start : Position) (frame : Frame)
    (outer : List Frame) (done : List Tree) (word : Word) :
    donePosition start outer (frame.close done (some word)) =
      (donePosition start (frame :: outer) done).advance word.lexeme.text := by
  rw [Frame.close, donePosition_cons, donePosition, donePosition, contentStart]
  simp only [words_block, Word.plainOf_cons, Word.plainOf_append,
    advance_append, plainOf, Option.toList, Word.plainOf_nil]
  rfl

/-- Nesting lexemes with their positions gives the trees of the words,
placed. -/
theorem nest_place (start : Position) (stack : List Frame) (done : List Tree)
    (words : List Word) :
    Token.nest (donePosition start stack done) (placeStack start stack)
        (placeDone start stack done) (words.map Word.lexeme) =
      placeAll start (nest stack done words) := by
  induction words generalizing stack done with
  | nil =>
    rw [List.map_nil, Token.nest, nest]
    induction stack generalizing done with
    | nil => simp [placeStack, placeDone, contentStart]
    | cons frame outer ih =>
      obtain ⟨placed, hstack, _, hclose⟩ :=
        placeDone_close start frame outer done none
      rw [hstack, List.foldl_cons, List.foldl_cons, ← ih, ← hclose]
      rfl
  | cons word rest ih =>
    rw [List.map_cons]
    rcases nest_cases stack done word rest with
      ⟨b, hkind, hnest⟩ | ⟨frame, outer, rfl, hkind, hnest⟩ | ⟨hopening,
        hclosing, hnest⟩
    · rw [hnest, ← ih, Token.nest.eq_def]
      simp only [hkind]
      rfl
    · obtain ⟨placed, hstack, hbracket, hclose⟩ :=
        placeDone_close start frame outer done (some word)
      rw [hnest, ← ih, donePosition_close, ← hclose, hstack, Token.nest.eq_def]
      simp only [hkind, hbracket, if_pos]
      rfl
    · rw [hnest, ← ih, donePosition_cons, placeDone_cons, Token.nest.eq_def]
      simp only [words_leaf, Word.plainOf_cons, Word.plainOf_nil,
        List.append_nil]
      split
      · rename_i b hkind
        exact absurd hkind (hopening b)
      · rename_i b placed outer hkind hstack
        cases stack with
        | nil => exact absurd hstack nofun
        | cons frame below =>
          obtain ⟨placed', hstack', hbracket, _⟩ :=
            placeDone_close start frame below done none
          rw [hstack', List.cons.injEq] at hstack
          have hne : b ≠ placed.bracket := by
            rintro rfl
            rw [← hstack.1, hbracket] at hkind
            exact hclosing _ _ rfl hkind
          rw [if_neg hne]
          rfl
      · rfl

/-- The tokens of a source are its trees, placed from the start. -/
theorem token_ofText (source : Text) :
    Token.ofText source = placeAll {} (ofText source) := by
  rw [Token.ofText, Token.ofLexemes, ← map_lexeme_words, ofText, ← nest_place]
  rfl

end Tree

end OklchGate.Css
