import OklchGate.Proofs.Css.Brackets
import OklchGate.Proofs.Css.Part

/-!
# Nodes from parts

The nodes of a list of tokens depend on the parts of its trees and on where
they stand in the source, and on nothing else.

There are four groups.

* The builders of nodes look at a token without its position and its content:
  `segmentNodes_bare` and `blockNode_bare`.
* `piecesOf`, the pieces of trees from their place in the source, and
  `readParts`, which turns parts into nodes.
* `nodesOf_gap`, `nodesOf_curly`, `nodesOf_semicolon` and `nodesOf_other`, the
  steps of reading tokens, and `readParts_group_gap`, `readParts_group_curly`
  and `readParts_group_semicolon`, those of reading the parts of trees.
* `nodesOf_eq_readParts`: the nodes of the tokens of a source are those of its
  parts.  `parse_eq_ok_iff` says this of a whole style sheet.
-/

namespace OklchGate.Css

/-! ## What the builders of nodes look at -/

namespace Piece

/-- A piece without the position and the content of its token. -/
def bare (piece : Piece) : Piece := ⟨piece.token.bare, piece.start, piece.stop⟩

@[simp] theorem token_bare (piece : Piece) :
    piece.bare.token = piece.token.bare := rfl

@[simp] theorem start_bare (piece : Piece) : piece.bare.start = piece.start :=
  rfl

@[simp] theorem stop_bare (piece : Piece) : piece.bare.stop = piece.stop := rfl

@[simp] theorem atKeyword?_bare (piece : Piece) :
    piece.bare.atKeyword? = piece.atKeyword? := by
  simp [atKeyword?]

@[simp] theorem isIdentifier_bare (piece : Piece) :
    piece.bare.isIdentifier = piece.isIdentifier := by
  simp [isIdentifier]

end Piece

theorem declarationColon?_bare (pieces : List Piece) :
    declarationColon? (pieces.map Piece.bare) = declarationColon? pieces := by
  induction pieces with
  | nil => rfl
  | cons piece rest ih => simp [declarationColon?, ih]

theorem segmentNodes_bare (source : Text) (pieces : List Piece) :
    segmentNodes source (pieces.map Piece.bare) =
      segmentNodes source pieces := by
  cases pieces with
  | nil => rfl
  | cons first others =>
    simp [segmentNodes, statementNode, declarationColon?_bare]

theorem unfinishedNodes_bare (source : Text) (pieces : List Piece) :
    unfinishedNodes source (pieces.map Piece.bare) =
      unfinishedNodes source pieces := by
  rw [unfinishedNodes, List.dropWhile_map, ← List.map_reverse,
    segmentNodes_bare]
  simp [unfinishedNodes, Function.comp_def]

theorem blockNode_bare (source : Text) (before : List Piece) (block : Span)
    (children : List Node) :
    blockNode source (before.map Piece.bare) block children =
      blockNode source before block children := by
  cases before with
  | nil => rfl
  | cons first others => simp [blockNode, headOf]

/-! ## Pieces by their place -/

/-- Where one of some items in a list that ends at `stop` ends: at `after` if
there are items after it. -/
def endOf {α : Type} (stop after : Nat) (rest : List α) : Nat :=
  if rest.isEmpty then stop else after

@[simp] theorem endOf_nil {α : Type} (stop after : Nat) :
    endOf stop after ([] : List α) = stop := rfl

@[simp] theorem endOf_cons {α : Type} (stop after : Nat) (a : α)
    (rest : List α) :
    endOf stop after (a :: rest) = after := rfl

/-- The pieces of some trees that stand from `start` on in a list that ends at
`stop`. -/
def piecesOf (start stop : Nat) : List Tree → List Piece
  | [] => []
  | tree :: rest =>
    ⟨tree.bare, start, endOf stop (start + tree.text.length) rest⟩ ::
      piecesOf (start + tree.text.length) stop rest

theorem length_piecesOf (start stop : Nat) (trees : List Tree) :
    (piecesOf start stop trees).length = trees.length := by
  induction trees generalizing start with
  | nil => rfl
  | cons tree rest ih => simp [piecesOf, ih]

theorem piecesOf_append (start stop : Nat) (a b : List Tree) :
    piecesOf start stop (a ++ b) =
      piecesOf start (endOf stop (start + (Tree.textOf a).length) b) a ++
        piecesOf (start + (Tree.textOf a).length) stop b := by
  induction a generalizing start with
  | nil => simp [piecesOf]
  | cons tree rest ih =>
    rw [List.cons_append, piecesOf, piecesOf, ih, Tree.textOf_cons,
      List.length_append, ← Nat.add_assoc, List.cons_append]
    cases rest with
    | nil => cases b <;> simp
    | cons => simp

/-- The last of some trees ends where the list ends. -/
theorem piecesOf_concat (start stop : Nat) (trees : List Tree) (tree : Tree) :
    piecesOf start stop (trees ++ [tree]) =
      piecesOf start (start + (Tree.textOf trees).length) trees ++
        [⟨tree.bare, start + (Tree.textOf trees).length, stop⟩] := by
  rw [piecesOf_append]
  rfl

/-! ## Nodes of parts -/

mutual

/-- The nodes of a part that stands from `start` up to `stop`.  There are none
if a curly block in it does not end in a closing brace. -/
def Part.read (source : Text) (start stop : Nat) : Part → Option (List Node)
  | .gap _ => some []
  | .comment tree =>
    some [.leaf (.parsed ⟨start, stop⟩) (.comment (tree.comment?.getD []))]
  | .statement first others =>
    some (segmentNodes source (piecesOf start stop (first :: others)))
  | .block before opener content _ =>
    let blockStart := start + (Tree.textOf before).length
    if source.slice (stop - 1) stop = ['\x7d'] then
      (readParts source (blockStart + opener.text.length)
        (stop - 1) content).map fun children =>
        [blockNode source (piecesOf start blockStart before) ⟨blockStart, stop⟩
          children]
    else none
termination_by structural part => part

/-- The nodes of some parts that stand from `start` on in a list that ends at
`stop`. -/
def readParts (source : Text) (start stop : Nat) :
    List Part → Option (List Node)
  | [] => some []
  | part :: rest =>
    (part.read source start (endOf stop (start + part.text.length) rest)).bind
      fun nodes =>
      (readParts source (start + part.text.length) stop rest).map (nodes ++ ·)
termination_by structural parts => parts

end

/-- The nodes of some parts are those of the first part and of the others. -/
theorem exists_of_readParts_cons {source : Text} {start stop : Nat}
    {part : Part} {rest : List Part} {nodes : List Node}
    (h : readParts source start stop (part :: rest) = some nodes) :
    ∃ own others, nodes = own ++ others ∧
      part.read source start (endOf stop (start + part.text.length) rest) =
        some own ∧
      readParts source (start + part.text.length) stop rest = some others := by
  rw [readParts, Option.bind_eq_some_iff] at h
  obtain ⟨own, hown, h⟩ := h
  obtain ⟨others, hothers, rfl⟩ := Option.map_eq_some_iff.mp h
  exact ⟨own, others, rfl, hown, hothers⟩

theorem readParts_append (source : Text) (start stop : Nat) (a b : List Part) :
    readParts source start stop (a ++ b) =
      (readParts source start (endOf stop (start + (Part.textOf a).length) b)
        a).bind
        fun nodes =>
          (readParts source (start + (Part.textOf a).length) stop b).map
          (nodes ++ ·) := by
  induction a generalizing start with
  | nil => simp [readParts]
  | cons part rest ih =>
    have hend : endOf stop (start + part.text.length) (rest ++ b) =
        endOf (endOf stop (start + (Part.textOf (part :: rest)).length) b)
          (start + part.text.length) rest := by
      cases rest with
      | nil => cases b <;> simp
      | cons => simp
    rw [List.cons_append, readParts, readParts, hend, ih, Part.textOf_cons,
      List.length_append, ← Nat.add_assoc]
    cases part.read source start _ with
    | none => rfl
    | some nodes =>
      simp [Option.bind_map, Option.map_bind, Function.comp_def]

theorem read_ofGap (source : Text) (start stop : Nat) (tree : Tree) :
    (Part.ofGap tree).read source start stop =
      some (tree.comment?.map fun text =>
        Node.leaf (.parsed ⟨start, stop⟩) (.comment text)).toList := by
  rw [Part.ofGap]
  cases h : tree.comment? with
  | none => rfl
  | some text => simp [Part.read, h]

theorem readParts_gaps (source : Text) (start stop : Nat) (trees : List Tree) :
    readParts source start stop (trees.map Part.gap) = some [] := by
  induction trees generalizing start with
  | nil => rfl
  | cons tree rest ih => simp [readParts, Part.read, ih]

theorem readParts_ofSegment (source : Text) (start stop : Nat)
    (segment : List Tree) :
    readParts source start stop (Part.ofSegment segment) =
      some (segmentNodes source (piecesOf start stop segment)) := by
  cases segment with
  | nil => rfl
  | cons first others => simp [Part.ofSegment, readParts, Part.read]

theorem map_token_piecesOf (start stop : Nat) (trees : List Tree) :
    (piecesOf start stop trees).map Piece.token = trees.map Tree.bare := by
  induction trees generalizing start with
  | nil => rfl
  | cons tree rest ih => simp [piecesOf, ih]

/-- The trees that no semicolon ends give the node of their pieces. -/
theorem readParts_ofUnfinished (source : Text) (start stop : Nat)
    (segment : List Tree) :
    readParts source start stop (Part.ofUnfinished segment) =
      some (unfinishedNodes source
        (piecesOf start stop segment.reverse).reverse) := by
  have hsplit : segment.reverse =
      (segment.dropWhile Tree.isGap).reverse ++
        (segment.takeWhile Tree.isGap).reverse := by
    rw [← List.reverse_append, List.takeWhile_append_dropWhile]
  have hgaps : ∀ tree ∈ (segment.takeWhile Tree.isGap).reverse,
      tree.isGap = true := by
    intro tree h
    exact List.all_eq_true.mp List.all_takeWhile tree (List.mem_reverse.mp h)
  have hhead := List.head?_dropWhile_not Tree.isGap segment
  rw [Part.ofUnfinished, readParts_append, readParts_ofSegment, readParts_gaps,
    hsplit, piecesOf_append, Part.textOf, Part.treesOf_ofSegment]
  generalize (segment.takeWhile Tree.isGap).reverse = gaps at hgaps
  generalize segment.dropWhile Tree.isGap = unfinished at hhead
  have hend : ∀ after, endOf stop after (gaps.map Part.gap) =
      endOf stop after gaps := by
    intro after
    simp [endOf]
  rw [hend, unfinishedNodes, List.reverse_append, List.dropWhile_append_of_pos]
  · cases unfinished with
    | nil => simp [piecesOf]
    | cons last others =>
      have hlast : last.bare.isGap = false := hhead
      rw [List.reverse_cons, piecesOf_concat, List.reverse_append,
        List.reverse_singleton,
        List.singleton_append, List.dropWhile_cons_of_neg (by simp [hlast])]
      simp
  · intro piece hpiece
    have htoken :=
      List.mem_map_of_mem (f := Piece.token) (List.mem_reverse.mp hpiece)
    rw [map_token_piecesOf, List.mem_map] at htoken
    obtain ⟨tree, htree, hbare⟩ := htoken
    rw [← hbare]
    exact hgaps tree htree

theorem endOf_group (stop after : Nat) (trees : List Tree) :
    endOf stop after (group [] trees) = endOf stop after trees := by
  cases trees with
  | nil => rfl
  | cons tree rest =>
    have hne : group [] (tree :: rest) ≠ [] := by
      intro hnil
      have h := treesOf_group [] (tree :: rest)
      rw [hnil] at h
      exact absurd h nofun
    simp [endOf, hne]

/-! ## One step of reading tokens -/

theorem toOption_bind {ε α β : Type} (x : Except ε α) (f : α → Except ε β) :
    (x >>= f).toOption = x.toOption.bind fun a => (f a).toOption := by
  cases x <;> rfl

theorem exists_of_isOk {ε α : Type} {x : Except ε α} (h : x.isOk = true) :
    ∃ a, x = .ok a := by
  cases x with
  | error error => exact absurd h nofun
  | ok a => exact ⟨a, rfl⟩

section Steps

variable {source : SourceText} {stop start next : Nat} {token : Token}
  {rest : List Token}

theorem nodesOf_gap (hstart : source.startOf token = start)
    (hnext : source.startOfFirst stop rest = next) (hgap : token.isGap = true) :
    (nodesOf source stop [] (token :: rest)).toOption =
      (nodesOf source stop [] rest).toOption.map
        ((token.comment?.map fun text =>
          Node.leaf (.parsed ⟨start, next⟩) (.comment text)).toList ++ ·) := by
  rw [nodesOf, hstart, hnext]
  simp only [List.isEmpty_nil, hgap, Bool.and_self, if_true, toOption_bind]
  cases nodesOf source stop [] rest with
  | error error => rfl
  | ok nodes => cases token.comment? <;> rfl

theorem nodesOf_curly (segment : List Piece)
    (hstart : source.startOf token = start)
    (hnext : source.startOfFirst stop rest = next)
    (hcurly : token.isCurly = true) :
    (nodesOf source stop segment (token :: rest)).toOption =
      if source.text.slice (next - 1) next = ['\x7d'] then
        (token.contentNodes source (next - 1)).toOption.bind fun children =>
          (nodesOf source stop [] rest).toOption.map
            (blockNode source.text segment.reverse ⟨start, next⟩ children :: ·)
      else none := by
  have hgap : token.isGap = false := by
    cases token with
    | leaf => exact absurd hcurly nofun
    | block => rfl
  rw [nodesOf, hstart, hnext]
  simp only [hgap, hcurly, Bool.and_false, Bool.false_eq_true, if_false,
    if_true]
  split
  · rw [toOption_bind]
    cases token.contentNodes source (next - 1) with
    | error error => rfl
    | ok children =>
      cases nodesOf source stop [] rest <;> rfl
  · rfl

theorem nodesOf_semicolon (segment : List Piece)
    (hstart : source.startOf token = start)
    (hnext : source.startOfFirst stop rest = next)
    (h : token.isDelimiter ';' = true) :
    (nodesOf source stop segment (token :: rest)).toOption =
      (nodesOf source stop [] rest).toOption.map
        (segmentNodes source.text
          (⟨token, start, next⟩ :: segment).reverse ++ ·) := by
  have hkind : token.isGap = false ∧ token.isCurly = false := by
    cases token with
    | leaf position lexeme =>
      obtain ⟨kind, text⟩ := lexeme
      cases kind <;> first | exact ⟨rfl, rfl⟩ | exact absurd h nofun
    | block => exact absurd h nofun
  rw [nodesOf, hstart, hnext]
  simp only [hkind.1, hkind.2, h, Bool.and_false, Bool.false_eq_true, if_false,
    if_true]
  rw [toOption_bind]
  cases nodesOf source stop [] rest <;> rfl

theorem nodesOf_other {segment : List Piece}
    (hstart : source.startOf token = start)
    (hnext : source.startOfFirst stop rest = next)
    (hgap : segment ≠ [] ∨ token.isGap = false) (hcurly : token.isCurly = false)
    (hsemicolon : token.isDelimiter ';' = false) :
    nodesOf source stop segment (token :: rest) =
      nodesOf source stop (⟨token, start, next⟩ :: segment) rest := by
  have hskip : (segment.isEmpty && token.isGap) = false := by
    rcases hgap with h | h
    · simp [h]
    · simp [h]
  rw [nodesOf, hstart, hnext]
  simp only [hskip, hcurly, hsemicolon, Bool.false_eq_true, if_false]

end Steps

section Steps

variable (source : Text) {start stop here next : Nat} {segment rest : List Tree}
  {tree : Tree}

theorem readParts_group_gap (hgap : tree.isGap = true)
    (hnext : start + tree.text.length = next) :
    readParts source start stop (group [] (tree :: rest)) =
      (readParts source next stop (group [] rest)).map
        ((tree.comment?.map fun text =>
          Node.leaf (.parsed ⟨start, endOf stop next rest⟩) (.comment
            text)).toList ++ ·) := by
  have htext : (Part.ofGap tree).text = tree.text := by
    rw [Part.text, Part.trees_ofGap, Tree.textOf_cons, Tree.textOf_nil,
      List.append_nil]
  rw [group_gap hgap, readParts, read_ofGap, htext, hnext, endOf_group]
  rfl

theorem readParts_group_curly {opener : Word} {content : List Tree}
    {closer : Option Word} (htree : tree = .block opener .curly content closer)
    (hhere : start + (Tree.textOf segment.reverse).length = here)
    (hnext : here + tree.text.length = next) :
    readParts source start stop (group segment (tree :: rest)) =
      if source.slice (endOf stop next rest - 1) (endOf stop next rest) =
        ['\x7d'] then
        (readParts source (here + opener.text.length) (endOf stop next rest - 1)
            (group [] content)).bind fun children =>
          (readParts source next stop (group [] rest)).map
            (blockNode source (piecesOf start here segment.reverse)
              ⟨here, endOf stop next rest⟩ children :: ·)
      else none := by
  subst htree
  have htext : start +
    (Part.block segment.reverse opener (group [] content) closer).text.length =
      next := by
    rw [← hnext, ← hhere, Part.text, Part.trees, treesOf_group,
      Tree.textOf_append, List.length_append]
    simp [Nat.add_assoc]
  rw [group_curly, readParts, htext, endOf_group, Part.read, hhere]
  split
  · rw [Option.bind_map]
    rfl
  · rfl

theorem readParts_group_semicolon (hsemicolon : tree.isDelimiter ';' = true)
    (hnext : start + (Tree.textOf (tree :: segment).reverse).length = next) :
    readParts source start stop (group segment (tree :: rest)) =
      (readParts source next stop (group [] rest)).map
        (segmentNodes source
          (piecesOf start
            (endOf stop next rest) (tree :: segment).reverse) ++ ·) := by
  rw [group_semicolon hsemicolon, readParts_append, readParts_ofSegment,
    endOf_group, Part.textOf, Part.treesOf_ofSegment, hnext]
  rfl

end Steps

/-! ## The nodes of a source -/

/-- The position after some words at the start of a source. -/
def positionAfter (before : List Word) : Position :=
  Position.advance {} (Word.plainOf before)

theorem positionAfter_nil : positionAfter [] = {} := rfl

theorem positionAfter_advance (before words : List Word) :
    (positionAfter before).advance (Word.plainOf words) =
      positionAfter (before ++ words) := by
  rw [positionAfter, positionAfter, Word.plainOf_append, Tree.advance_append]

theorem positionAfter_opener (before : List Word) (opener : Word) :
    (positionAfter before).advance opener.lexeme.text =
      positionAfter (before ++ [opener]) := by
  rw [← positionAfter_advance, Word.plainOf_cons, Word.plainOf_nil,
    List.append_nil]

/-- Some trees stand after the words `before` in a source. -/
def StandAfter (source : Text) (before : List Word) (trees : List Tree) :
    Prop :=
  ∃ after, words source = before ++ (Tree.wordsOf trees ++ after)

namespace StandAfter

variable {source : Text} {before : List Word}

theorem ofText (source : Text) : StandAfter source [] (Tree.ofText source) :=
  ⟨[], by rw [Tree.wordsOf_ofText, List.nil_append, List.append_nil]⟩

theorem append {a b : List Tree} (h : StandAfter source before (a ++ b)) :
    StandAfter source (before ++ Tree.wordsOf a) b := by
  obtain ⟨after, hwords⟩ := h
  exact ⟨after, by simpa using hwords⟩

theorem head {tree : Tree} {rest : List Tree}
    (h : StandAfter source before (tree :: rest)) :
    StandAfter source before [tree] := by
  obtain ⟨after, hwords⟩ := h
  exact ⟨Tree.wordsOf rest ++ after, by simpa using hwords⟩

theorem tail {tree : Tree} {rest : List Tree}
    (h : StandAfter source before (tree :: rest)) :
    StandAfter source (before ++ tree.words) rest := by
  obtain ⟨after, hwords⟩ := h
  exact ⟨after, by simpa using hwords⟩

/-- The text of the trees stands after that of the words. -/
theorem exists_text {trees : List Tree} (h : StandAfter source before trees) :
    ∃ back, source = Word.textOf before ++ Tree.textOf trees ++ back := by
  obtain ⟨after, hwords⟩ := h
  refine ⟨Word.textOf after, ?_⟩
  rw [Tree.textOf, ← Word.textOf_append, ← Word.textOf_append,
    List.append_assoc, ← hwords, textOf_words]

/-- The content of a block stands after its opening bracket. -/
theorem content {opener : Word} {bracket : Bracket} {content rest : List Tree}
    {closer : Option Word}
    (h : StandAfter source before
      (.block opener bracket content closer :: rest)) :
    StandAfter source (before ++ [opener]) content := by
  obtain ⟨after, hwords⟩ := h
  exact ⟨closer.toList ++ (Tree.wordsOf rest ++ after), by simpa using hwords⟩

end StandAfter

theorem startOf_place {source : Text} {before : List Word} {trees : List Tree}
    (h : StandAfter source before trees) (tree : Tree) :
    (SourceText.ofText source).startOf (tree.place (positionAfter before)) =
      (Word.textOf before).length := by
  obtain ⟨after, hwords⟩ := h
  rw [← offset_of_words hwords]
  cases tree <;> rfl

theorem startOfFirst_placeAll {source : Text} {before : List Word}
    {trees : List Tree} (h : StandAfter source before trees) (stop : Nat) :
    (SourceText.ofText source).startOfFirst stop
        (Tree.placeAll (positionAfter before) trees) =
      endOf stop (Word.textOf before).length trees := by
  cases trees with
  | nil => rfl
  | cons tree rest => exact startOf_place h tree

/-- A reader has come to some trees of a source.  It has found the pieces of the
trees of a segment, the last one first, which stands after the words
`before`. -/
structure ReadUpTo (source : Text) (before : List Word) (stop : Nat)
    (segment : List Tree) (pieces : List Piece) (trees : List Tree) : Prop where
  stand : StandAfter source before (segment.reverse ++ trees)
  pieces_eq : pieces.reverse.map Piece.bare =
    piecesOf (Word.textOf before).length
      (endOf stop (Word.textOf (before ++ Tree.wordsOf segment.reverse)).length
        trees)
      segment.reverse

namespace ReadUpTo

variable {source : Text} {before : List Word} {stop : Nat} {segment : List Tree}
  {pieces : List Piece} {tree : Tree} {rest : List Tree}

/-- A reader between two segments. -/
theorem between {trees : List Tree} (h : StandAfter source before trees) :
    ReadUpTo source before stop [] [] trees :=
  ⟨h, rfl⟩

theorem isEmpty_eq {trees : List Tree}
    (h : ReadUpTo source before stop segment pieces trees) :
    pieces.isEmpty = segment.isEmpty := by
  have hlength := congrArg List.length h.pieces_eq
  rw [length_piecesOf, List.length_map, List.length_reverse,
    List.length_reverse] at hlength
  rw [Bool.eq_iff_iff, List.isEmpty_iff_length_eq_zero,
    List.isEmpty_iff_length_eq_zero, hlength]

/-- One more tree of the segment. -/
theorem push (h : ReadUpTo source before stop segment pieces (tree :: rest))
    {token : Token} (htoken : token.bare = tree.bare) :
    ReadUpTo source before stop (tree :: segment)
      (⟨token, (Word.textOf (before ++ Tree.wordsOf segment.reverse)).length,
        endOf stop (Word.textOf
          (before ++ Tree.wordsOf segment.reverse ++ tree.words)).length
          rest⟩ :: pieces) rest := by
  have hwords : before ++ Tree.wordsOf (tree :: segment).reverse =
      before ++ Tree.wordsOf segment.reverse ++ tree.words := by
    simp
  have hlength : (Word.textOf (before ++ Tree.wordsOf segment.reverse)).length =
      (Word.textOf before).length + (Tree.textOf segment.reverse).length := by
    rw [Word.textOf_append, List.length_append, Tree.textOf]
  have hpieces := h.pieces_eq
  rw [endOf_cons, hlength] at hpieces
  refine ⟨?_, ?_⟩
  · rw [List.reverse_cons, List.append_assoc]
    exact h.stand
  · rw [hwords, List.reverse_cons, List.map_append, hpieces, List.reverse_cons,
      piecesOf_concat, List.map_singleton, Piece.bare, htoken, hlength]

end ReadUpTo

mutual

/-- The nodes in a curly block of a source are those of its parts. -/
theorem contentNodes_eq_readParts {source : Text} {before : List Word}
    {stop : Nat} (tree : Tree) {opener : Word} {content : List Tree}
    {closer : Option Word} (htree : tree = .block opener .curly content closer)
    (h : StandAfter source before [tree]) :
    ((tree.place (positionAfter before)).contentNodes (SourceText.ofText source)
      stop).toOption =
      readParts source ((Word.textOf before).length + opener.text.length) stop
        (group [] content) := by
  cases tree with
  | leaf word => cases htree
  | block opener' bracket content' closer' =>
    cases htree
    have hinside : ReadUpTo source (before ++ [opener]) stop []
        [] content := .between h.content
    have hcontent := nodesOf_eq_readParts content hinside
    rw [List.reverse_nil, Tree.wordsOf_nil, List.append_nil, Word.textOf_append,
      List.length_append] at hcontent
    rw [Tree.place, Token.contentNodes, positionAfter_opener, hcontent]
    simp

/-- The nodes of a list of tokens of a source are those of the parts of their
trees. -/
theorem nodesOf_eq_readParts {source : Text} {before : List Word} {stop : Nat}
    {segment : List Tree} {pieces : List Piece} (trees : List Tree)
    (h : ReadUpTo source before stop segment pieces trees) :
    (nodesOf (SourceText.ofText source) stop pieces
        (Tree.placeAll (positionAfter (before ++ Tree.wordsOf segment.reverse))
          trees)).toOption =
      readParts source (Word.textOf before).length stop
        (group segment trees) := by
  cases trees with
  | nil =>
    have hpieces : pieces.map Piece.bare =
        (piecesOf (Word.textOf before).length stop
          segment.reverse).reverse := by
      have hreverse := h.pieces_eq
      rw [endOf_nil] at hreverse
      rw [← hreverse, List.map_reverse, List.reverse_reverse]
    rw [Tree.placeAll, nodesOf, group, readParts_ofUnfinished, ← hpieces,
      unfinishedNodes_bare]
    rfl
  | cons tree rest =>
    have hstand := h.stand.append
    have hstart := startOf_place hstand tree
    have hstop := startOfFirst_placeAll hstand.tail stop
    have hafter : ReadUpTo source
      (before ++ Tree.wordsOf segment.reverse ++ tree.words) stop
        [] [] rest := .between hstand.tail
    have hrest := nodesOf_eq_readParts rest hafter
    have hpush := h.push (Tree.bare_place tree
      (positionAfter (before ++ Tree.wordsOf segment.reverse)))
    obtain ⟨here, hhere⟩ :
        ∃ here, here = before ++ Tree.wordsOf segment.reverse := ⟨_, rfl⟩
    have hlength :
      (Word.textOf before).length + (Tree.textOf segment.reverse).length =
        (Word.textOf here).length := by
      rw [hhere, Word.textOf_append, List.length_append, Tree.textOf]
    have hnext : (Word.textOf here).length + tree.text.length =
        (Word.textOf (here ++ tree.words)).length := by
      rw [Word.textOf_append, List.length_append, Tree.text]
    rw [List.reverse_nil, Tree.wordsOf_nil, List.append_nil] at hrest
    have hwords : before ++ Tree.wordsOf (tree :: segment).reverse =
        here ++ tree.words := by
      simp [hhere]
    have hempty := h.isEmpty_eq
    rw [← hhere] at hstart hstop hrest hpush hstand ⊢
    rw [Tree.placeAll, positionAfter_advance]
    rcases group_cases segment tree with
      ⟨rfl, hgap⟩ | ⟨opener, content, closer, htree⟩ | hsemicolon | ⟨hgap,
        hcurly, hsemicolon⟩
    · obtain rfl : pieces = [] := List.isEmpty_iff.mp hempty
      obtain rfl : here = before := by simpa using hhere
      rw [nodesOf_gap hstart hstop (by rw [Tree.isGap_place, hgap]), hrest,
        readParts_group_gap source hgap hnext, Tree.comment?_place]
    · have hpieces := h.pieces_eq
      rw [endOf_cons, ← hhere] at hpieces
      rw [nodesOf_curly pieces hstart hstop
        (by rw [Tree.isCurly_place, htree]; rfl), hrest,
        readParts_group_curly source htree hlength hnext,
        contentNodes_eq_readParts tree htree hstand.head, ← hpieces]
      simp only [blockNode_bare]
      rfl
    · have hsegment : (Word.textOf before).length +
        (Tree.textOf (tree :: segment).reverse).length =
          (Word.textOf (here ++ tree.words)).length := by
        rw [← hnext, ← hlength, List.reverse_cons, Tree.textOf_append,
          List.length_append]
        simp [Nat.add_assoc]
      rw [nodesOf_semicolon pieces hstart hstop
        (by rw [Tree.isDelimiter_place, hsemicolon]),
        hrest, readParts_group_semicolon source hsemicolon hsegment, ← hwords,
          ← hpush.pieces_eq,
        segmentNodes_bare, hwords]
      rfl
    · rw [nodesOf_other hstart hstop _ (by rw [Tree.isCurly_place, hcurly])
        (by rw [Tree.isDelimiter_place, hsemicolon]),
          group_other hgap hcurly hsemicolon]
      · have hothers := nodesOf_eq_readParts rest hpush
        rwa [hwords] at hothers
      · refine hgap.imp (fun hne hnil => hne ?_)
          fun hgap => by rw [Tree.isGap_place, hgap]
        rw [hnil] at hempty
        exact List.isEmpty_iff.mp hempty.symm

end

/-- A style sheet is read exactly when its trees are faultless and its parts
give nodes, and these are its nodes. -/
theorem parse_eq_ok_iff {source : Text} {document : Document} :
    Document.parse source = .ok document ↔
      Tree.Faultless (Tree.ofText source) ∧
        ∃ nodes,
          readParts source 0 source.length (group [] (Tree.ofText source)) =
            some nodes ∧ document = ⟨source, nodes⟩ := by
  have hstart : ReadUpTo source [] source.length [] [] (Tree.ofText source) :=
    .between (.ofText source)
  have hread := nodesOf_eq_readParts (Tree.ofText source) hstart
  rw [List.reverse_nil, Tree.wordsOf_nil, List.append_nil, Word.textOf_nil,
    List.length_nil]
    at hread
  rw [positionAfter_nil, ← Tree.token_ofText] at hread
  rw [← Tree.faultless_ofText, ← hread, Document.parse]
  cases (firstLexicalError? (Token.ofText source)).or
      (firstOpenComment? (Token.ofText source)) with
  | some error => simp
  | none =>
    cases nodesOf (SourceText.ofText source) source.length []
      (Token.ofText source) with
    | error error => simp [Except.toOption, bind, Except.bind]
    | ok nodes =>
      simp [Except.toOption, bind, Except.bind, pure, Except.pure, eq_comm]

end OklchGate.Css
