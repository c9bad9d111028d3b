import OklchGate.Proofs.Css.Spans

/-!
# Nodes without their places

What a node says does not depend on where it stands.  `Node.bare` forgets the
places of a node and of the nodes below it, and what is left can be read off the
part that the node comes from.

There are three groups.

* `Node.bare` and `bareOf`.
* Pieces that are moved: `bare_segmentNodes_shift` and `headOf_shift`.
* `Part.shapes`, the nodes of a part without their places.  `bareOf_readParts`:
  parts whose blocks have both braces are read, and give nodes of these shapes
  wherever they stand.
-/

namespace OklchGate.Css

/-! ## Forgetting places -/

mutual

/-- A node without its place, and so the nodes below it. -/
def Node.bare : Node → Node
  | .leaf _ item => .leaf (.generated {}) item
  | .container _ _ head children =>
    .container (.generated {}) none head (bareOf children)
termination_by structural node => node

/-- Some nodes without their places. -/
def bareOf : List Node → List Node
  | [] => []
  | node :: rest => node.bare :: bareOf rest
termination_by structural nodes => nodes

end

@[simp] theorem bareOf_nil : bareOf [] = [] := rfl

@[simp] theorem bareOf_cons (node : Node) (rest : List Node) :
    bareOf (node :: rest) = node.bare :: bareOf rest := rfl

@[simp] theorem bareOf_append (a b : List Node) :
    bareOf (a ++ b) = bareOf a ++ bareOf b := by
  induction a with
  | nil => rfl
  | cons node rest ih => simp [ih]

/-! ## Moving pieces -/

namespace Piece

/-- A piece that is moved to the right. -/
def shift (n : Nat) (piece : Piece) : Piece :=
  ⟨piece.token, n + piece.start, n + piece.stop⟩

/-- A piece lies in a text of this length. -/
def Within (length : Nat) (piece : Piece) : Prop :=
  piece.start ≤ length ∧ piece.stop ≤ length

end Piece

theorem piecesOf_shift (n start stop : Nat) (trees : List Tree) :
    piecesOf (n + start) (n + stop) trees =
      (piecesOf start stop trees).map (Piece.shift n) := by
  induction trees generalizing start with
  | nil => rfl
  | cons tree rest ih =>
    rw [piecesOf, piecesOf, List.map_cons, Nat.add_assoc, ih]
    cases rest <;> rfl

/-- The pieces of trees that reach up to the end of a text lie in it. -/
theorem within_piecesOf {start stop : Nat} {trees : List Tree}
    (h : start + (Tree.textOf trees).length = stop) :
    ∀ piece ∈ piecesOf start stop trees, piece.Within stop := by
  induction trees generalizing start with
  | nil => exact nofun
  | cons tree rest ih =>
    rw [Tree.textOf_cons, List.length_append, ← Nat.add_assoc] at h
    rw [piecesOf, List.forall_mem_cons]
    refine ⟨⟨?_, ?_⟩, ih h⟩
    · dsimp only
      omega
    · cases rest with
      | nil => exact Nat.le_refl stop
      | cons second more =>
        dsimp only [endOf_cons]
        omega

theorem declarationColon?_shift (n : Nat) (pieces : List Piece) :
    declarationColon? (pieces.map (Piece.shift n)) =
      (declarationColon? pieces).map (n + ·) := by
  induction pieces with
  | nil => rfl
  | cons piece rest ih =>
    rw [List.map_cons, declarationColon?, declarationColon?, ih]
    by_cases hgap : piece.token.isGap = true
    · simp [Piece.shift, hgap]
    · by_cases hcolon : piece.token.isDelimiter ':' = true <;>
        simp [Piece.shift,
        hgap, hcolon]

section Shift

variable (front text back : Text)

/-- A statement says the same wherever its text stands. -/
theorem bare_statementNode_shift (first : Piece) (others : List Piece)
    (h : ∀ piece ∈ first :: others, piece.Within text.length) :
    (statementNode (front ++ text ++ back) (first.shift front.length)
        (others.map (Piece.shift front.length))).bare =
      (statementNode text first others).bare := by
  have hlast : (others.map (Piece.shift front.length)).getLast?.getD
    (first.shift front.length) =
      (others.getLast?.getD first).shift front.length := by
    rw [List.getLast?_map, Option.getD_map]
  have hmem : others.getLast?.getD first ∈ first :: others := by
    cases hget : others.getLast? with
    | none => exact List.mem_cons_self
    | some last => exact List.mem_cons_of_mem _ (List.mem_of_getLast? hget)
  obtain ⟨hstart, hstop⟩ := h _ hmem
  have hfirst := (h first List.mem_cons_self).2
  unfold statementNode
  simp only [hlast, declarationColon?_shift]
  generalize others.getLast?.getD first = last at hstart hstop
  obtain ⟨bodyStop, hbody⟩ : ∃ bodyStop, bodyStop =
      (if last.token.isDelimiter ';' then last.start else last.stop) := ⟨_, rfl⟩
  have hbodyLe : bodyStop ≤ text.length := by
    rw [hbody]
    split <;> assumption
  have hshift : (if (last.shift front.length).token.isDelimiter ';' then
      (last.shift front.length).start else (last.shift front.length).stop) =
        front.length + bodyStop := by
    rw [hbody]
    by_cases hd : last.token.isDelimiter ';' = true <;> simp [Piece.shift, hd]
  rw [hshift, ← hbody]
  have hkeyword : (first.shift front.length).atKeyword? = first.atKeyword? :=
    rfl
  have hidentifier : (first.shift front.length).isIdentifier =
      first.isIdentifier := rfl
  rw [hkeyword, hidentifier]
  simp only [Piece.shift, Text.slice_append_of_le front text back hbodyLe,
    Text.slice_append_of_le front text back hstop,
    Text.slice_append_of_le front text back hfirst]
  cases first.atKeyword? with
  | some name => rfl
  | none =>
    cases first.isIdentifier with
    | false => rfl
    | true =>
      cases declarationColon? others with
      | none => rfl
      | some colon =>
        simp only [if_true, Option.map_some,
          Text.slice_append_of_le front text back hbodyLe]
        rfl

theorem bare_segmentNodes_shift (pieces : List Piece)
    (h : ∀ piece ∈ pieces, piece.Within text.length) :
    bareOf (segmentNodes (front ++ text ++ back)
      (pieces.map (Piece.shift front.length))) =
      bareOf (segmentNodes text pieces) := by
  cases pieces with
  | nil => rfl
  | cons first others =>
    rw [List.map_cons, segmentNodes, segmentNodes, bareOf_cons, bareOf_cons,
      bare_statementNode_shift front text back first others h]

/-- The head of a block says the same wherever its text stands. -/
theorem headOf_shift (before : List Piece) (blockStart : Nat)
    (h : blockStart ≤ text.length) :
    headOf (front ++ text ++ back) (before.map (Piece.shift front.length))
        (front.length + blockStart) =
      headOf text before blockStart := by
  cases before with
  | nil => rfl
  | cons first others =>
    have hkeyword : (first.shift front.length).atKeyword? = first.atKeyword? :=
      rfl
    rw [List.map_cons, headOf, headOf, hkeyword]
    simp only [Piece.shift, Text.slice_append_of_le front text back h]

end Shift

/-! ## The shapes of parts -/

mutual

/-- The nodes of a part without their places. -/
def Part.shapes : Part → List Node
  | .gap _ => []
  | .comment tree => [.leaf (.generated {}) (.comment (tree.comment?.getD []))]
  | .statement first others =>
    let text := Tree.textOf (first :: others)
    bareOf (segmentNodes text (piecesOf 0 text.length (first :: others)))
  | .block before _ content _ =>
    let text := Tree.textOf before
    [.container (.generated {}) none
      (headOf text (piecesOf 0 text.length before) text.length)
      (shapesOf content)]
termination_by structural part => part

/-- The nodes of some parts without their places. -/
def shapesOf : List Part → List Node
  | [] => []
  | part :: rest => part.shapes ++ shapesOf rest
termination_by structural parts => parts

end

@[simp] theorem shapesOf_nil : shapesOf [] = [] := rfl

@[simp] theorem shapesOf_cons (part : Part) (rest : List Part) :
    shapesOf (part :: rest) = part.shapes ++ shapesOf rest := rfl

@[simp] theorem shapesOf_append (a b : List Part) :
    shapesOf (a ++ b) = shapesOf a ++ shapesOf b := by
  induction a with
  | nil => rfl
  | cons part rest ih => simp [ih]

@[simp] theorem shapesOf_gaps (trees : List Tree) :
    shapesOf (trees.map Part.gap) = [] := by
  induction trees with
  | nil => rfl
  | cons tree rest ih => simp [ih, Part.shapes]

mutual

/-- The blocks of a part have both braces. -/
def Part.Braced : Part → Prop
  | .gap _ => True
  | .comment _ => True
  | .statement _ _ => True
  | .block _ opener content closer =>
    opener.text = ['\x7b'] ∧
      (∃ word, closer = some word ∧ word.text = ['\x7d']) ∧ BracedAll content
termination_by structural part => part

/-- The blocks of some parts have both braces. -/
def BracedAll : List Part → Prop
  | [] => True
  | part :: rest => part.Braced ∧ BracedAll rest
termination_by structural parts => parts

end

theorem bracedAll_append {a b : List Part} :
    BracedAll (a ++ b) ↔ BracedAll a ∧ BracedAll b := by
  induction a with
  | nil => simp [BracedAll]
  | cons part rest ih => simp [BracedAll, ih, and_assoc]

/-- The text of a block that has both braces. -/
theorem Part.text_block (before : List Tree) {opener : Word}
    {closer : Option Word} (content : List Part)
    (hopener : opener.text = ['\x7b'])
    (hcloser : ∃ word, closer = some word ∧ word.text = ['\x7d']) :
    (Part.block before opener content closer).text =
      Tree.textOf before ++ (['\x7b'] ++ textOf content ++ ['\x7d']) := by
  obtain ⟨word, rfl, hword⟩ := hcloser
  simp [Part.text, Part.trees, Part.textOf, Tree.textOf, hopener, hword]

mutual

/-- A part whose blocks have both braces is read wherever it stands, and its
nodes have its shapes. -/
theorem Part.bareOf_read (front back : Text) (part : Part) (h : part.Braced) :
    (part.read (front ++ part.text ++ back) front.length
        (front.length + part.text.length)).map bareOf = some part.shapes := by
  cases part with
  | gap tree => rfl
  | comment tree => rfl
  | statement first others =>
    have htext : (Part.statement first others).text =
        Tree.textOf (first :: others) := rfl
    have hpieces :=
      piecesOf_shift front.length 0 (Tree.textOf (first :: others)).length
      (first :: others)
    rw [Nat.add_zero] at hpieces
    rw [Part.read, Option.map_some, htext, hpieces, Part.shapes]
    exact congrArg some (bare_segmentNodes_shift front _ back _
      (within_piecesOf (Nat.zero_add _)))
  | block before opener content closer =>
    obtain ⟨hopener, hcloser, hcontent⟩ := h
    have htext := Part.text_block before content hopener hcloser
    obtain ⟨lead, hlead⟩ : ∃ lead, lead = front ++ Tree.textOf before ++
        ['\x7b'] := ⟨_, rfl⟩
    have hleadLength :
        lead.length = front.length + (Tree.textOf before).length + 1 := by
      rw [hlead, List.length_append, List.length_append]
      rfl
    have hsource :
      front ++ (Part.block before opener content closer).text ++ back =
        lead ++ Part.textOf content ++ ('\x7d' :: back) := by
      rw [htext, hlead]
      simp
    have hstop : front.length +
      (Part.block before opener content closer).text.length =
        lead.length + (Part.textOf content).length + 1 := by
      rw [htext, hleadLength]
      simp only [List.length_append, List.length_cons, List.length_nil]
      omega
    have hclose : (lead ++ Part.textOf content ++ ('\x7d' :: back)).slice
        (lead.length + (Part.textOf content).length)
        (lead.length + (Part.textOf content).length + 1) = ['\x7d'] := by
      have h := Text.slice_of_append (lead ++ Part.textOf content) ['\x7d'] back
      rw [List.length_append] at h
      simpa using h
    have hhead := headOf_shift front (Tree.textOf before)
      (['\x7b'] ++ Part.textOf content ++ ['\x7d'] ++ back)
      (piecesOf 0 (Tree.textOf before).length before) _ (Nat.le_refl _)
    have hsource' : front ++ Tree.textOf before ++
        (['\x7b'] ++ Part.textOf content ++ ['\x7d'] ++ back) =
          lead ++ Part.textOf content ++ ('\x7d' :: back) := by
      rw [hlead]
      simp
    rw [hsource', ← piecesOf_shift, Nat.add_zero] at hhead
    have hchildren := bareOf_readParts lead ('\x7d' :: back) content hcontent
    rw [hsource, hstop, Part.read, Nat.add_sub_cancel, if_pos hclose, hopener]
    rw [List.length_singleton, ← hleadLength, Option.map_map]
    rw [Option.map_eq_some_iff] at hchildren ⊢
    obtain ⟨children, hread, hbare⟩ := hchildren
    refine ⟨children, hread, ?_⟩
    simp only [Function.comp_apply, bareOf_cons, bareOf_nil, blockNode,
      Node.bare, hhead, hbare]
    rfl

/-- Parts whose blocks have both braces are read wherever they stand, and their
nodes have their shapes. -/
theorem bareOf_readParts (front back : Text) (parts : List Part)
    (h : BracedAll parts) :
    (readParts (front ++ Part.textOf parts ++ back) front.length
        (front.length + (Part.textOf parts).length) parts).map bareOf =
          some (shapesOf parts) := by
  cases parts with
  | nil => rfl
  | cons part rest =>
    have hpart := Part.bareOf_read front (Part.textOf rest ++ back) part h.1
    have hrest := bareOf_readParts (front ++ part.text) back rest h.2
    have hsource : front ++ part.text ++ (Part.textOf rest ++ back) =
        front ++ Part.textOf (part :: rest) ++ back := by
      simp
    have hsource' : front ++ part.text ++ Part.textOf rest ++ back =
        front ++ Part.textOf (part :: rest) ++ back := by
      simp
    have hstop : front.length + part.text.length + (Part.textOf rest).length =
        front.length + (Part.textOf (part :: rest)).length := by
      rw [Part.textOf_cons, List.length_append, Nat.add_assoc]
    have hend : endOf (front.length + (Part.textOf (part :: rest)).length)
        (front.length + part.text.length) rest =
          front.length + part.text.length := by
      cases rest with
      | nil => simp
      | cons => rfl
    rw [hsource] at hpart
    rw [hsource', List.length_append, hstop] at hrest
    rw [Option.map_eq_some_iff] at hpart hrest
    obtain ⟨nodes, hnodes, hnodesBare⟩ := hpart
    obtain ⟨others, hothers, hothersBare⟩ := hrest
    rw [readParts, hend, hnodes, Option.bind_some, hothers, Option.map_some,
      Option.map_some, bareOf_append, hnodesBare, hothersBare, shapesOf_cons]

end

end OklchGate.Css
