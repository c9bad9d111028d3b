import OklchGate.Proofs.Css.Reading
import OklchGate.Proofs.Text.Slice

/-!
# Spans of the nodes of a source

The nodes that are read from a source stand one after the other, and the
children of a container stand between its braces.  Nodes that stand so are
printed as the part of the source that they cover.

There are three groups.

* `Tiles`, which says that nodes stand in order in a part of a source, and
  `serializeFrom_of_tiles`.
* `Tree.Lawful`, what is known of the trees of a source that is read.  The end
  of a block is found from the character before it, so an open block may end
  too early.  `Braces` keeps account of it: between the end that is found and
  the true end there are only closing braces.  `Standing` says where parts are.
* `tiles_of_readParts`: nodes of parts stand in order.  `toText_of_parse`: what
  is read is printed back.
-/

namespace OklchGate.Css

/-! ## Nodes in order -/

mutual

/-- A node was read and covers the source from `start` up to `stop`. -/
def Node.Spans (start stop : Nat) : Node → Prop
  | .leaf origin _ => origin = .parsed ⟨start, stop⟩ ∧ start < stop
  | .container origin none _ children =>
    origin = .parsed ⟨start, stop⟩ ∧ start < stop ∧ children = []
  | .container origin (some content) _ children =>
    origin = .parsed ⟨start, stop⟩ ∧ start ≤ content.start ∧
      Tiles content.start content.stop children ∧ content.stop < stop
termination_by structural node => node

/-- Some nodes were read and stand one after the other between `start` and
`stop`. -/
def Tiles (start stop : Nat) : List Node → Prop
  | [] => start ≤ stop
  | node :: rest => ∃ a b, start ≤ a ∧ node.Spans a b ∧ Tiles b stop rest
termination_by structural nodes => nodes

end

mutual

theorem Node.Spans.lt {start stop : Nat} {node : Node}
    (h : node.Spans start stop) :
    start < stop := by
  cases node with
  | leaf origin item => exact h.2
  | container origin content head children =>
    cases content with
    | none => exact h.2.1
    | some content =>
      obtain ⟨_, hstart, hchildren, hstop⟩ := h
      have hle := hchildren.le
      omega

theorem Tiles.le {start stop : Nat} {nodes : List Node}
    (h : Tiles start stop nodes) :
    start ≤ stop := by
  cases nodes with
  | nil => exact h
  | cons node rest =>
    obtain ⟨a, b, hstart, hnode, hrest⟩ := h
    have hlt := hnode.lt
    have hle := hrest.le
    omega

end

theorem Node.Spans.le {start stop : Nat} {node : Node}
    (h : node.Spans start stop) :
    start ≤ stop :=
  Nat.le_of_lt h.lt

theorem Node.Spans.span?_eq {start stop : Nat} {node : Node}
    (h : node.Spans start stop) :
    node.span? = some ⟨start, stop⟩ := by
  have horigin : node.origin = .parsed ⟨start, stop⟩ := by
    cases node with
    | leaf origin item => exact h.1
    | container origin content head children => cases content <;> exact h.1
  rw [Node.span?, horigin]

theorem Tiles.append {start mid stop : Nat} {a b : List Node}
    (ha : Tiles start mid a) (hb : Tiles mid stop b) :
    Tiles start stop (a ++ b) := by
  induction a generalizing start with
  | nil =>
    have hle : start ≤ mid := ha
    cases b with
    | nil => exact Nat.le_trans hle hb
    | cons node rest =>
      obtain ⟨x, y, hx, hnode, hrest⟩ := hb
      exact ⟨x, y, Nat.le_trans hle hx, hnode, hrest⟩
  | cons node rest ih =>
    obtain ⟨x, y, hx, hnode, hrest⟩ := ha
    exact ⟨x, y, hx, hnode, ih hrest⟩

theorem tiles_singleton {start stop : Nat} {node : Node}
    (h : node.Spans start stop) :
    Tiles start stop [node] :=
  ⟨start, stop, Nat.le_refl start, h, Nat.le_refl stop⟩

mutual

/-- A node that was read is printed as the part of the source that it covers. -/
theorem Node.serialize_of_spans {source : Text} {start stop : Nat} {node : Node}
    (h : node.Spans start stop) :
    node.serialize source = source.slice start stop := by
  cases node with
  | leaf origin item =>
    obtain ⟨rfl, _⟩ := h
    rfl
  | container origin content head children =>
    cases content with
    | none =>
      obtain ⟨rfl, _⟩ := h
      rfl
    | some content =>
      obtain ⟨rfl, hstart, hchildren, hstop⟩ := h
      have hle := hchildren.le
      rw [Node.serialize, serializeFrom_of_tiles hchildren,
        Text.slice_append_slice source hstart hle,
        Text.slice_append_slice source (Nat.le_trans hstart hle)
          (Nat.le_of_lt hstop)]

/-- Nodes that stand in order in a part of a source are printed as that
part. -/
theorem serializeFrom_of_tiles {source : Text} {start stop : Nat}
    {nodes : List Node} (h : Tiles start stop nodes) :
    serializeFrom source start stop nodes = source.slice start stop := by
  cases nodes with
  | nil => rfl
  | cons node rest =>
    obtain ⟨a, b, hstart, hnode, hrest⟩ := h
    rw [serializeFrom, hnode.span?_eq]
    dsimp only
    rw [Node.serialize_of_spans hnode, serializeFrom_of_tiles hrest,
      Text.slice_append_slice source hstart hnode.le,
      Text.slice_append_slice source (Nat.le_trans hstart hnode.le) hrest.le]

end

/-! ## The trees of a source that is read -/

namespace Tree

/-- Trees of words of a source, with matched brackets and without faults. -/
structure Lawful (source : Text) (trees : List Tree) : Prop where
  mem : ∀ word ∈ wordsOf trees, word ∈ Css.words source
  matched : MatchedAll trees
  faultless : Faultless trees

theorem lawful_append {source : Text} {a b : List Tree} :
    Lawful source (a ++ b) ↔ Lawful source a ∧ Lawful source b := by
  constructor
  · rintro ⟨hmem, hmatched, hfaultless⟩
    rw [wordsOf_append] at hmem
    rw [matchedAll_append] at hmatched
    rw [faultless_append] at hfaultless
    exact ⟨⟨fun word h => hmem word (List.mem_append_left _ h), hmatched.1,
      hfaultless.1⟩,
      ⟨fun word h => hmem word (List.mem_append_right _ h), hmatched.2,
        hfaultless.2⟩⟩
  · rintro ⟨ha, hb⟩
    refine ⟨?_, matchedAll_append.mpr ⟨ha.matched, hb.matched⟩,
      faultless_append.mpr ⟨ha.faultless, hb.faultless⟩⟩
    intro word h
    rw [wordsOf_append, List.mem_append] at h
    exact h.elim (ha.mem word) (hb.mem word)

/-- The trees of a source without faults are lawful. -/
theorem lawful_ofText {source : Text} (h : Faultless (ofText source)) :
    Lawful source (ofText source) :=
  ⟨fun word hword => by rwa [wordsOf_ofText] at hword, matched_ofText source, h⟩

/-- What is known of a curly block in a lawful list. -/
theorem Lawful.block {source : Text} {opener : Word} {content : List Tree}
    {closer : Option Word}
    (h : Lawful source [.block opener .curly content closer]) :
    opener.text = ['\x7b'] ∧ (∀ word ∈ closer, word.text = ['\x7d']) ∧
      Lawful source content := by
  obtain ⟨hmem, ⟨⟨hopener, hcloser, hcontent⟩, _⟩, hfaultless⟩ := h
  simp only [wordsOf_cons, words_block, wordsOf_nil, List.append_nil,
    List.mem_cons, List.mem_append, Option.mem_toList] at hmem
  simp only [Faultless, leavesOf_cons, leaves, leavesOf_nil,
    List.append_nil] at hfaultless
  refine ⟨?_, ?_, fun word hword => hmem word (Or.inr (Or.inl hword)), hcontent,
    hfaultless⟩
  · have hword := hmem opener (Or.inl rfl)
    exact Word.text_of_plain hword
      (Lexeme.text_of_opening (lexeme_mem_of_mem_words hword) hopener
        (by decide)) (by decide)
      (by decide)
  · intro word hclose
    have hword := hmem word (Or.inr (Or.inr hclose))
    exact Word.text_of_plain hword
      (Lexeme.text_of_closing (lexeme_mem_of_mem_words hword)
        (hcloser word hclose)) (by decide)
      (by decide)

/-- The first word of a lawful tree is no closing brace. -/
theorem Lawful.head {source : Text} {tree : Tree} {rest : List Tree}
    (h : Lawful source (tree :: rest)) :
    ∃ word others, tree.words = word :: others ∧ word ∈ Css.words source ∧
      word.lexeme.kind ≠ .closing .curly := by
  have hmem := h.mem
  rw [wordsOf_cons] at hmem
  cases tree with
  | leaf word =>
    refine ⟨word, [], rfl, hmem word (by simp), ?_⟩
    intro hkind
    have hsound := (h.faultless word (by simp [leaves])).1
    rw [hkind] at hsound
    exact absurd hsound nofun
  | block opener bracket content closer =>
    refine ⟨opener, _, rfl, hmem opener (by simp), ?_⟩
    rw [h.matched.1.1]
    exact nofun

/-- The text of a lawful list that is not empty starts with a character other
than a closing brace. -/
theorem Lawful.head?_textOf {source : Text} {tree : Tree} {rest : List Tree}
    (h : Lawful source (tree :: rest)) :
    ∃ c, (textOf (tree :: rest)).head? = some c ∧ c ≠ '\x7d' := by
  obtain ⟨word, others, hwords, hmem, hkind⟩ := h.head
  obtain ⟨c, tail, htext⟩ := List.exists_cons_of_ne_nil (Word.text_ne_nil hmem)
  refine ⟨c, by simp [text, hwords, htext], ?_⟩
  rintro rfl
  have hlexeme : word.lexeme.text.head? = some '\x7d' := by
    rw [← Word.head?_text hmem (by decide) (by decide) (by decide) (by decide)
      (by decide), htext]
    rfl
  obtain ⟨tail', hplain⟩ := List.head?_eq_some_iff.mp hlexeme
  exact hkind (Lexeme.kind_of_closer (b := .curly)
    (lexeme_mem_of_mem_words hmem) hplain)

end Tree

/-! ## Where a list ends -/

/-- Only closing braces stand from `stop` up to `finish`. -/
def Braces (source : Text) (stop finish : Nat) : Prop :=
  ∀ i, stop ≤ i → i < finish → source[i]? = some '\x7d'

theorem braces_refl (source : Text) (stop : Nat) : Braces source stop stop := by
  intro i hle hlt
  omega

/-- A text that starts with another character starts before the closing
braces at its end. -/
theorem Braces.lt (front text back : Text) {stop : Nat} {c : Char}
    (h : Braces (front ++ text ++ back) stop (front.length + text.length))
    (hhead : text.head? = some c) (hc : c ≠ '\x7d') : front.length < stop := by
  obtain ⟨tail, rfl⟩ := List.head?_eq_some_iff.mp hhead
  rcases Nat.lt_or_ge front.length stop with hlt | hle
  · exact hlt
  · have hchar := h front.length hle (by simp)
    simp at hchar
    exact absurd hchar hc

/-- A slice of one character. -/
theorem slice_eq_singleton {source : Text} {stop : Nat} {c : Char}
    (h : source.slice (stop - 1) stop = [c]) :
    0 < stop ∧ source[stop - 1]? = some c := by
  have hpos : 0 < stop := by
    rcases Nat.eq_zero_or_pos stop with rfl | hpos
    · simp [Text.slice] at h
    · exact hpos
  refine ⟨hpos, ?_⟩
  have hone : stop - (stop - 1) = 1 := by omega
  rw [Text.slice, hone] at h
  rw [← List.head?_drop]
  cases hdrop : source.drop (stop - 1) with
  | nil => simp [hdrop] at h
  | cons d rest =>
    rw [hdrop, List.take_succ_cons, List.take_zero] at h
    rw [List.head?_cons, (List.cons.inj h).1]

/-- The content of a block that ends in a closing brace ends before it. -/
theorem Braces.content {source : Text} {stop finish contentFinish : Nat}
    (h : Braces source stop finish) (hfinish : contentFinish ≤ finish)
    (hclose : source.slice (stop - 1) stop = ['\x7d']) :
    Braces source (stop - 1) contentFinish := by
  obtain ⟨hpos, hlast⟩ := slice_eq_singleton hclose
  intro i hle hlt
  rcases Nat.eq_or_lt_of_le hle with rfl | hgt
  · exact hlast
  · exact h i (by omega) (by omega)

/-! ## Where parts stand -/

theorem Part.exists_trees_eq_cons (part : Part) :
    ∃ tree rest, part.trees = tree :: rest := by
  cases part with
  | gap tree => exact ⟨tree, [], rfl⟩
  | comment tree => exact ⟨tree, [], rfl⟩
  | statement first others => exact ⟨first, others, rfl⟩
  | block before opener content closer => cases before <;> exact ⟨_, _, rfl⟩

/-- Some parts of a source stand after `front`, and `stop` is the end that is
found for them. -/
structure Standing (source front : Text) (stop : Nat) (parts : List Part) :
    Prop where
  placed : ∃ back, source = front ++ Part.textOf parts ++ back
  lawful : Tree.Lawful source (Part.treesOf parts)
  stop_le : stop ≤ front.length + (Part.textOf parts).length
  braces : Braces source stop (front.length + (Part.textOf parts).length)

namespace Standing

variable {source front : Text} {stop : Nat} {part : Part} {rest : List Part}

/-- Parts that are read up to their true end. -/
theorem of_append (front back : Text) {parts : List Part}
    (hsource : source = front ++ Part.textOf parts ++ back)
    (hlawful : Tree.Lawful source (Part.treesOf parts)) :
    Standing source front (front.length + (Part.textOf parts).length) parts :=
  ⟨⟨back, hsource⟩, hlawful, Nat.le_refl _, braces_refl source _⟩

/-- Parts start before the end that is found for them. -/
theorem lt (h : Standing source front stop (part :: rest)) :
    front.length < stop := by
  obtain ⟨tree, trees, htrees⟩ := part.exists_trees_eq_cons
  obtain ⟨back, hplaced⟩ := h.placed
  have hlawful := h.lawful
  have hbraces := h.braces
  rw [Part.treesOf_cons, htrees, List.cons_append] at hlawful
  obtain ⟨c, hhead, hc⟩ := hlawful.head?_textOf
  rw [← List.cons_append, ← htrees, ← Part.treesOf_cons] at hhead
  rw [hplaced] at hbraces
  exact Braces.lt _ _ _ hbraces hhead hc

/-- The parts after the first one. -/
theorem tail (h : Standing source front stop (part :: rest)) :
    Standing source (front ++ part.text) stop rest := by
  obtain ⟨⟨back, hplaced⟩, hlawful, hstop, hbraces⟩ := h
  rw [Part.treesOf_cons, Tree.lawful_append] at hlawful
  rw [Part.textOf_cons] at hplaced
  have hfinish : (front ++ part.text).length + (Part.textOf rest).length =
      front.length + (Part.textOf (part :: rest)).length := by
    rw [Part.textOf_cons, List.length_append, List.length_append, Nat.add_assoc]
  refine ⟨⟨back, ?_⟩, hlawful.2, ?_, ?_⟩
  · rw [hplaced, List.append_assoc front part.text]
  · rwa [hfinish]
  · rwa [hfinish]

/-- The first part.  It ends where the next one starts, and the last part ends
where the list does. -/
theorem head (h : Standing source front stop (part :: rest)) :
    Standing source front (endOf stop (front.length + part.text.length) rest)
      [part] := by
  obtain ⟨⟨back, hplaced⟩, hlawful, hstop, hbraces⟩ := h
  rw [Part.treesOf_cons, Tree.lawful_append] at hlawful
  rw [Part.textOf_cons] at hplaced
  have hfirst : source = front ++ Part.textOf [part] ++
      (Part.textOf rest ++ back) := by
    rw [hplaced]
    simp
  have hpart : Tree.Lawful source (Part.treesOf [part]) := by
    simpa using hlawful.1
  cases rest with
  | nil => exact ⟨⟨_, hfirst⟩, hpart, hstop, hbraces⟩
  | cons second more =>
    have hend : front.length + (Part.textOf [part]).length =
        front.length + part.text.length := by
      simp
    rw [endOf_cons, ← hend]
    exact ⟨⟨_, hfirst⟩, hpart, Nat.le_refl _, braces_refl source _⟩

/-- A block that ends in a closing brace: its content stands after the opening
brace and ends before the closing one. -/
theorem block {before : List Tree} {opener : Word} {content : List Part}
    {closer : Option Word}
    (h : Standing source front stop [.block before opener content closer])
    (hclose : source.slice (stop - 1) stop = ['\x7d']) :
    opener.text = ['\x7b'] ∧ (front ++ Tree.textOf before).length < stop - 1 ∧
      Standing source (front ++ Tree.textOf before ++ ['\x7b'])
        (stop - 1) content := by
  obtain ⟨⟨back, hplaced⟩, hlawful, hstop, hbraces⟩ := h
  rw [Part.treesOf_cons, Part.treesOf_nil, List.append_nil, Part.trees,
    Tree.lawful_append] at hlawful
  obtain ⟨hopener, hcloser, hcontent⟩ := hlawful.2.block
  have hcloserLength : (Word.textOf closer.toList).length ≤ 1 := by
    cases closer with
    | none => exact Nat.zero_le 1
    | some word => simp [hcloser word rfl]
  have htext : Part.textOf [.block before opener content closer] =
      Tree.textOf before ++
        ('\x7b' :: (Part.textOf content ++ Word.textOf closer.toList)) := by
    simp [Part.trees, Part.textOf, Tree.textOf, hopener]
  obtain ⟨lead, hlead⟩ : ∃ lead, lead = front ++ Tree.textOf before := ⟨_, rfl⟩
  have hsplit : source = lead ++ ('\x7b' :: Part.textOf content) ++
      (Word.textOf closer.toList ++ back) := by
    rw [hplaced, htext, hlead]
    simp
  have hfinish :
    front.length + (Part.textOf [.block before opener content closer]).length =
      lead.length + 1 + (Part.textOf content).length +
        (Word.textOf closer.toList).length := by
    rw [htext, hlead]
    simp only [List.length_append, List.length_cons]
    omega
  rw [hfinish] at hbraces hstop
  have hcontentBraces := hbraces.content (Nat.le_add_right _ _) hclose
  rw [← hlead]
  refine ⟨hopener, ?_, ⟨Word.textOf closer.toList ++ back, ?_⟩,
    hcontent, ?_, ?_⟩
  · refine Braces.lt lead ('\x7b' :: Part.textOf content)
      (Word.textOf closer.toList ++ back) ?_ rfl (by decide)
    rw [← hsplit, List.length_cons, ← Nat.add_assoc, Nat.add_right_comm]
    exact hcontentBraces
  · rw [hsplit]
    simp
  · rw [List.length_append, List.length_singleton]
    omega
  · rw [List.length_append, List.length_singleton]
    exact hcontentBraces

end Standing

/-- What a block is read as, with its content after the opening brace. -/
theorem read_block {source front : Text} {stop : Nat} {before : List Tree}
    {opener : Word} {content : List Part} {closer : Option Word}
    {nodes : List Node}
    (hstanding : Standing source front stop
      [.block before opener content closer])
    (h : (Part.block before opener content closer).read source front.length
      stop = some nodes) :
    ∃ inner head children, Standing source inner (stop - 1) content ∧
      front.length < inner.length ∧ inner.length ≤ stop - 1 ∧ stop - 1 < stop ∧
      readParts source inner.length (stop - 1) content = some children ∧
      nodes = [.container (.parsed ⟨front.length, stop⟩)
        (some ⟨inner.length, stop - 1⟩) head children] := by
  rw [Part.read] at h
  split at h
  · next hclose =>
    obtain ⟨hopener, hlt, hcontent⟩ := hstanding.block hclose
    obtain ⟨children, hchildren, rfl⟩ := Option.map_eq_some_iff.mp h
    have hinner : (front ++ Tree.textOf before ++ ['\x7b']).length =
        front.length + (Tree.textOf before).length + 1 := by
      rw [List.length_append, List.length_append, List.length_singleton]
    have hstart :
      ((piecesOf front.length (front.length + (Tree.textOf before).length)
        before).head?.map Piece.start).getD
          (front.length + (Tree.textOf before).length) =
        front.length := by
      cases before <;> rfl
    rw [hopener, List.length_singleton, ← hinner] at hchildren
    rw [List.length_append] at hlt
    refine ⟨_, headOf source (piecesOf front.length
      (front.length + (Tree.textOf before).length) before) (front.length +
        (Tree.textOf before).length), children,
          hcontent, by omega, by omega, by omega,
      hchildren, ?_⟩
    rw [blockNode, hstart, hinner]
  · cases h

/-! ## Nodes of parts -/

/-- A statement covers the source from its first piece to its last one. -/
theorem statementNode_spans (source : Text) (first : Piece)
    (others : List Piece)
    (h : first.start < (others.getLast?.getD first).stop) :
    (statementNode source first others).Spans first.start
      (others.getLast?.getD first).stop := by
  unfold statementNode
  dsimp only
  split
  · exact ⟨rfl, h, rfl⟩
  · split <;> exact ⟨rfl, h⟩

/-- The last piece of a list ends where the list ends. -/
theorem last_piecesOf (start stop : Nat) (first : Tree) (others : List Tree) :
    ((piecesOf (start + first.text.length) stop others).getLast?.getD
      ⟨first.bare, start, endOf stop (start + first.text.length) others⟩).stop =
        stop := by
  rcases List.eq_nil_or_concat others with rfl | ⟨trees, tree, rfl⟩
  · rfl
  · rw [List.concat_eq_append, piecesOf_concat, List.getLast?_concat]
    rfl

mutual

/-- The nodes of a part of a source stand in order. -/
theorem Part.tiles_of_read {source front : Text} {stop : Nat}
    {nodes : List Node} (part : Part)
    (hstanding : Standing source front stop [part])
    (hread : part.read source front.length stop = some nodes) :
    Tiles front.length stop nodes := by
  have hlt := hstanding.lt
  cases part with
  | gap tree =>
    cases hread
    exact Nat.le_of_lt hlt
  | comment tree =>
    cases hread
    exact tiles_singleton ⟨rfl, hlt⟩
  | statement first others =>
    cases hread
    have hlast := last_piecesOf front.length stop first others
    have hspans := statementNode_spans source
      ⟨first.bare, front.length,
        endOf stop (front.length + first.text.length) others⟩
      (piecesOf (front.length + first.text.length) stop others)
      (by rw [hlast]; exact hlt)
    rw [hlast] at hspans
    exact tiles_singleton hspans
  | block before opener content closer =>
    obtain ⟨inner, head, children, hcontent, hopen, hle, hclose,
        hchildren, rfl⟩ :=
      read_block hstanding hread
    have htiles := tiles_of_readParts content hcontent hle hchildren
    exact tiles_singleton ⟨rfl, Nat.le_of_lt hopen, htiles, hclose⟩

/-- The nodes of some parts of a source stand in order. -/
theorem tiles_of_readParts {source front : Text} {stop : Nat}
    {nodes : List Node} (parts : List Part)
    (hstanding : Standing source front stop parts) (hle : front.length ≤ stop)
    (hread : readParts source front.length stop parts = some nodes) :
    Tiles front.length stop nodes := by
  cases parts with
  | nil =>
    cases hread
    exact hle
  | cons part rest =>
    obtain ⟨nodes, others, rfl, hnodes, hothers⟩ :=
      exists_of_readParts_cons hread
    have hfirst := part.tiles_of_read hstanding.head hnodes
    cases rest with
    | nil =>
      cases hothers
      rw [List.append_nil]
      exact hfirst
    | cons second more =>
      have htail := hstanding.tail
      rw [endOf_cons] at hfirst
      rw [← List.length_append] at hfirst hothers
      exact hfirst.append
        (tiles_of_readParts (second :: more) htail (Nat.le_of_lt htail.lt)
          hothers)

end

/-! ## Reading and printing -/

/-- The parts of a source stand in it. -/
theorem standing_group {source : Text}
    (h : Tree.Faultless (Tree.ofText source)) :
    Standing source [] source.length (group [] (Tree.ofText source)) := by
  have htext : Part.textOf (group [] (Tree.ofText source)) = source := by
    rw [Part.textOf, treesOf_group, List.reverse_nil, List.nil_append,
      Tree.textOf, Tree.wordsOf_ofText, textOf_words]
  have hsource : source = [] ++ Part.textOf (group [] (Tree.ofText source)) ++
      [] := by
    rw [htext, List.nil_append, List.append_nil]
  have hlawful :
      Tree.Lawful source (Part.treesOf (group [] (Tree.ofText source))) := by
    rw [treesOf_group]
    exact Tree.lawful_ofText h
  have hstanding := Standing.of_append [] [] hsource hlawful
  rwa [htext, List.length_nil, Nat.zero_add] at hstanding

/-- The nodes of a style sheet stand in order in its source. -/
theorem tiles_of_parse {source : Text} {document : Document}
    (h : Document.parse source = .ok document) :
    document.source = source ∧ Tiles 0 source.length document.children := by
  rw [parse_eq_ok_iff] at h
  obtain ⟨hfaultless, nodes, hnodes, rfl⟩ := h
  refine ⟨rfl, ?_⟩
  exact tiles_of_readParts _ (standing_group hfaultless) (Nat.zero_le _) hnodes

/-- A style sheet that is read is printed back as it was. -/
theorem toText_of_parse {source : Text} {document : Document}
    (h : Document.parse source = .ok document) : document.toText = source := by
  obtain ⟨hsource, htiles⟩ := tiles_of_parse h
  rw [Document.toText, hsource, serializeFrom_of_tiles htiles, Text.slice_all]

/-- A source with all kinds of line breaks, a comment, an escaped brace and a
declaration that nothing ends. -/
theorem toText_of_parse_mixed_breaks :
    ∃ document, Document.parse
      "a,\r\nb\x7bc:\\7d;/*\x0c*/\x7d\rd:e".toList = .ok document ∧
      document.toText = "a,\r\nb\x7bc:\\7d;/*\x0c*/\x7d\rd:e".toList := by
  have hok :
      (Document.parse "a,\r\nb\x7bc:\\7d;/*\x0c*/\x7d\rd:e".toList).isOk =
        true := by
    decide +kernel
  obtain ⟨document, h⟩ := exists_of_isOk hok
  exact ⟨document, h, toText_of_parse h⟩

end OklchGate.Css
