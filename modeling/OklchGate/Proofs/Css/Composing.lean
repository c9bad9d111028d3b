import OklchGate.Proofs.Css.Planting
import OklchGate.Proofs.Css.Spelling

/-!
# Parts that are put together

The parts of a text that is put together are those of its pieces, and the nodes
of each piece can be found at its place.

There are three groups.

* `Node.prelude`, the text of a container before its block.
* `Composes`, which says of a text that it is read as some parts between
  segments, with a lemma for each way to put texts together.  `Composes.parse`
  reads such a text.
* `ReadAt`, parts at a place of a source with the nodes that they are read as
  there.
-/

namespace OklchGate.Css

/-- The text of a container that was read with a block, from its start up to its
opening brace. -/
def Node.prelude (source : Text) : Node → Text
  | .container (.parsed span) (some content) _ _ =>
    source.slice span.start (content.start - 1)
  | _ => []

/-- A container from `start` on, with `before` characters before its block and
`length` in all. -/
def containerAt (start before length : Nat) (head : Head)
    (children : List Node) :
    Node :=
  .container (.parsed ⟨start, start + length⟩)
    (some ⟨start + before + 1, start + length - 1⟩) head children

/-- The prelude is the text before the block. -/
theorem prelude_containerAt (front text back : Text) (length : Nat)
    (head : Head) (children : List Node) :
    (containerAt front.length text.length length head children).prelude
      (front ++ text ++ back) =
      text := by
  rw [containerAt, Node.prelude, Nat.add_sub_cancel, Text.slice_of_append]

/-! ## Texts that make up parts -/

/-- An opening brace as a word. -/
def openBrace : Word := same ⟨.opening .curly, ['\x7b']⟩

/-- A closing brace as a word. -/
def closeBrace : Word := same ⟨.closing .curly, ['\x7d']⟩

/-- Between segments, a text is read as these parts when `t` follows it. -/
structure Composes (text : Text) (parts : List Part) (t : Text) : Prop where
  spells : Spells text (Part.treesOf parts) t
  group_eq : ∀ rest, group [] (Part.treesOf parts ++ rest) =
    parts ++ group [] rest

theorem composes_nil (t : Text) : Composes [] [] t :=
  ⟨spells_nil t, fun _ => rfl⟩

namespace Composes

variable {a b t : Text} {as bs : List Part}

theorem append (ha : Composes a as (b ++ t)) (hb : Composes b bs t) :
    Composes (a ++ b) (as ++ bs) t where
  spells := by
    rw [Part.treesOf_append]
    exact ha.spells.append hb.spells
  group_eq := fun rest => by
    rw [Part.treesOf_append, List.append_assoc, ha.group_eq, hb.group_eq,
      List.append_assoc]

/-- The parts have the text that they are read from. -/
theorem textOf_eq (h : Composes a as t) : Part.textOf as = a :=
  h.spells.textOf_eq

/-- The trees of the parts are grouped into these parts. -/
theorem group_self (h : Composes a as t) : group [] (Part.treesOf as) = as := by
  have hself := h.group_eq []
  rwa [List.append_nil, group_nil, List.append_nil] at hself

/-- A text that is read as parts up to its end. -/
theorem ofText_eq (h : Composes a as []) : Part.ofText a = as := by
  rw [Part.ofText, h.spells.ofText_eq, h.group_self]

theorem steady (h : Composes a as []) : Steady as := by
  have hclosed : Token.allClosed (Token.ofText a) = true := by
    rw [Tree.token_ofText, h.spells.ofText_eq]
    exact Tree.allClosed_of_whole _ h.spells.whole
  have hsteady :=
    steady_ofText (by rw [h.spells.ofText_eq]; exact h.spells.whole.faultless)
      hclosed
  rwa [← Part.ofText, h.ofText_eq] at hsteady

end Composes

/-- The start of a segment before a block is no white space. -/
theorem IsSegment.head_of_spells {text t : Text} {before : List Tree}
    (hsegment : IsSegment before) (h : Spells text before ('\x7b' :: t)) :
    ∀ c ∈ (normalizeBreaks (text ++ '\x7b' :: t)).head?, isSpace c = false := by
  cases before with
  | nil =>
    obtain rfl : [] = text := h.textOf_eq
    rintro _ ⟨⟩
    rfl
  | cons tree rest => exact h.head (hsegment.first tree rfl)

/-- White space between segments is a gap. -/
theorem composes_white {w t : Text} (hne : w ≠ []) (hw : White w)
    (ht : ∀ c ∈ (normalizeBreaks t).head?, isSpace c = false) :
    Composes w [.gap (.leaf (spelled .space w))] t where
  spells := spells_white hne hw ht
  group_eq := group_gap rfl

/-- A segment and a block after it. -/
theorem composes_block {head content t : Text} {before inside : List Tree}
    (hhead : Spells head before ('\x7b' :: (content ++ '\x7d' :: t)))
    (hsegment : IsSegment before)
    (hcontent : Spells content inside ('\x7d' :: t)) :
    Composes (head ++ (['\x7b'] ++ content ++ ['\x7d']))
      [.block before openBrace (group [] inside) (some closeBrace)] t where
  spells := by
    have hopen : ∀ u, Lexeme.ofText (['\x7b'] ++ u) =
        ⟨.opening .curly, ['\x7b']⟩ :: Lexeme.ofText u := fun _ => rfl
    have hblock := spells_block (by decide) rfl hopen hcontent
    have htrees : Part.treesOf
      [.block before openBrace (group [] inside) (some closeBrace)] =
        before ++ [.block openBrace .curly inside (some closeBrace)] := by
      rw [Part.treesOf_cons, Part.treesOf_nil, List.append_nil, Part.trees,
        treesOf_group]
      rfl
    rw [htrees]
    refine Spells.append ?_ hblock
    simpa using hhead
  group_eq := fun rest => by
    rw [Part.treesOf_cons, Part.treesOf_nil, List.append_nil, Part.trees,
      treesOf_group, List.append_assoc]
    exact hsegment.group_curly openBrace inside (some closeBrace) rest

/-- Gaps give no nodes. -/
theorem shapesOf_of_isGap {parts : List Part}
    (h : ∀ part ∈ parts, part.isGap = true) :
    shapesOf parts = [] := by
  induction parts with
  | nil => rfl
  | cons part rest ih =>
    rw [List.forall_mem_cons] at h
    rw [shapesOf_cons, ih h.2]
    cases part with
    | gap tree => rfl
    | _ => cases h.1

/-! ## Parts at their places -/

/-- After `front`, the source holds the parts, and they are read there as the
nodes. -/
structure ReadAt (source front : Text) (parts : List Part) (nodes : List Node) :
    Prop where
  placed : ∃ back, source = front ++ Part.textOf parts ++ back
  read : readParts source front.length
    (front.length + (Part.textOf parts).length) parts = some nodes

namespace ReadAt

variable {source front : Text}

theorem nil_inv {nodes : List Node} (h : ReadAt source front [] nodes) :
    nodes = [] :=
  (Option.some.inj h.read).symm

/-- The nodes of parts one after the other. -/
theorem append_inv {a b : List Part} {nodes : List Node}
    (h : ReadAt source front (a ++ b) nodes) :
    ∃ first second, nodes = first ++ second ∧ ReadAt source front a first ∧
      ReadAt source (front ++ Part.textOf a) b second := by
  obtain ⟨⟨back, hsource⟩, hread⟩ := h
  have hend : endOf (front.length + (Part.textOf (a ++ b)).length)
      (front.length + (Part.textOf a).length) b =
        front.length + (Part.textOf a).length := by
    cases b with
    | nil => simp
    | cons => rfl
  rw [readParts_append, hend, Option.bind_eq_some_iff] at hread
  obtain ⟨first, hfirst, hread⟩ := hread
  rw [Option.map_eq_some_iff] at hread
  obtain ⟨second, hsecond, rfl⟩ := hread
  refine ⟨first, second, rfl, ⟨⟨Part.textOf b ++ back, ?_⟩, hfirst⟩,
    ⟨back, ?_⟩, ?_⟩
  · rw [hsource, Part.textOf_append]
    simp
  · rw [hsource, Part.textOf_append]
    simp
  · rw [List.length_append, ← hsecond, Part.textOf_append, List.length_append,
      Nat.add_assoc]

/-- A gap is read as no node. -/
theorem gap_inv {part : Part} {nodes : List Node}
    (h : ReadAt source front [part] nodes) (hgap : part.isGap = true) :
    nodes = [] := by
  have hread := h.read
  cases part with
  | gap tree => exact (Option.some.inj hread).symm
  | _ => cases hgap

/-- Gaps are read as no node. -/
theorem gaps_inv {parts : List Part} {nodes : List Node}
    (h : ReadAt source front parts nodes)
    (hgaps : ∀ part ∈ parts, part.isGap = true) : nodes = [] := by
  induction parts generalizing front nodes with
  | nil => exact h.nil_inv
  | cons part rest ih =>
    rw [List.forall_mem_cons] at hgaps
    rw [← List.singleton_append] at h
    obtain ⟨first, second, rfl, hfirst, hsecond⟩ := h.append_inv
    rw [hfirst.gap_inv hgaps.1, ih hsecond hgaps.2]
    rfl

/-- A part that is no gap is read as one node, which covers it. -/
theorem node_inv {part : Part} {nodes : List Node}
    (h : ReadAt source front [part] nodes) (hgap : part.isGap = false) :
    ∃ node, nodes = [node] ∧
      node.span? = some ⟨front.length, front.length + part.text.length⟩ := by
  have hread := h.read
  rw [Part.textOf_cons, Part.textOf_nil, List.append_nil, readParts, endOf_nil,
    Option.bind_eq_some_iff] at hread
  obtain ⟨own, hown, hnodes⟩ := hread
  rw [readParts, Option.map_some, Option.some.injEq, List.append_nil] at hnodes
  subst hnodes
  exact Part.read_node hgap hown

/-- Of a part between gaps, only the part is read as nodes. -/
theorem between_inv {lead tail : List Part} {part : Part} {nodes : List Node}
    (h : ReadAt source front (lead ++ part :: tail) nodes)
    (hgaps : ∀ gap ∈ lead ++ tail, gap.isGap = true) :
    ReadAt source (front ++ Part.textOf lead) [part] nodes := by
  rw [List.forall_mem_append] at hgaps
  obtain ⟨first, second, rfl, hfirst, hsecond⟩ := h.append_inv
  have hsplit : ReadAt source (front ++ Part.textOf lead) ([part] ++ tail)
      second := hsecond
  obtain ⟨own, third, rfl, hown, hthird⟩ := hsplit.append_inv
  rwa [hfirst.gaps_inv hgaps.1, hthird.gaps_inv hgaps.2, List.nil_append,
    List.append_nil]

/-- What is read as no node is made of gaps. -/
theorem isGap_of_nil {parts : List Part} (h : ReadAt source front parts []) :
    ∀ part ∈ parts, part.isGap = true := by
  induction parts generalizing front with
  | nil => exact List.forall_mem_nil _
  | cons part rest ih =>
    rw [← List.singleton_append] at h
    obtain ⟨first, second, hnodes, hfirst, hsecond⟩ := h.append_inv
    obtain ⟨rfl, rfl⟩ := List.append_eq_nil_iff.mp hnodes.symm
    refine List.forall_mem_cons.mpr ⟨Bool.of_not_eq_false fun hgap => ?_,
      ih hsecond⟩
    obtain ⟨node, hnode, _⟩ := hfirst.node_inv hgap
    cases hnode

/-- What is read as one node is one part between gaps. -/
theorem singleton_inv {parts : List Part} {node : Node}
    (h : ReadAt source front parts [node]) :
    ∃ lead part tail, parts = lead ++ part :: tail ∧
      (∀ gap ∈ lead ++ tail, gap.isGap = true) ∧
      part.isGap = false ∧ ReadAt source (front ++ Part.textOf lead) [part]
        [node] := by
  induction parts generalizing front with
  | nil => cases h.nil_inv
  | cons part rest ih =>
    rw [← List.singleton_append] at h
    obtain ⟨first, second, hnodes, hfirst, hsecond⟩ := h.append_inv
    cases hgap : part.isGap with
    | true =>
      rw [hfirst.gap_inv hgap, List.nil_append] at hnodes
      obtain ⟨lead, own, tail, rfl, hgaps, hown, hread⟩ := ih (hnodes ▸ hsecond)
      rw [List.append_assoc, ← Part.textOf_append,
        List.singleton_append] at hread
      exact ⟨part :: lead, own, tail, rfl,
        List.forall_mem_cons.mpr ⟨hgap, hgaps⟩, hown, hread⟩
    | false =>
      obtain ⟨own, rfl, _⟩ := hfirst.node_inv hgap
      rw [List.singleton_append, List.cons.injEq] at hnodes
      obtain ⟨rfl, rfl⟩ := hnodes
      refine ⟨[], part, rest, rfl, hsecond.isGap_of_nil, hgap, ?_⟩
      rwa [Part.textOf_nil, List.append_nil]

/-- A block is read as a container that covers it, and what is in the block is
read as the children of the container. -/
theorem block_inv {before : List Tree} {opener : Word} {content : List Part}
    {closer : Option Word} {nodes : List Node}
    (hbraced : (Part.block before opener content closer).Braced)
    (h : ReadAt source front [.block before opener content closer] nodes) :
    ∃ head children,
      nodes = [containerAt front.length (Tree.textOf before).length
        (Part.block before opener content closer).text.length head children] ∧
      ReadAt source (front ++ Tree.textOf before ++ ['\x7b']) content
        children := by
  obtain ⟨⟨back, hsource⟩, hread⟩ := h
  obtain ⟨hopener, hcloser, _⟩ := hbraced
  have htext := Part.text_block before content hopener hcloser
  obtain ⟨lead, hlead⟩ : ∃ lead, lead = front ++ Tree.textOf before ++
      ['\x7b'] := ⟨_, rfl⟩
  have hleadLength :
      lead.length = front.length + (Tree.textOf before).length + 1 := by
    rw [hlead, List.length_append, List.length_append]
    rfl
  have hinside : source = lead ++ Part.textOf content ++ ('\x7d' :: back) := by
    rw [hsource, Part.textOf_cons, Part.textOf_nil, List.append_nil, htext,
      hlead]
    simp
  have hstop : front.length +
    (Part.block before opener content closer).text.length =
      lead.length + (Part.textOf content).length + 1 := by
    rw [htext, hleadLength]
    simp only [List.length_append, List.length_cons, List.length_nil]
    omega
  rw [Part.textOf_cons, Part.textOf_nil, List.append_nil, readParts, endOf_nil,
    hstop, Part.read, Nat.add_sub_cancel, Option.bind_eq_some_iff] at hread
  obtain ⟨own, hown, hnodes⟩ := hread
  rw [readParts, Option.map_some, Option.some.injEq, List.append_nil] at hnodes
  subst hnodes
  split at hown
  · rw [hopener, List.length_singleton, ← hleadLength,
      Option.map_eq_some_iff] at hown
    obtain ⟨children, hchildren, rfl⟩ := hown
    have hstart :
      ((piecesOf front.length (front.length + (Tree.textOf before).length)
        before).head?.map Piece.start).getD
          (front.length + (Tree.textOf before).length) =
        front.length := by
      cases before <;> rfl
    refine ⟨_, children,
      by rw [blockNode, hstart, containerAt, hstop, Nat.add_sub_cancel], ?_⟩
    rw [← hlead]
    exact ⟨⟨_, hinside⟩, hchildren⟩
  · cases hown

/-- The nodes have the shapes of the parts. -/
theorem bareOf_eq {parts : List Part} {nodes : List Node}
    (hbraced : BracedAll parts) (h : ReadAt source front parts nodes) :
    bareOf nodes = shapesOf parts := by
  obtain ⟨⟨back, rfl⟩, hread⟩ := h
  have hshapes := bareOf_readParts front back parts hbraced
  rw [hread] at hshapes
  exact Option.some.inj hshapes

/-- The block of a rule is read as a rule, with the text before the block as its
prelude. -/
theorem rule_inv {before : List Tree} {opener : Word} {content : List Part}
    {closer : Option Word} {nodes : List Node} (hleads : Leads before)
    (hbraced : (Part.block before opener content closer).Braced)
    (h : ReadAt source front [.block before opener content closer] nodes) :
    ∃ node, nodes = [node] ∧ node.isRule = true ∧ node.prelude source =
      Tree.textOf before := by
  have hbare := h.bareOf_eq (show BracedAll [_] from ⟨hbraced, trivial⟩)
  obtain ⟨back, hsource⟩ := h.placed
  obtain ⟨head, children, rfl, -⟩ := h.block_inv hbraced
  rw [shapesOf_cons, hleads.shapes_eq] at hbare
  simp only [containerAt, bareOf_cons, Node.bare, List.cons_append,
    List.cons.injEq, Node.container.injEq, true_and] at hbare
  refine ⟨_, rfl, by rw [containerAt, hbare.1.1]; rfl, ?_⟩
  have hsplit : source = front ++ Tree.textOf before ++
      (['\x7b'] ++ Part.textOf content ++ ['\x7d'] ++ back) := by
    rw [hsource, Part.textOf_cons, Part.textOf_nil,
      Part.text_block before content hbraced.1 hbraced.2.1]
    simp
  rw [hsplit, prelude_containerAt]

end ReadAt

/-- What a style sheet is read as stands at its start. -/
theorem readAt_of_parse {source : Text} {document : Document}
    (h : Document.parse source = .ok document) :
    ReadAt source [] (Part.ofText source) document.children := by
  obtain ⟨_, nodes, hread, rfl⟩ := parse_eq_ok_iff.mp h
  refine ⟨⟨[], by simp⟩, ?_⟩
  rw [Part.textOf_ofText, List.length_nil, Nat.zero_add]
  exact hread

/-- A text that is read as parts up to its end is read as a style sheet. -/
theorem Composes.parse {text : Text} {parts : List Part}
    (h : Composes text parts []) :
    ∃ nodes, Document.parse text = .ok ⟨text, nodes⟩ ∧
      ReadAt text [] parts nodes := by
  obtain ⟨nodes, hparse, _⟩ := h.steady.parse
  rw [h.textOf_eq] at hparse
  have hread := readAt_of_parse hparse
  rw [h.ofText_eq] at hread
  exact ⟨nodes, hparse, hread⟩

end OklchGate.Css
