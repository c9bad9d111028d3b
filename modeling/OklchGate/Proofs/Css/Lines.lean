import OklchGate.Proofs.Css.Composing
import OklchGate.Proofs.Css.Copying

/-!
# Rules on lines of their own

A rule with one declaration of a color, on one line.

There are three groups.

* `LineRule`, its text and its node, and `LineRule.Stands`, which says that the
  line is read as this rule.
* `Anatomy`, the trees of such a line.
* `Stands.exists_anatomy`: they can be read off the node of the line, and so
  they are the same wherever the line stands.
-/

namespace OklchGate.Css

/-- A rule with one declaration of a color. -/
structure LineRule where
  selector : Text
  property : Text
  digits : Text

namespace LineRule

/-- The value of the declaration. -/
def value (rule : LineRule) : Text := '#' :: rule.digits

/-- The declaration. -/
def declared (rule : LineRule) : Text :=
  rule.property ++ ':' :: (' ' :: (rule.value ++ [';']))

/-- What stands between the braces of the rule. -/
def inside (rule : LineRule) : Text := [' '] ++ (rule.declared ++ [' '])

/-- The rule on one line. -/
def text (rule : LineRule) : Text :=
  (rule.selector ++ [' ']) ++ (['\x7b'] ++ rule.inside ++ ['\x7d'])

/-- The rule as a node from `start` on, with every part where the line has
it. -/
def nodeAt (rule : LineRule) (start : Nat) : Node :=
  containerAt start (rule.selector ++ [' ']).length rule.text.length
    (.rule rule.selector)
    [.leaf (.parsed ⟨start + rule.selector.length + 3,
      start + rule.text.length - 2⟩)
      (.declaration rule.property rule.value false)]

/-- A line that ends in LF is read as this rule. -/
structure Stands (rule : LineRule) : Prop where
  lf : '\r' ∉ rule.text
  reads : Document.parse (rule.text ++ ['\n']) = .ok ⟨rule.text ++ ['\n'],
    [rule.nodeAt 0]⟩

/-! ## The trees of a line -/

/-- The trees before the block of a rule and the parts of what is in it, which
are read alike wherever the rule stands. -/
structure Anatomy (rule : LineRule) (before : List Tree) (content : List Part) :
    Prop where
  leads : Leads before
  head : ∀ t, Spells (rule.selector ++ [' ']) before ('\x7b' :: t)
  property : ReadsAsProperty rule.property
  composes : ∀ t,
    Composes rule.text [.block before openBrace content (some closeBrace)] t
  layout : ∃ lead part tail, content = lead ++ part :: tail ∧
    Part.textOf lead = [' '] ∧
    part.text = rule.declared ∧ part.isGap = false ∧ ∀ gap ∈ lead ++ tail,
      gap.isGap = true
  shapes : shapesOf [.block before openBrace content (some closeBrace)] =
    bareOf [rule.nodeAt 0]

namespace Anatomy

variable {rule : LineRule} {before : List Tree} {content : List Part}

/-- The trees before the block are the selector and a space. -/
theorem textOf_before (h : Anatomy rule before content) :
    Tree.textOf before = rule.selector ++ [' '] :=
  (h.head []).textOf_eq

/-- The blocks of the trees have both braces. -/
theorem braced (h : Anatomy rule before content) :
    (Part.block before openBrace content (some closeBrace)).Braced :=
  (h.composes []).steady.bracedAll.1

/-- The trees are read as the rule wherever they stand. -/
theorem readAt_inv (h : Anatomy rule before content) {source front : Text}
    {nodes : List Node}
    (hread : ReadAt source front
      [.block before openBrace content (some closeBrace)] nodes) :
    nodes = [rule.nodeAt front.length] := by
  have hbare := hread.bareOf_eq (show BracedAll [_] from ⟨h.braced, trivial⟩)
  obtain ⟨head, children, rfl, hchildren⟩ := hread.block_inv h.braced
  rw [h.shapes] at hbare
  simp only [containerAt, nodeAt, bareOf_cons, bareOf_nil, Node.bare,
    List.cons.injEq, Node.container.injEq, true_and, and_true] at hbare
  obtain ⟨rfl, hbare⟩ := hbare
  have htext : (Part.block before openBrace content (some closeBrace)).text =
      rule.text := by
    simpa using (h.composes []).textOf_eq
  obtain ⟨lead, part, tail, rfl, hlead, hpartText, hpart, hgaps⟩ := h.layout
  obtain ⟨child, rfl, hspan⟩ := (hchildren.between_inv hgaps).node_inv hpart
  rw [hlead, hpartText, h.textOf_before] at hspan
  cases child with
  | container => cases hbare
  | leaf origin item =>
    simp only [bareOf_cons, bareOf_nil, Node.bare, List.cons.injEq,
      Node.leaf.injEq, true_and, and_true] at hbare
    cases origin with
    | generated => cases hspan
    | parsed span =>
      have hplace : span = ⟨front.length + rule.selector.length + 3,
          front.length + rule.text.length - 2⟩ := by
        refine (Option.some.inj hspan).trans ?_
        simp only [Span.mk.injEq, text, inside, List.length_append,
          List.length_cons, List.length_nil]
        omega
      rw [hplace, htext, h.textOf_before, nodeAt, ← hbare]

end Anatomy

/-! ## Reading the trees off a line -/

theorem text_ne_nil_of_mem {source : Text} {part : Part}
    (h : part ∈ Part.ofText source) :
    part.text ≠ [] := by
  obtain ⟨tree, rest, htrees⟩ := part.exists_trees_eq_cons
  obtain ⟨word, own, hwords⟩ : ∃ word own, tree.words = word :: own := by
    cases tree with
    | leaf word => exact ⟨word, [], rfl⟩
    | block opener bracket content closer => exact ⟨opener, _, rfl⟩
  have hmem : word ∈ words source := by
    obtain ⟨a, b, hparts⟩ := List.append_of_mem h
    have htrees' := congrArg Part.treesOf hparts
    rw [Part.treesOf_ofText, Part.treesOf_append, Part.treesOf_cons,
      htrees] at htrees'
    rw [← Tree.wordsOf_ofText, htrees']
    simp [hwords]
  rw [Part.text, htrees, Tree.textOf, Tree.wordsOf_cons, hwords,
    List.cons_append, Word.textOf_cons]
  exact fun hnil => Word.text_ne_nil hmem (List.append_eq_nil_iff.mp hnil).1

/-- The property of a declaration at the start of a text is read before every
colon. -/
theorem readsAsProperty_of_shapes {first : Tree} {others : List Tree}
    {origin : Origin} {property value : Text} {important : Bool} {rest : Text}
    {front after : List Word}
    (h : (Part.statement first others).shapes =
      [.leaf origin (.declaration property value important)])
    (htext : Tree.textOf (first :: others) = property ++ ':' :: rest)
    (hexact : Exact (front ++ (Tree.wordsOf (first :: others) ++ after))) :
    ReadsAsProperty property := by
  obtain ⟨word, name, gaps, colon, more, rfl, hkind, rfl, hgaps, hcolonKind,
      hcolon, rfl⟩ :=
    declaration_inv h
  obtain ⟨source, hsource⟩ : ∃ source, words source = front ++ (word ::
      (Tree.wordsOf gaps ++ colon :: (Tree.wordsOf more ++ after))) := by
    refine ⟨_, Eq.trans hexact ?_⟩
    simp
  have hword : (Tree.leaf word).text = word.text := by simp [Tree.text]
  rw [Tree.textOf_cons, hword, List.append_cancel_left_eq] at htext
  -- A gap in front of the colon would have to start with it.
  obtain rfl : gaps = [] := by
    cases gaps with
    | nil => rfl
    | cons gap gaps =>
      have hlexemes : ∀ word ∈ gap.words,
          word.lexeme ∈ Lexeme.ofText (normalizeBreaks source) :=
        fun word hword =>
          lexeme_mem_of_mem_words (by rw [hsource]; simp [hword])
      obtain ⟨own, rfl, hown⟩ :=
        word_of_gap (hgaps gap List.mem_cons_self) hlexemes
      have hmem : own ∈ words source := by
        rw [hsource]
        simp
      have hhead : own.text.head? = some ':' := by
        obtain ⟨c, chars, hchars⟩ :=
          List.exists_cons_of_ne_nil (Word.text_ne_nil hmem)
        rw [List.cons_append, Tree.textOf_cons, Tree.text, Tree.words_leaf,
          Word.textOf_cons, hchars, List.cons_append, List.cons_append,
          List.cons.injEq] at htext
        rw [hchars, htext.1]
        rfl
      rw [Word.head?_text hmem (by decide) (by decide) (by decide) (by decide)
        (by decide)] at hhead
      rcases hown with hspace | hslash
      · exact absurd (hspace ':' (List.mem_of_head? hhead)) (by decide)
      · rw [hslash] at hhead
        exact absurd hhead (by decide)
  have hexact' : Exact (front ++ (Tree.wordsOf [.leaf word] ++
      colon :: (Tree.wordsOf more ++ after))) := by
    simpa using hexact
  have hcolonMem : colon ∈ words source := by
    rw [hsource]
    simp
  have hnormal : normalizeBreaks word.text = word.lexeme.text := by
    have hleft := (hexact'.right (a := front)).normalizeBreaks_left
        (a := [word])
    simpa using hleft
  intro t
  have hspells :=
    hexact'.spells (Or.inr (Or.inr (Or.inl ⟨hcolonKind, Or.inr hcolon⟩)))
    ⟨whole_leaf (Or.inr (Or.inl (by rw [hkind]; rfl))), trivial⟩ t
  rw [Word.text_of_plain hcolonMem hcolon (by decide) (by decide)] at hspells
  refine ⟨name, ?_⟩
  have hspelled : word = spelled (.identifier name) word.text := by
    rw [spelled, hnormal, ← hkind]
  rw [← hspelled]
  simpa [Tree.textOf] using hspells

theorem eq_openBrace {source : Text} {word : Word} (h : word ∈ words source)
    (hkind : word.lexeme.kind = .opening .curly)
    (htext : word.text = ['\x7b']) :
    word = openBrace := by
  have hlexeme :=
    Lexeme.text_of_opening (lexeme_mem_of_mem_words h) hkind (by simp)
  obtain ⟨⟨kind, own⟩, text⟩ := word
  dsimp only at hkind htext hlexeme
  subst hkind htext hlexeme
  rfl

theorem eq_closeBrace {source : Text} {word : Word} (h : word ∈ words source)
    (hkind : word.lexeme.kind = .closing .curly)
    (htext : word.text = ['\x7d']) :
    word = closeBrace := by
  have hlexeme := Lexeme.text_of_closing (lexeme_mem_of_mem_words h) hkind
  obtain ⟨⟨kind, own⟩, text⟩ := word
  dsimp only at hkind htext hlexeme
  subst hkind htext hlexeme
  rfl

/-- A block at the start of steady parts is read alike wherever it stands. -/
theorem block_of_steady {before : List Tree} {opener : Word}
    {content : List Part} {closer : Option Word} {tail : List Part}
    (h : Steady (.block before opener content closer :: tail)) :
    opener = openBrace ∧ closer = some closeBrace ∧ IsSegment before ∧
      (∀ t, Spells (Tree.textOf before) before ('\x7b' :: t)) ∧
        ∀ t, Composes (Part.block before opener content closer).text
          [.block before opener content closer] t := by
  have hexact := h.exact
  have hwhole := h.whole
  have hgroup := h.group
  have hsegmented :
    SegmentedAll (group [] (Part.treesOf (.block before opener content closer ::
      tail))) := segmentedAll_group _ isSegment_nil
  obtain ⟨hopenerText, ⟨last, rfl, hlastText⟩, -⟩ := h.bracedAll.1
  rw [hgroup] at hsegmented
  have hsegment : IsSegment before := hsegmented.1.1
  rw [Part.treesOf_cons, Part.trees, Tree.wholeAll_append,
    Tree.wholeAll_append] at hwhole
  obtain ⟨⟨hwholeBefore, hblock, -⟩, -⟩ := hwhole
  obtain ⟨hopenerKind, ⟨_, ⟨⟩, hlastKind⟩, hwholeContent⟩ := hblock
  have hmem : ∀ word ∈ [opener, last], word ∈ words (Part.textOf
      (.block before opener content (some last) :: tail)) := by
    have hwords : words
        (Part.textOf (.block before opener content (some last) :: tail)) = _ :=
      h.exact
    rw [hwords]
    simp [Part.trees]
  obtain rfl := eq_openBrace (hmem opener (by simp)) hopenerKind hopenerText
  obtain rfl := eq_closeBrace (hmem last (by simp)) hlastKind hlastText
  have hcontent : group [] (Part.treesOf content) = content := by
    rw [Part.treesOf_cons, Part.trees, List.append_assoc, List.singleton_append,
      hsegment.group_curly, List.cons.injEq, Part.block.injEq] at hgroup
    exact hgroup.1.2.2.1
  rw [Part.treesOf_cons, Tree.wordsOf_append] at hexact
  refine ⟨rfl, rfl, hsegment, fun t => ?_, fun t => ⟨?_, fun rest => ?_⟩⟩
  · have hbefore : Exact ([] ++ (Tree.wordsOf before ++ openBrace ::
        (Tree.wordsOf (Part.treesOf content) ++
          closeBrace :: Tree.wordsOf (Part.treesOf tail)))) := by
      simpa [Part.trees] using hexact
    exact hbefore.spells (Or.inr (Or.inl rfl)) hwholeBefore t
  · have hwords : Tree.wordsOf
      (Part.treesOf [.block before openBrace content (some closeBrace)]) =
        (Tree.wordsOf before ++ openBrace :: Tree.wordsOf
          (Part.treesOf content)) ++ [closeBrace] := by
      simp [Part.trees]
    have hown : Exact
      ([] ++ (Tree.wordsOf (Part.treesOf [.block before openBrace content
        (some closeBrace)]) ++ Tree.wordsOf (Part.treesOf tail))) := by
      simpa using hexact
    have hspells := hown.spells_ended hwords (Or.inl rfl)
      (Tree.wholeAll_append.mpr ⟨Tree.wholeAll_append.mpr
        ⟨hwholeBefore, ⟨rfl, ⟨_, rfl, rfl⟩, hwholeContent⟩, trivial⟩, trivial⟩)
          t
    simpa [Part.text, Part.trees] using hspells
  · rw [Part.treesOf_cons, Part.treesOf_nil, List.append_nil, Part.trees,
      List.append_assoc, List.singleton_append, hsegment.group_curly, hcontent]
    rfl

namespace Stands

variable {rule : LineRule}

/-- A line is one block with gaps after it. -/
theorem exists_parts (h : rule.Stands) :
    ∃ before opener content closer tail,
      Part.ofText (rule.text ++ ['\n']) = .block before opener content
        closer :: tail ∧ tail ≠ [] ∧ (∀ gap ∈ tail, gap.isGap = true) ∧
        (Part.block before opener content closer).text = rule.text ∧
        ReadAt (rule.text ++ ['\n']) [] [.block before opener content closer]
          [rule.nodeAt 0] := by
  obtain ⟨lead, part, tail, hparts, hgaps, hpart, hread⟩ :=
    (readAt_of_parse h.reads).singleton_inv
  obtain ⟨node, hnode, hspan⟩ := hread.node_inv hpart
  cases hnode
  rw [List.nil_append] at hspan hread
  have hspan' : (⟨0, 0 + rule.text.length⟩ : Span) = ⟨(Part.textOf lead).length,
      (Part.textOf lead).length + part.text.length⟩ := Option.some.inj hspan
  rw [Span.mk.injEq] at hspan'
  obtain rfl : lead = [] := by
    cases lead with
    | nil => rfl
    | cons first others =>
      have hmem : first ∈ Part.ofText (rule.text ++ ['\n']) := by
        rw [hparts]
        simp
      have hfirst := text_ne_nil_of_mem hmem
      rw [Part.textOf_cons, List.length_append] at hspan'
      have hpos := List.length_pos_iff.mpr hfirst
      omega
  rw [Part.textOf_nil, List.length_nil, Nat.zero_add, Nat.zero_add] at hspan'
  rw [List.nil_append] at hparts hgaps
  have hsource := Part.textOf_ofText (rule.text ++ ['\n'])
  rw [hparts, Part.textOf_cons] at hsource
  have htext := List.append_inj hsource hspan'.2.symm
  have htail : tail ≠ [] := by
    rintro rfl
    cases htext.2
  cases part with
  | block before opener content closer =>
    exact ⟨before, opener, content, closer, tail, hparts, htail, hgaps,
      htext.1, hread⟩
  | gap tree => cases hpart
  | comment tree =>
    have hown := hread.read
    simp [readParts, Part.read, nodeAt, containerAt] at hown
  | statement first others =>
    have hown := hread.read
    rw [readParts, Part.read, readParts, Option.bind_some, Option.map_some,
      List.append_nil, piecesOf, segmentNodes, Option.some.injEq,
      List.cons.injEq] at hown
    have hchildren := congrArg Node.children hown.1
    rw [children_statementNode] at hchildren
    cases hchildren

/-- The parts of a line are steady. -/
theorem steady (h : rule.Stands) :
    Steady (Part.ofText (rule.text ++ ['\n'])) := by
  obtain ⟨before, opener, content, closer, tail, hparts, htail, hgaps, _⟩ :=
    h.exists_parts
  obtain ⟨others, last, rfl⟩ := List.eq_nil_or_concat tail |>.resolve_left htail
  have hlast := hgaps last (by simp)
  cases last with
  | gap tree =>
    have hgap : tree.isGap = true := by
      refine Part.isGap_of_mem_group [] (Tree.ofText (rule.text ++ ['\n'])) ?_
      rw [← Part.ofText, hparts]
      simp
    refine steady_ofText (parse_eq_ok_iff.mp h.reads).1 (Token.allClosed_of_last
      (Token.allOpenAtEnd_ofText _) ?_)
    have htrees := congrArg Part.treesOf hparts
    rw [Part.treesOf_ofText, List.concat_eq_append, ← List.cons_append,
      Part.treesOf_append, Part.treesOf_cons (.gap tree), Part.treesOf_nil,
      List.append_nil, Part.trees] at htrees
    rw [Tree.token_ofText, htrees, Tree.placeAll_append, Tree.placeAll,
      Tree.placeAll, List.getLast?_concat]
    rintro _ ⟨⟩
    cases tree with
    | leaf word => rfl
    | block => cases hgap
  | _ => cases hlast

/-- What is in the block of a rule, if it is read as one node where the
declaration stands. -/
theorem layout_of_readAt {source front : Text} {content : List Part}
    {item : Leaf}
    (h : ReadAt source front content
      [.leaf (.parsed ⟨front.length + 1,
      front.length + 1 + rule.declared.length⟩) item])
    (htext : Part.textOf content = rule.inside) :
    ∃ lead part tail, content = lead ++ part :: tail ∧
      Part.textOf lead = [' '] ∧
      part.text = rule.declared ∧ part.isGap = false ∧ ∀ gap ∈ lead ++ tail,
        gap.isGap = true := by
  obtain ⟨lead, part, tail, rfl, hgaps, hpart, hplace⟩ := h.singleton_inv
  obtain ⟨_, ⟨⟩, hspan⟩ := hplace.node_inv hpart
  simp only [Node.span?, Node.origin, Option.some.injEq, Span.mk.injEq,
    List.length_append] at hspan
  have hleadLength : (Part.textOf lead).length = [' '].length := by
    rw [List.length_singleton]
    omega
  have hpartLength : part.text.length = rule.declared.length := by omega
  rw [Part.textOf_append, Part.textOf_cons, inside] at htext
  obtain ⟨hlead, hrest⟩ := List.append_inj htext hleadLength
  exact ⟨lead, part, tail, rfl, hlead, (List.append_inj hrest hpartLength).1,
    hpart, hgaps⟩

/-- The property of the declaration in a block of steady parts. -/
theorem readsAsProperty_of_steady {before : List Tree}
    {lead others tail : List Part} {part : Part}
    (h : Steady (.block before openBrace (lead ++ part :: others)
      (some closeBrace) :: tail))
    (htext : part.text = rule.declared)
    (hshapes : part.shapes =
      [.leaf (.generated {}) (.declaration rule.property rule.value false)]) :
    ReadsAsProperty rule.property := by
  cases part with
  | gap tree => cases hshapes
  | comment tree => cases hshapes
  | block => cases hshapes
  | statement first more =>
    have hexact : Exact
      ((Tree.wordsOf before ++ openBrace :: Tree.wordsOf (Part.treesOf lead)) ++
        (Tree.wordsOf (first :: more) ++ (Tree.wordsOf (Part.treesOf others) ++
          closeBrace :: Tree.wordsOf (Part.treesOf tail)))) := by
      simpa [Part.trees] using h.exact
    exact readsAsProperty_of_shapes hshapes htext hexact

/-- A line has the trees of its rule. -/
theorem exists_anatomy (h : rule.Stands) :
    ∃ before content, Anatomy rule before content := by
  obtain ⟨before, opener, content, closer, tail, hparts, -, -, htext, hread⟩ :=
    h.exists_parts
  have hsteady := h.steady
  rw [hparts] at hsteady
  have hbraced := hsteady.bracedAll.1
  obtain ⟨rfl, rfl, hsegment, hspells, hcomposes⟩ := block_of_steady hsteady
  have hbare := hread.bareOf_eq (show BracedAll [_] from ⟨hbraced, trivial⟩)
  obtain ⟨head, children, hnode, hchildren⟩ := hread.block_inv hbraced
  simp only [nodeAt, containerAt, List.cons.injEq, Node.container.injEq,
    Option.some.injEq, Span.mk.injEq, and_true] at hnode
  obtain ⟨-, ⟨hlength, -⟩, rfl, rfl⟩ := hnode
  have hbefore : Tree.textOf before = rule.selector ++ [' '] := by
    rw [Part.text_block before content rfl ⟨_, rfl, rfl⟩, text] at htext
    exact (List.append_inj htext
      (by simp only [List.length_nil] at hlength; omega)).1
  have hinside : Part.textOf content = rule.inside := by
    rw [Part.text_block before content rfl ⟨_, rfl, rfl⟩, hbefore,
      text] at htext
    simpa using htext
  have hblock := hbare.symm
  rw [shapesOf_cons, shapesOf_nil, List.append_nil, nodeAt, bareOf_cons,
    bareOf_nil, containerAt, Node.bare, Part.shapes] at hbare
  simp only [List.cons.injEq, Node.container.injEq, true_and, and_true] at hbare
  obtain ⟨hleads, -⟩ := leads_of_headOf hsegment hbare.1.symm
  have hshapes : shapesOf content =
      [.leaf (.generated {}) (.declaration rule.property rule.value false)] :=
        hbare.2.symm
  have hplace :
    (⟨0 + rule.selector.length + 3, 0 + rule.text.length - 2⟩ : Span) =
      ⟨([] ++ Tree.textOf before ++ ['\x7b']).length + 1,
        ([] ++ Tree.textOf before ++ ['\x7b']).length + 1 +
          rule.declared.length⟩ := by
    simp only [hbefore, text, inside, Span.mk.injEq, List.length_append,
      List.length_cons, List.length_nil]
    omega
  rw [hplace] at hchildren
  obtain ⟨lead, part, others, rfl, hlead, hpartText, hpart, hgaps⟩ :=
    layout_of_readAt hchildren hinside
  have hpartShapes : part.shapes =
      [.leaf (.generated {})
        (.declaration rule.property rule.value false)] := by
    rw [List.forall_mem_append] at hgaps
    rwa [shapesOf_append, shapesOf_cons, shapesOf_of_isGap hgaps.1,
      shapesOf_of_isGap hgaps.2, List.append_nil, List.nil_append] at hshapes
  refine ⟨before, lead ++ part :: others, hleads, ?_,
    readsAsProperty_of_steady hsteady hpartText hpartShapes, ?_,
    ⟨lead, part, others, rfl, hlead, hpartText, hpart, hgaps⟩, hblock⟩
  · rw [← hbefore]
    exact hspells
  · rw [← htext]
    exact hcomposes

end Stands

/-! ## Sheets of lines -/

/-- A style sheet with each rule on its own line. -/
def sheet (rules : List LineRule) : Text :=
  rules.flatMap fun rule => rule.text ++ ['\n']

/-- The nodes of such a style sheet, from `start` on. -/
def sheetNodes (start : Nat) : List LineRule → List Node
  | [] => []
  | rule :: rest =>
    rule.nodeAt start :: sheetNodes (start + (rule.text ++ ['\n']).length) rest

/-- A rule does not start with white space. -/
theorem Stands.head_text {rule : LineRule} (h : rule.Stands) (t : Text) :
    ∀ c ∈ (normalizeBreaks (rule.text ++ t)).head?, isSpace c = false := by
  obtain ⟨before, content, hrule⟩ := h.exists_anatomy
  have hhead := hrule.leads.toIsSegment.head_of_spells
    (hrule.head (rule.inside ++ ['\x7d'] ++ t))
  rw [text]
  simpa using hhead

/-- The lines of a sheet are read as its rules wherever they stand. -/
theorem exists_sheet {rules : List LineRule} (h : ∀ rule ∈ rules, rule.Stands) :
    ∃ parts, Composes (sheet rules) parts [] ∧
      ∀ (source front : Text) (nodes : List Node),
        ReadAt source front parts nodes →
        nodes = sheetNodes front.length rules := by
  induction rules with
  | nil => exact ⟨[], composes_nil [], fun _ _ _ hread => hread.nil_inv⟩
  | cons rule rest ih =>
    rw [List.forall_mem_cons] at h
    obtain ⟨before, content, hrule⟩ := h.1.exists_anatomy
    obtain ⟨parts, hparts, hnodes⟩ := ih h.2
    have hhead : ∀ c ∈ (normalizeBreaks (sheet rest)).head?,
        isSpace c = false := by
      cases rest with
      | nil => simp [sheet, normalizeBreaks]
      | cons second more =>
        rw [sheet, List.flatMap_cons, List.append_assoc]
        exact (h.2 second List.mem_cons_self).head_text _
    have hbreak := composes_white (List.cons_ne_nil '\n' []) (by decide) hhead
    rw [← List.append_nil (sheet rest)] at hbreak
    have hline := (hrule.composes ('\n' :: (sheet rest ++ []))).append
      (hbreak.append hparts)
    rw [← List.append_assoc] at hline
    refine ⟨_, hline, fun source front nodes hread => ?_⟩
    obtain ⟨own, others, rfl, hown, hothers⟩ := hread.append_inv
    obtain ⟨gap, nodes, rfl, hgap, hrest⟩ := hothers.append_inv
    have htext : Part.textOf
        [.block before openBrace content (some closeBrace)] = rule.text :=
      (hrule.composes []).textOf_eq
    have hspace : Part.textOf [.gap (.leaf (spelled .space ['\n']))] = ['\n'] :=
      rfl
    rw [htext, hspace, List.append_assoc] at hrest
    rw [hrule.readAt_inv hown, hgap.gap_inv rfl, hnodes _ _ _ hrest, sheetNodes,
      List.length_append]
    rfl

/-- A sheet is read as its rules. -/
theorem parse_sheet {rules : List LineRule} (h : ∀ rule ∈ rules, rule.Stands) :
    Document.parse (sheet rules) = .ok ⟨sheet rules, sheetNodes 0 rules⟩ := by
  obtain ⟨parts, hparts, hnodes⟩ := exists_sheet h
  obtain ⟨nodes, hparse, hread⟩ := hparts.parse
  rw [hparse, hnodes _ _ _ hread]
  rfl

end LineRule

end OklchGate.Css
