import OklchGate.Proofs.Css.Copying

/-!
# Style sheets that end in an open bracket
-/

namespace OklchGate.Css

/-! ## Trees below a stack -/

namespace Tree

/-- Open blocks and the trees so far of the innermost one, with trees put before
all that is there. -/
def raise (base : List Tree) : List Frame → List Tree → List Frame × List Tree
  | [], done => ([], done ++ base.reverse)
  | frame :: outer, done =>
    let below := raise base outer frame.before
    (⟨frame.opener, frame.bracket, below.2⟩ :: below.1, done)

theorem raise_cons (base : List Tree) (stack : List Frame) (tree : Tree)
    (done : List Tree) :
    raise base stack (tree :: done) =
      ((raise base stack done).1, tree :: (raise base stack done).2) := by
  cases stack <;> rfl

/-- Trees before everything come out before everything. -/
theorem nest_raise (base : List Tree) (stack : List Frame) (done : List Tree)
    (words : List Word) :
    nest (raise base stack done).1 (raise base stack done).2 words =
      base ++ nest stack done words := by
  induction words generalizing stack done with
  | nil =>
    rw [nest, nest]
    induction stack generalizing done with
    | nil => simp [raise]
    | cons frame outer ih =>
      have houter := ih (frame.close done none)
      rwa [Frame.close, raise_cons] at houter
  | cons word rest ih =>
    rcases nest_cases stack done word rest with
      ⟨b, hkind, hnest⟩ | ⟨frame, outer, rfl, hkind, hnest⟩ | ⟨hopening,
        hclosing, hnest⟩
    · have hopen := ih (⟨word, b, done⟩ :: stack) []
      rw [hnest, ← hopen, nest.eq_def]
      simp only [hkind]
      rfl
    · have hclose := ih outer (frame.close done (some word))
      rw [Frame.close, raise_cons] at hclose
      rw [hnest, Frame.close, ← hclose, raise, nest.eq_def]
      simp only [hkind, if_true]
      rfl
    · have hleaf := ih stack (leaf word :: done)
      rw [raise_cons] at hleaf
      rw [hnest, ← hleaf]
      rcases nest_cases (raise base stack done).1 (raise base stack done).2 word
        rest with
        ⟨b, hkind, _⟩ | ⟨frame, outer, hstack, hkind, _⟩ | ⟨_, _, hraised⟩
      · exact absurd hkind (hopening b)
      · cases stack with
        | nil => cases hstack
        | cons own others =>
          rw [raise, List.cons.injEq] at hstack
          rw [← hstack.1] at hkind
          exact absurd hkind (hclosing own others rfl)
      · exact hraised

/-- Words after those of whole trees are nested by themselves. -/
theorem nest_wordsOf_append {trees : List Tree} (h : WholeAll trees)
    (rest : List Word) :
    nest [] [] (wordsOf trees ++ rest) = trees ++ nest [] [] rest := by
  have hraise := nest_raise trees [] [] rest
  rw [raise, List.nil_append] at hraise
  rw [nest_wordsOf [] [] rest h, List.append_nil, hraise]

end Tree

/-! ## Parts before an open end -/

/-- Parts that come back when their text is read, and after them parts whose
brackets may be open. -/
structure Trailing (lead tail : List Part) : Prop where
  exact :
    Exact (Tree.wordsOf (Part.treesOf lead) ++ Tree.wordsOf (Part.treesOf tail))
  whole : Tree.WholeAll (Part.treesOf lead)
  group_lead : group [] (Part.treesOf lead) = lead
  nest_tail : Tree.nest [] [] (Tree.wordsOf (Part.treesOf tail)) =
    Part.treesOf tail
  faultless_tail : Tree.Faultless (Part.treesOf tail)
  group_tail : group [] (Part.treesOf tail) = tail
  braced_tail : BracedAll tail
  apart : group [] (Part.treesOf lead ++ Part.treesOf tail) =
    group [] (Part.treesOf lead) ++ group [] (Part.treesOf tail)

namespace Trailing

variable {lead tail : List Part}

/-- The trees of the text of such parts are those of the parts. -/
theorem ofText_eq (h : Trailing lead tail) :
    Tree.ofText (Part.textOf (lead ++ tail)) = Part.treesOf (lead ++ tail) := by
  have hexact := h.exact
  rw [Exact] at hexact
  rw [Part.textOf, Part.treesOf_append, Tree.textOf, Tree.wordsOf_append,
    Tree.ofText, hexact, Tree.nest_wordsOf_append h.whole, h.nest_tail]

theorem group_eq (h : Trailing lead tail) :
    group [] (Tree.ofText (Part.textOf (lead ++ tail))) = lead ++ tail := by
  rw [h.ofText_eq, Part.treesOf_append, h.apart, h.group_lead, h.group_tail]

theorem faultless (h : Trailing lead tail) :
    Tree.Faultless (Tree.ofText (Part.textOf (lead ++ tail))) := by
  rw [h.ofText_eq, Part.treesOf_append, Tree.faultless_append]
  exact ⟨h.whole.faultless, h.faultless_tail⟩

theorem lawful (h : Trailing lead tail) :
    Tree.Lawful (Part.textOf (lead ++ tail)) (Part.treesOf (lead ++ tail)) := by
  have hlawful := Tree.lawful_ofText h.faultless
  rwa [h.ofText_eq] at hlawful

theorem bracedAll (h : Trailing lead tail) : BracedAll (lead ++ tail) := by
  have hlawful := h.lawful
  rw [Part.treesOf_append, Tree.lawful_append] at hlawful
  exact bracedAll_append.mpr ⟨bracedAll_of_whole hlawful.1 h.whole,
    h.braced_tail⟩

/-- The text of such parts is read, and its nodes are those of the parts. -/
theorem parse (h : Trailing lead tail) :
    ∃ nodes, Document.parse (Part.textOf (lead ++ tail)) =
        .ok ⟨Part.textOf (lead ++ tail), nodes⟩ ∧ bareOf nodes =
          shapesOf (lead ++ tail) := by
  have hread := bareOf_readParts [] [] (lead ++ tail) h.bracedAll
  rw [List.nil_append, List.append_nil, List.length_nil, Nat.zero_add,
    Option.map_eq_some_iff] at hread
  obtain ⟨nodes, hnodes, hbare⟩ := hread
  refine ⟨nodes, ?_, hbare⟩
  rw [parse_eq_ok_iff, h.group_eq]
  exact ⟨h.faultless, nodes, hnodes, rfl⟩

end Trailing

/-- Texts that are put into two lists of parts. -/
theorem Planted.append_inv {a b parts' : List Part}
    (h : Planted (a ++ b) parts') :
    ∃ a' b', parts' = a' ++ b' ∧ Planted a a' ∧ Planted b b' := by
  induction a generalizing parts' with
  | nil => exact ⟨[], parts', rfl, .nil, h⟩
  | cons part rest ih =>
    cases h with
    | keep hpart hrest =>
      obtain ⟨rest', b', rfl, ha, hb⟩ := ih hrest
      exact ⟨_, b', rfl, .keep hpart ha, hb⟩
    | block hcontent htext hrest =>
      obtain ⟨rest', b', rfl, ha, hb⟩ := ih hrest
      refine ⟨_, b', ?_, .block hcontent htext ha, hb⟩
      rw [List.cons_append, List.append_assoc]

/-- Texts may be put in before an open end. -/
theorem Planted.trailing {lead lead' tail : List Part} (h : Planted lead lead')
    (htrailing : Trailing lead tail) : Trailing lead' tail := by
  have hgroup : ∀ others, group [] (Part.treesOf lead ++ others) =
      group [] (Part.treesOf lead) ++ group [] others →
      group [] (Part.treesOf lead' ++ others) = lead' ++ group [] others := by
    intro others hothers
    exact group_eq [] (Part.treesOf lead) others lead'
      (by rwa [htrailing.group_lead])
      (fun _ => rfl) hothers
  have hlead := hgroup [] (by rw [List.append_nil, group_nil, List.append_nil])
  rw [List.append_nil, group_nil, List.append_nil] at hlead
  refine ⟨?_, h.whole htrailing.whole, hlead, htrailing.nest_tail,
    htrailing.faultless_tail, htrailing.group_tail, htrailing.braced_tail, ?_⟩
  · exact ((h.spliced htrailing.whole).append (.keep _)).exact htrailing.exact
  · rw [hgroup _ htrailing.apart, hlead]

/-! ## Curly blocks with their braces -/

namespace Token

mutual

/-- Every curly block of a token has its closing brace. -/
def isCurlyClosed : Token → Bool
  | leaf .. => true
  | block _ _ bracket content closed =>
    (bracket ≠ .curly || closed) && allCurlyClosed content
termination_by structural token => token

/-- Every curly block of some tokens has its closing brace. -/
def allCurlyClosed : List Token → Bool
  | [] => true
  | token :: rest => token.isCurlyClosed && allCurlyClosed rest
termination_by structural tokens => tokens

end

/-- The token has its closing bracket if it is a block. -/
def hasCloser : Token → Bool
  | leaf .. => true
  | block _ _ _ _ closed => closed

theorem mem_of_allClosed {tokens : List Token} :
    allClosed tokens = true ↔ ∀ token ∈ tokens, token.isClosed = true := by
  induction tokens with
  | nil => simp [allClosed]
  | cons token rest ih => rw [allClosed_cons, ih, List.forall_mem_cons]

/-- Blocks that are open at the end of the text have no closing bracket. -/
theorem isClosed_foldl {stack : List Frame} {done : List Token}
    (hstack : ∀ frame ∈ stack, allClosed frame.before = true)
    (hdone : ∀ token ∈ done, token.hasCloser = true → token.isClosed = true) :
    ∀ token ∈ stack.foldl (fun tokens frame => frame.close tokens false) done,
      token.hasCloser = true → token.isClosed = true := by
  induction stack generalizing done with
  | nil => exact hdone
  | cons frame outer ih =>
    rw [List.forall_mem_cons] at hstack
    refine ih hstack.2
      (List.forall_mem_cons.mpr ⟨fun h => ?_, fun token htoken _ => ?_⟩)
    · cases h
    · exact mem_of_allClosed.mp hstack.1 token htoken

/-- What has its closing bracket is closed inside too. -/
theorem isClosed_nest (position : Position) {stack : List Frame}
    {done : List Token} (lexemes : List Lexeme)
    (hstack : ∀ frame ∈ stack, allClosed frame.before = true)
    (hdone : allClosed done = true) :
    ∀ token ∈ nest position stack done lexemes,
      token.hasCloser = true → token.isClosed = true := by
  induction lexemes generalizing position stack done with
  | nil =>
    intro token htoken
    rw [nest, List.mem_reverse] at htoken
    exact isClosed_foldl hstack
      (fun token htoken _ => mem_of_allClosed.mp hdone token htoken)
      token htoken
  | cons lexeme rest ih =>
    have hleaf : allClosed (leaf position lexeme :: done) = true :=
      allClosed_cons.mpr ⟨rfl, hdone⟩
    rw [nest.eq_def]
    dsimp only
    split
    · exact ih _ (List.forall_mem_cons.mpr ⟨hdone, hstack⟩) rfl
    · rename_i frame outer _
      split
      · rw [List.forall_mem_cons] at hstack
        refine ih _ hstack.2 (allClosed_cons.mpr ⟨?_, hstack.1⟩)
        rw [isClosed, Bool.true_and, allClosed_reverse]
        exact hdone
      · exact ih _ hstack hleaf
    · exact ih _ hstack hleaf

/-- A curly block at top level is closed if every curly block is. -/
theorem isClosed_of_isCurly {source : Text}
    (h : allCurlyClosed (ofText source) = true) {token : Token}
    (htoken : token ∈ ofText source) (hcurly : token.isCurly = true) :
    token.isClosed = true := by
  refine isClosed_nest {} _ (List.forall_mem_nil _) rfl token htoken ?_
  have hall : ∀ tokens : List Token, allCurlyClosed tokens = true →
      ∀ token ∈ tokens, token.isCurlyClosed = true := by
    intro tokens htokens
    induction tokens with
    | nil => exact List.forall_mem_nil _
    | cons first rest ih =>
      rw [allCurlyClosed, Bool.and_eq_true] at htokens
      exact List.forall_mem_cons.mpr ⟨htokens.1, ih htokens.2⟩
  have hown := hall _ h token htoken
  cases token with
  | leaf => rfl
  | block position opener bracket content closed =>
    have hbracket : bracket = .curly := by simpa [isCurly] using hcurly
    subst hbracket
    rw [isCurlyClosed, Bool.and_eq_true] at hown
    rw [hasCloser]
    simpa using hown.1

end Token

/-! ## The open end of a style sheet -/

/-- Only the last tree of a style sheet may be open. -/
theorem exists_open_last {position : Position} {trees : List Tree}
    (h : Token.AllOpenAtEnd (Tree.placeAll position trees)) :
    Token.allClosed (Tree.placeAll position trees) = true ∨
      ∃ front last position', trees = front ++ [last] ∧
        Token.allClosed (Tree.placeAll position front) = true ∧
        last.place position' ∈ Tree.placeAll position trees ∧
        (last.place position').isClosed = false := by
  induction trees generalizing position with
  | nil => exact Or.inl rfl
  | cons tree rest ih =>
    rw [Tree.placeAll, Token.AllOpenAtEnd] at h
    rw [Tree.placeAll, Token.allClosed_cons]
    by_cases htree : (tree.place position).isClosed = true
    · rcases ih h.2.2 with
        hclosed | ⟨front, last, position', rfl, hfront, hmem, hopen⟩
      · exact Or.inl ⟨htree, hclosed⟩
      · refine Or.inr ⟨tree :: front, last, position', rfl, ?_,
          List.mem_cons_of_mem _ hmem, hopen⟩
        rw [Tree.placeAll, Token.allClosed_cons]
        exact ⟨htree, hfront⟩
    · right
      have hrest : rest = [] := by
        cases rest with
        | nil => rfl
        | cons next others => exact absurd (h.2.1 (List.cons_ne_nil _ _)) htree
      subst hrest
      exact ⟨[], tree, position, rfl, rfl,
        List.mem_cons_self, by simpa using htree⟩

/-- More trees after trees that end no open segment and the trees of one
segment. -/
theorem exists_segment_append (trees : List Tree) {ended segment : List Tree}
    (hended : Token.endsOpen false (ended.map Tree.bare) = false)
    (hsegment : IsSegment segment) :
    ∃ ended' segment', ended ++ segment ++ trees = ended' ++ segment' ∧
      Token.endsOpen false (ended'.map Tree.bare) = false ∧
        IsSegment segment' := by
  induction trees generalizing ended segment with
  | nil => exact ⟨ended, segment, List.append_nil _, hended, hsegment⟩
  | cons tree rest ih =>
    -- A tree that ends the segment leaves nothing open.
    have hend : tree.isCurly = true ∨ tree.isDelimiter ';' = true →
        ∃ ended' segment', ended ++ segment ++ tree :: rest =
          ended' ++ segment' ∧
          Token.endsOpen false (ended'.map Tree.bare) = false ∧
            IsSegment segment' := by
      intro htree
      rw [Tree.isCurly, Tree.isDelimiter, ← Bool.or_eq_true] at htree
      have hclosed :
          Token.endsOpen false ((ended ++ segment ++ [tree]).map Tree.bare) =
          false := by
        rw [List.map_append, Token.endsOpen_append, List.map_singleton,
          Token.endsOpen, htree]
        rfl
      obtain ⟨ended', segment', hsplit, hrest⟩ := ih hclosed isSegment_nil
      refine ⟨ended', segment', ?_, hrest⟩
      rw [← hsplit]
      simp
    rcases group_cases segment tree with
      ⟨rfl, hgap⟩ | ⟨opener, content, closer, rfl⟩ | hsemicolon | ⟨hgap, hcurly,
        hsemicolon⟩
    · have hclosed : Token.endsOpen false ((ended ++ [tree]).map Tree.bare) =
          false := by
        rw [List.map_append, Token.endsOpen_append, hended, Token.endsOpen_gaps]
        rw [List.map_singleton, List.forall_mem_singleton]
        exact hgap
      obtain ⟨ended', segment', hsplit, hrest⟩ := ih hclosed isSegment_nil
      refine ⟨ended', segment', ?_, hrest⟩
      rw [← hsplit]
      simp
    · exact hend (Or.inl rfl)
    · exact hend (Or.inr hsemicolon)
    · obtain ⟨ended', segment', hsplit, hrest⟩ :=
        ih hended (hsegment.concat hgap hcurly hsemicolon)
      refine ⟨ended', segment', ?_, hrest⟩
      rw [← hsplit]
      simp

/-- Trees that end in a bracket which is no curly one are trees that end no open
segment, and a statement. -/
theorem exists_statement (front : List Tree) {last : Tree}
    (hgap : last.isGap = false) (hcurly : last.isCurly = false)
    (hsemicolon : last.isDelimiter ';' = false) :
    ∃ ended segment first others, front = ended ++ segment ∧
      Token.endsOpen false (ended.map Tree.bare) = false ∧
      group [] (segment ++ [last]) = [.statement first others] := by
  obtain ⟨ended, segment, hfront, hended, hsegment⟩ :=
    exists_segment_append front
      (rfl : Token.endsOpen false ([].map Tree.bare) = false) isSegment_nil
  have hwhole := hsegment.concat (Or.inr hgap) hcurly hsemicolon
  obtain ⟨first, others, hsplit⟩ : ∃ first others, segment ++ [last] =
      first :: others :=
    List.exists_cons_of_ne_nil (by simp)
  refine ⟨ended, segment, first, others, by simpa using hfront, hended, ?_⟩
  have hrun := group_run hwhole.inside (Or.inr hwhole.first : [] ≠ [] ∨ _) []
  have hreverse : (segment ++ [last]).reverse = last :: segment.reverse := by
    simp
  rw [List.append_nil, List.append_nil, group, Part.ofUnfinished, hreverse,
    List.dropWhile_cons_of_neg (by simp [hgap]),
      List.takeWhile_cons_of_neg (by simp [hgap]),
    ← hreverse, List.reverse_reverse, hsplit] at hrun
  rw [hsplit, hrun]
  rfl

/-- A style sheet whose curly blocks are closed has whole trees up to a last
segment. -/
theorem exists_trailing {source : Text}
    (hfaultless : Tree.Faultless (Tree.ofText source))
    (hcurly : Token.allCurlyClosed (Token.ofText source) = true) :
    ∃ lead tail, Part.ofText source = lead ++ tail ∧ Trailing lead tail ∧
      (tail = [] ∨ ∃ first others, tail = [.statement first others]) := by
  have hopen := Token.allOpenAtEnd_ofText source
  rw [Tree.token_ofText] at hopen
  rcases exists_open_last hopen with
    hclosed | ⟨front, last, position, htrees, hfront, hmem, hlast⟩
  · rw [← Tree.token_ofText] at hclosed
    have hsteady : Steady (Part.ofText source) :=
      steady_ofText hfaultless hclosed
    refine ⟨Part.ofText source, [], (List.append_nil _).symm, ?_, Or.inl rfl⟩
    exact ⟨by simpa using hsteady.exact, hsteady.whole, hsteady.group, rfl,
      List.forall_mem_nil _,
      rfl, trivial, by simp [group_nil]⟩
  · have hnoCurly : last.isCurly = false := by
      refine Bool.eq_false_iff.mpr fun hlastCurly => ?_
      rw [← Tree.token_ofText] at hmem
      have hclosed :=
        Token.isClosed_of_isCurly hcurly hmem
          (by cases last <;> exact hlastCurly)
      rw [hlast] at hclosed
      cases hclosed
    have hblock : last.isGap = false ∧ last.isDelimiter ';' = false := by
      cases last with
      | leaf word => cases hlast
      | block => exact ⟨rfl, rfl⟩
    obtain ⟨ended, segment, first, others, rfl, hended, hstatement⟩ :=
      exists_statement front hblock.1 hnoCurly hblock.2
    rw [List.append_assoc] at htrees
    have hlead : Part.treesOf (group [] ended) = ended := treesOf_group [] ended
    have htail : Part.treesOf [.statement first others] =
        segment ++ [last] := by
      rw [← hstatement]
      exact treesOf_group [] _
    have hwords : words source = Tree.wordsOf ended ++
        Tree.wordsOf (segment ++ [last]) := by
      rw [← Tree.wordsOf_ofText, htrees, Tree.wordsOf_append]
    have hmatched := Tree.matched_ofText source
    rw [htrees, Tree.matchedAll_append] at hmatched
    rw [htrees, Tree.faultless_append] at hfaultless
    rw [Tree.placeAll_append, Token.allClosed_append] at hfront
    have hwhole := Tree.wholeAll_of_matched hmatched.1 hfaultless.1 hfront.1
    refine ⟨group [] ended, [.statement first others], ?_, ?_,
      Or.inr ⟨first, others, rfl⟩⟩
    · rw [Part.ofText, htrees, group_append [] hended, hstatement]
    · refine ⟨?_, ?_, ?_, ?_, ?_, ?_, ⟨trivial, trivial⟩, ?_⟩
      · rw [hlead, htail, ← hwords]
        exact exact_words source
      · rwa [hlead]
      · rw [hlead]
      · have hnest : Tree.ofText source = Tree.nest [] [] (words source) := rfl
        rw [htrees, hwords, Tree.nest_wordsOf_append hwhole,
          List.append_cancel_left_eq] at hnest
        rw [htail, ← hnest]
      · rw [htail]
        exact hfaultless.2
      · rw [htail, hstatement]
      · rw [hlead, htail, group_append [] hended]

/-- The selectors and properties of a style sheet with an open end stand as
such. -/
theorem copied_of_trailing {source : Text} {lead tail : List Part}
    {nodes : List Node} (h : Trailing lead tail)
    (htail : tail = [] ∨ ∃ first others, tail = [.statement first others])
    (hsource : Part.textOf (lead ++ tail) = source)
    (hsegmented : SegmentedAll (lead ++ tail))
    (hbare : bareOf nodes = shapesOf (lead ++ tail)) :
    ∀ node ∈ walk nodes, node.Copied source := by
  rw [Part.textOf_append] at hsource
  rw [segmentedAll_append] at hsegmented
  have hsubset : Part.textOf lead ⊆ source :=
    hsource ▸ List.subset_append_left _ _
  have hlead := copied_shapesOf h.exact hsubset h.whole hsegmented.1
  have hshapes : ∀ node ∈ walk (shapesOf tail), node.Copied source := by
    rcases htail with rfl | ⟨first, others, rfl⟩
    · exact List.forall_mem_nil _
    · have htrees : Part.treesOf [.statement first others] =
          first :: others := by
        rw [Part.treesOf_cons, Part.treesOf_nil, List.append_nil]
        rfl
      have hexact := h.exact.right
      rw [htrees, ← List.append_nil (Tree.wordsOf _)] at hexact
      rw [shapesOf_cons, shapesOf_nil, List.append_nil]
      exact copied_statement source hexact
  have hwalk : ∀ node ∈ (walk nodes).map Node.bare, node.Copied source := by
    rw [← walk_bareOf, hbare, shapesOf_append, walk_append,
      List.forall_mem_append]
    exact ⟨hlead, hshapes⟩
  rw [List.forall_mem_map] at hwalk
  exact fun node hnode => (copied_bare source node).mp (hwalk node hnode)

end OklchGate.Css
