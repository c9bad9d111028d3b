import OklchGate.Proofs.Css.Reparsing

/-!
# Putting texts between the parts of a style sheet

A text that may be put in can stand after any curly block of a style sheet, and
also after the last segment if something ends it.  The style sheet with such
texts is read as its own parts, with the parts of the texts between them.

There are four groups.

* `Planted`, which puts the parts of texts after blocks, at any depth.
* What planting keeps: `Planted.spliced` for words, `Planted.whole` for trees
  and `Planted.group_eq` for parts.
* `Planted.steady` and `Planted.steady_put`: the parts are steady again.
* `Part.exists_lead`, which parts the gaps at the end from the other parts, and
  `Part.exists_endsItself`.
-/

namespace OklchGate.Css

theorem span?_statementNode (source : Text) (first : Piece)
    (others : List Piece) :
    (statementNode source first others).span? =
      some ⟨first.start, (others.getLast?.getD first).stop⟩ := by
  unfold statementNode
  dsimp only
  split
  · rfl
  · split <;> rfl

/-- A statement is a leaf or an at-rule without a block. -/
theorem children_statementNode (source : Text) (first : Piece)
    (others : List Piece) :
    (statementNode source first others).children = [] := by
  unfold statementNode
  dsimp only
  split
  · rfl
  · split <;> rfl

namespace Part

/-- The parts of a text. -/
def ofText (text : Text) : List Part := group [] (Tree.ofText text)

@[simp] theorem treesOf_ofText (text : Text) :
    treesOf (ofText text) = Tree.ofText text :=
  treesOf_group [] _

@[simp] theorem textOf_ofText (text : Text) : textOf (ofText text) = text := by
  rw [textOf, treesOf_ofText, Tree.textOf, Tree.wordsOf_ofText, textOf_words]

@[simp] theorem ofText_nil : ofText [] = [] := rfl

/-- The part belongs to no node. -/
def isGap : Part → Bool
  | gap _ => true
  | _ => false

/-- The part is a block. -/
def isBlock : Part → Bool
  | block .. => true
  | _ => false

/-- A part that is no gap is read as one node, which covers the part. -/
theorem read_node {source : Text} {start stop : Nat} {part : Part}
    {nodes : List Node} (hgap : part.isGap = false)
    (hread : part.read source start stop = some nodes) :
    ∃ node, nodes = [node] ∧ node.span? = some ⟨start, stop⟩ := by
  cases part with
  | gap tree => cases hgap
  | comment tree =>
    cases hread
    exact ⟨_, rfl, rfl⟩
  | statement first others =>
    cases hread
    refine ⟨_, rfl, ?_⟩
    rw [span?_statementNode]
    dsimp only
    rw [last_piecesOf]
  | block before opener content closer =>
    rw [Part.read] at hread
    split at hread
    · rw [Option.map_eq_some_iff] at hread
      obtain ⟨children, _, rfl⟩ := hread
      refine ⟨_, rfl, ?_⟩
      cases before <;> rfl
    · cases hread

theorem isBlock_ofGap (tree : Tree) : (ofGap tree).isBlock = false := by
  rw [ofGap]
  split <;> rfl

/-- A segment without a block gives no block. -/
theorem isBlock_ofSegment (segment : List Tree) :
    ∀ part ∈ ofSegment segment, part.isBlock = false := by
  cases segment with
  | nil => exact List.forall_mem_nil _
  | cons first others => exact List.forall_mem_singleton.mpr rfl

/-- Trees that no semicolon ends give no block. -/
theorem isBlock_ofUnfinished (segment : List Tree) :
    ∀ part ∈ ofUnfinished segment, part.isBlock = false := by
  rw [ofUnfinished, List.forall_mem_append, List.forall_mem_map]
  exact ⟨isBlock_ofSegment _, fun _ _ => rfl⟩

end Part

/-! ## Planting -/

/-- Parts with the parts of texts put in, each text after a block. -/
inductive Planted : List Part → List Part → Prop where
  | nil : Planted [] []
  | keep {part : Part} {rest rest' : List Part} (hpart : part.isBlock = false)
      (hrest : Planted rest rest') : Planted (part :: rest) (part :: rest')
  | block {before : List Tree} {opener : Word} {content content' : List Part}
      {closer : Option Word} {text : Text} {rest rest' : List Part}
      (hcontent : Planted content content') (htext : Insertable text)
      (hrest : Planted rest rest') :
      Planted (.block before opener content closer :: rest)
        (.block before opener content' closer :: (Part.ofText text ++ rest'))

namespace Planted

/-- Nothing has to be put in. -/
theorem refl (parts : List Part) : Planted parts parts := by
  match parts with
  | [] => exact nil
  | .gap tree :: rest => exact keep rfl (refl rest)
  | .comment tree :: rest => exact keep rfl (refl rest)
  | .statement first others :: rest => exact keep rfl (refl rest)
  | .block before opener content closer :: rest =>
    exact block (refl content) insertable_nil (refl rest)

/-- What follows a part that is no block. -/
theorem keep_inv {part : Part} {rest parts' : List Part}
    (h : Planted (part :: rest) parts') (hpart : part.isBlock = false) :
    ∃ rest', parts' = part :: rest' ∧ Planted rest rest' := by
  cases h with
  | keep _ hrest => exact ⟨_, rfl, hrest⟩
  | block => cases hpart

/-- What follows a block. -/
theorem block_inv {before : List Tree} {opener : Word} {content : List Part}
    {closer : Option Word} {rest parts' : List Part}
    (h : Planted (.block before opener content closer :: rest) parts') :
    ∃ content' text rest',
      parts' = .block before opener content' closer ::
        (Part.ofText text ++ rest') ∧
        Planted content content' ∧ Insertable text ∧ Planted rest rest' := by
  cases h with
  | keep hpart _ => cases hpart
  | block hcontent htext hrest => exact ⟨_, _, _, rfl, hcontent, htext, hrest⟩

/-- Parts without blocks stay as they are. -/
theorem eq_of_isBlock {parts parts' : List Part} (h : Planted parts parts')
    (hparts : ∀ part ∈ parts, part.isBlock = false) : parts' = parts := by
  induction h with
  | nil => rfl
  | keep _ _ ih => rw [ih (List.forall_mem_cons.mp hparts).2]
  | block => exact absurd (hparts _ List.mem_cons_self) (by simp [Part.isBlock])

theorem append {a a' b b' : List Part} (ha : Planted a a') (hb : Planted b b') :
    Planted (a ++ b) (a' ++ b') := by
  induction ha with
  | nil => exact hb
  | keep hpart _ ih => exact keep hpart ih
  | block hcontent htext _ _ ih =>
    rw [List.cons_append, List.cons_append, List.append_assoc]
    exact block hcontent htext ih

/-! ## What planting keeps -/

/-- The words of the texts are put in after closing braces. -/
theorem spliced {parts parts' : List Part} (h : Planted parts parts')
    (hwhole : Tree.WholeAll (Part.treesOf parts)) :
    Spliced (Tree.wordsOf (Part.treesOf parts))
      (Tree.wordsOf (Part.treesOf parts')) := by
  induction h with
  | nil => exact .keep []
  | keep _ _ ih =>
    rw [Part.treesOf_cons, Tree.wholeAll_append] at hwhole
    rw [Part.treesOf_cons, Part.treesOf_cons, Tree.wordsOf_append,
      Tree.wordsOf_append]
    exact (ih hwhole.2).append_left _
  | @block before opener content content' closer text rest rest' _ htext _
    ihContent ihRest =>
    rw [Part.treesOf_cons, Part.trees, Tree.wholeAll_append,
      Tree.wholeAll_append] at hwhole
    obtain ⟨⟨_, ⟨_, ⟨word, rfl, hkind⟩, hwholeContent⟩, _⟩, hwholeRest⟩ :=
      hwhole
    have hfixed : Fixed (Tree.wordsOf (Tree.ofText text)) := by
      rw [Tree.wordsOf_ofText]
      exact htext.fixed
    have hafter : Spliced (word :: Tree.wordsOf (Part.treesOf rest))
        (word :: (Tree.wordsOf (Tree.ofText text) ++
          Tree.wordsOf (Part.treesOf rest'))) :=
      .put [] (Or.inl hkind) hfixed (ihRest hwholeRest)
    have hinside := ((ihContent hwholeContent).append hafter).append_left
      (Tree.wordsOf before ++ [opener])
    simpa [Part.trees] using hinside

/-- Trees stay whole. -/
theorem whole {parts parts' : List Part} (h : Planted parts parts')
    (hwhole : Tree.WholeAll (Part.treesOf parts)) :
    Tree.WholeAll (Part.treesOf parts') := by
  induction h with
  | nil => exact hwhole
  | keep _ _ ih =>
    rw [Part.treesOf_cons, Tree.wholeAll_append] at hwhole ⊢
    exact ⟨hwhole.1, ih hwhole.2⟩
  | block _ htext _ ihContent ihRest =>
    rw [Part.treesOf_cons, Part.trees, Tree.wholeAll_append,
      Tree.wholeAll_append] at hwhole
    obtain ⟨⟨hbefore, ⟨hopener, hcloser, hcontent⟩, _⟩, hrest⟩ := hwhole
    rw [Part.treesOf_cons, Part.trees, Part.treesOf_append, Part.treesOf_ofText,
      Tree.wholeAll_append, Tree.wholeAll_append, Tree.wholeAll_append]
    exact ⟨⟨hbefore, ⟨hopener, hcloser, ihContent hcontent⟩, trivial⟩,
      htext.whole, ihRest hrest⟩

/-- Parts with texts put in come back when their trees are grouped, before any
trees that are grouped apart. -/
theorem group_eq (segment trees others : List Tree) (parts' : List Part)
    (h : Planted (group segment trees) parts')
    (hsegment : ∀ more, group [] (segment.reverse ++ more) = group segment more)
    (hothers : group segment (trees ++ others) = group segment trees ++
      group [] others) :
    group [] (Part.treesOf parts' ++ others) = parts' ++ group [] others := by
  cases trees with
  | nil =>
    have hparts : parts' = Part.ofUnfinished segment := by
      rw [group] at h
      exact h.eq_of_isBlock (Part.isBlock_ofUnfinished segment)
    rw [List.nil_append, group] at hothers
    rw [hparts, Part.treesOf_ofUnfinished, hsegment, hothers]
  | cons tree rest =>
    rcases group_cases segment tree with
      ⟨rfl, hgap⟩ | ⟨opener, content, closer, rfl⟩ | hsemicolon | ⟨hgap, hcurly,
        hsemicolon⟩
    · rw [group_gap hgap] at h
      obtain ⟨rest', rfl, hrest⟩ := h.keep_inv (Part.isBlock_ofGap tree)
      rw [List.cons_append, group_gap hgap, group_gap hgap, List.cons_append,
        List.cons.injEq] at hothers
      have ih := group_eq [] rest others _ hrest (fun _ => rfl) hothers.2
      rw [Part.treesOf_cons, Part.trees_ofGap, List.append_assoc,
        List.singleton_append, group_gap hgap, ih]
      rfl
    · rw [group_curly] at h
      obtain ⟨content', text, rest', rfl, hcontent, htext, hrest⟩ := h.block_inv
      rw [List.cons_append, group_curly, group_curly, List.cons_append,
        List.cons.injEq] at hothers
      have ih := group_eq [] rest others _ hrest (fun _ => rfl) hothers.2
      have ihContent := group_eq [] content [] _ hcontent (fun _ => rfl)
        (by rw [List.append_nil, group_nil, List.append_nil])
      rw [List.append_nil, group_nil, List.append_nil] at ihContent
      rw [Part.treesOf_cons, Part.trees, Part.treesOf_append,
        Part.treesOf_ofText, List.append_assoc, List.append_assoc,
        List.append_assoc, hsegment, List.singleton_append, group_curly,
        htext.apart, ih, ihContent]
      simp [Part.ofText]
    · obtain ⟨first, more, hreverse⟩ : ∃ first more, (tree :: segment).reverse =
          first :: more :=
        List.exists_cons_of_ne_nil (by simp)
      rw [group_semicolon hsemicolon, hreverse, Part.ofSegment,
        List.singleton_append] at h
      obtain ⟨rest', rfl, hrest⟩ := h.keep_inv rfl
      rw [List.cons_append, group_semicolon hsemicolon,
        group_semicolon hsemicolon, List.append_assoc,
        List.append_cancel_left_eq] at hothers
      have ih := group_eq [] rest others _ hrest (fun _ => rfl) hothers
      rw [Part.treesOf_cons, Part.trees, ← hreverse, List.reverse_cons,
        List.append_assoc, List.append_assoc, hsegment, List.singleton_append,
        group_semicolon hsemicolon, hreverse, ih]
      rfl
    · rw [group_other hgap hcurly hsemicolon] at h
      rw [List.cons_append, group_other hgap hcurly hsemicolon,
        group_other hgap hcurly hsemicolon] at hothers
      refine group_eq (tree :: segment) rest others _ h (fun more => ?_) hothers
      rw [List.reverse_cons, List.append_assoc, hsegment, List.singleton_append,
        group_other hgap hcurly hsemicolon]

/-! ## Steady parts -/

/-- Steady parts with texts put in after blocks are steady. -/
theorem steady {parts parts' : List Part} (h : Planted parts parts')
    (hsteady : Steady parts) :
    Steady parts' := by
  refine ⟨(h.spliced hsteady.whole).exact hsteady.exact,
    h.whole hsteady.whole, ?_⟩
  have hgroup := group_eq [] (Part.treesOf parts) [] parts'
    (by rw [hsteady.group]; exact h) (fun _ => rfl)
    (by rw [List.append_nil, group_nil, List.append_nil])
  rwa [List.append_nil, group_nil, List.append_nil] at hgroup

end Planted

/-- The first of some parts come back when a segment ends after them. -/
theorem Part.group_left {lead after : List Part}
    (hgroup : group [] (treesOf (lead ++ after)) = lead ++ after)
    (hclosed : Token.endsOpen false ((treesOf lead).map Tree.bare) = false) :
    group [] (treesOf lead) = lead ∧ group [] (treesOf after) = after := by
  have htrees : treesOf (group [] (treesOf lead)) = treesOf lead :=
    treesOf_group [] _
  -- Every part has a tree, so lists of parts with the same trees are equally
  -- long.
  have hnil : ∀ middle : List Part,
      (treesOf lead).length + (treesOf middle).length = (treesOf lead).length →
        middle = [] := by
    intro middle h
    cases middle with
    | nil => rfl
    | cons part rest =>
      obtain ⟨tree, others, hpart⟩ := part.exists_trees_eq_cons
      rw [treesOf_cons, hpart, List.cons_append, List.length_cons] at h
      omega
  rw [treesOf_append, group_append [] hclosed,
    List.append_eq_append_iff] at hgroup
  rcases hgroup with ⟨middle, hlead, hafter⟩ | ⟨middle, hlead, hafter⟩
  · have hlength := congrArg (fun parts => (treesOf parts).length) hlead
    rw [treesOf_append, List.length_append, htrees] at hlength
    rw [hnil middle hlength.symm, List.append_nil] at hlead
    rw [hnil middle hlength.symm, List.nil_append] at hafter
    exact ⟨hlead.symm, hafter⟩
  · have hlength := congrArg (fun parts => (treesOf parts).length) hlead
    rw [treesOf_append, List.length_append, htrees] at hlength
    rw [hnil middle hlength.symm, List.append_nil] at hlead
    rw [hnil middle hlength.symm, List.nil_append] at hafter
    exact ⟨hlead, hafter.symm⟩

/-- A text may also be put in after steady parts that end a segment. -/
theorem Planted.steady_put {lead lead' after : List Part} {text : Text}
    {before : List Word} {last : Word} (h : Planted lead lead')
    (hsteady : Steady (lead ++ after)) (htext : Insertable text)
    (hclosed : Token.endsOpen false ((Part.treesOf lead).map Tree.bare) = false)
    (hwords : Tree.wordsOf (Part.treesOf lead) = before ++ [last])
    (hlast : last.lexeme.EndsItself) :
    Steady (lead' ++ (Part.ofText text ++ after)) := by
  obtain ⟨hlead, hafter⟩ := Part.group_left hsteady.group hclosed
  have hwhole := hsteady.whole
  rw [Part.treesOf_append, Tree.wholeAll_append] at hwhole
  have hfixed : Fixed (Tree.wordsOf (Tree.ofText text)) := by
    rw [Tree.wordsOf_ofText]
    exact htext.fixed
  refine ⟨?_, ?_, ?_⟩
  · have hspliced :=
      (h.spliced hwhole.1).append_put (Tree.wordsOf (Part.treesOf after)) hwords
      hlast hfixed
    have hexact := hsteady.exact
    rw [Part.treesOf_append, Tree.wordsOf_append] at hexact
    simpa using hspliced.exact hexact
  · rw [Part.treesOf_append, Part.treesOf_append, Part.treesOf_ofText,
      Tree.wholeAll_append, Tree.wholeAll_append]
    exact ⟨h.whole hwhole.1, htext.whole, hwhole.2⟩
  · have hgroup :=
      group_eq [] (Part.treesOf lead)
        (Tree.ofText text ++ Part.treesOf after) lead'
      (by rw [hlead]; exact h) (fun _ => rfl) (group_append [] hclosed _)
    rw [Part.treesOf_append, Part.treesOf_append, Part.treesOf_ofText, hgroup,
      htext.apart, hafter]
    rfl

/-! ## The end of a style sheet -/

namespace Part

/-- The gaps at the end of some parts. -/
theorem exists_lead (parts : List Part) :
    ∃ lead gaps, parts = lead ++ List.map gap gaps ∧ ∀ part ∈ lead.getLast?,
      part.isGap = false := by
  induction parts with
  | nil => exact ⟨[], [], rfl, by simp⟩
  | cons part rest ih =>
    obtain ⟨lead, gaps, rfl, hlast⟩ := ih
    cases lead with
    | nil =>
      cases part with
      | gap tree => exact ⟨[], tree :: gaps, rfl, by simp⟩
      | _ =>
        refine ⟨[_], gaps, rfl, ?_⟩
        rintro _ ⟨⟩
        rfl
    | cons first others =>
      refine ⟨part :: first :: others, gaps, rfl, ?_⟩
      rwa [List.getLast?_cons_cons]

/-- A gap between parts is white space or a comment. -/
theorem isGap_of_mem_group {tree : Tree} (segment trees : List Tree)
    (h : gap tree ∈ group segment trees) : tree.isGap = true := by
  have hsegment : ∀ segment, gap tree ∉ ofSegment segment := by
    intro segment
    cases segment <;> simp [ofSegment]
  cases trees with
  | nil =>
    rw [group, ofUnfinished, List.mem_append] at h
    rcases h with h | h
    · exact absurd h (hsegment _)
    · rw [List.mem_map] at h
      obtain ⟨_, hmem, ⟨⟩⟩ := h
      exact List.all_eq_true.mp List.all_takeWhile tree
        (List.mem_reverse.mp hmem)
  | cons first rest =>
    rcases group_cases segment first with
      ⟨rfl, hgap⟩ | ⟨opener, content, closer, rfl⟩ | hsemicolon | ⟨hgap, hcurly,
        hsemicolon⟩
    · rw [group_gap hgap, List.mem_cons] at h
      rcases h with h | h
      · rw [ofGap] at h
        split at h
        · cases h
        · cases h
          exact hgap
      · exact isGap_of_mem_group [] rest h
    · rw [group_curly, List.mem_cons] at h
      rcases h with h | h
      · cases h
      · exact isGap_of_mem_group [] rest h
    · rw [group_semicolon hsemicolon, List.mem_append] at h
      rcases h with h | h
      · exact absurd h (hsegment _)
      · exact isGap_of_mem_group [] rest h
    · rw [group_other hgap hcurly hsemicolon] at h
      exact isGap_of_mem_group (first :: segment) rest h

/-- Parts that end a segment and do not end in a gap end in a word that ends
itself. -/
theorem exists_endsItself {lead : List Part} (hne : lead ≠ [])
    (hlast : ∀ part ∈ lead.getLast?, part.isGap = false)
    (hwhole : Tree.WholeAll (treesOf lead))
    (hgroup : group [] (treesOf lead) = lead)
    (hclosed : Token.endsOpen false ((treesOf lead).map Tree.bare) = false) :
    ∃ before last, Tree.wordsOf (treesOf lead) = before ++ [last] ∧
      last.lexeme.EndsItself := by
  rcases List.eq_nil_or_concat (treesOf lead) with hnil | ⟨trees, tree, htrees⟩
  · rw [hnil] at hgroup
    exact absurd hgroup.symm hne
  rw [List.concat_eq_append] at htrees
  rw [htrees, Tree.wholeAll_append] at hwhole
  rw [htrees, List.map_append, Token.endsOpen_append, List.map_singleton,
    Token.endsOpen] at hclosed
  rw [htrees, Tree.wordsOf_append]
  have htree := hwhole.2.1
  cases tree with
  | block opener bracket content closer =>
    obtain ⟨_, ⟨word, rfl, hkind⟩, _⟩ := htree
    cases bracket with
    | curly =>
      refine ⟨Tree.wordsOf trees ++ opener :: Tree.wordsOf content, word, ?_,
        Or.inl hkind⟩
      simp
    | square | round =>
      simp [Tree.bare, Token.isCurly, Token.isDelimiter, Token.endsOpen,
        Token.isGap, Token.isSpace, Token.kind?, Token.comment?] at hclosed
  | leaf word =>
    refine ⟨Tree.wordsOf trees, word, rfl, ?_⟩
    cases hsemicolon : (Tree.leaf word).isDelimiter ';' with
    | true =>
      have hboth : word.lexeme.kind = .delimiter ∧ word.lexeme.text =
          [';'] := by
        simpa [Tree.isDelimiter, Tree.bare, Token.isDelimiter] using hsemicolon
      exact Or.inr (Or.inr (Or.inl ⟨hboth.1, Or.inl hboth.2⟩))
    | false =>
      refine Or.inr (Or.inr (Or.inr ?_))
      rw [Tree.isDelimiter] at hsemicolon
      rw [hsemicolon, Bool.or_false, if_neg (by exact Bool.false_ne_true),
        Token.endsOpen,
        Bool.or_eq_false_iff] at hclosed
      have hgap : (Tree.leaf word).isGap = true := by
        rw [Tree.isGap]
        simpa using hclosed.2
      rw [htrees, group_append [] hclosed.1, group_gap hgap,
        group_nil] at hgroup
      have hpart := hlast (ofGap (.leaf word)) (by rw [← hgroup]; simp)
      rw [ofGap] at hpart
      split at hpart
      · rename_i hcomment
        obtain ⟨⟨kind, text⟩, source⟩ := word
        cases kind with
        | comment closed =>
          cases closed with
          | true => rfl
          | false => exact absurd rfl htree.1.2
        | _ => cases hcomment
      · cases hpart

end Part

end OklchGate.Css
