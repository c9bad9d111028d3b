import OklchGate.Proofs.Css.Accepted
import OklchGate.Proofs.Css.Splices

/-!
# Trees and parts that come back

Trees whose blocks are closed come back when their words are nested again, and
parts come back when their trees are grouped again.

There are three groups.

* `Tree.Whole`: a tree is matched, faultless and closed.  `Tree.nest_wordsOf`
  nests the words of such trees, and `Tree.ofText_of_exact` does so for a whole
  source.
* `Token.endsOpen`, which tells whether a list of tokens ends inside a segment.
  `group_append`: what follows the end of a segment is grouped apart.
* `Insertable`, which says of a text that it may be put in between two segments,
  and `insertable_of_curly`.
-/

namespace OklchGate.Css

/-! ## Whole trees -/

namespace Tree

mutual

/-- The leaves of a tree are sound and open no bracket, and each of its blocks
stands between words that open and close its bracket. -/
def Whole : Tree → Prop
  | leaf word => word.Sound ∧ ∀ bracket, word.lexeme.kind ≠ .opening bracket
  | block opener bracket content closer =>
    opener.lexeme.kind = .opening bracket ∧
      (∃ word, closer = some word ∧ word.lexeme.kind = .closing bracket) ∧
        WholeAll content
termination_by structural tree => tree

/-- Every one of some trees is whole. -/
def WholeAll : List Tree → Prop
  | [] => True
  | tree :: rest => tree.Whole ∧ WholeAll rest
termination_by structural trees => trees

end

theorem wholeAll_append {a b : List Tree} :
    WholeAll (a ++ b) ↔ WholeAll a ∧ WholeAll b := by
  induction a with
  | nil => simp [WholeAll]
  | cons tree rest ih => simp [WholeAll, ih, and_assoc]

mutual

theorem whole_of_matched {position : Position} {tree : Tree}
    (hmatched : tree.Matched) (hsound : ∀ word ∈ tree.leaves, word.Sound)
    (hclosed : (tree.place position).isClosed = true) : tree.Whole := by
  cases tree with
  | leaf word => exact ⟨hsound word (by simp [leaves]), hmatched⟩
  | block opener bracket content closer =>
    rw [place, Token.isClosed, Bool.and_eq_true] at hclosed
    obtain ⟨word, rfl⟩ := Option.isSome_iff_exists.mp hclosed.1
    exact ⟨hmatched.1, ⟨word, rfl, hmatched.2.1 word rfl⟩,
      wholeAll_of_matched hmatched.2.2 hsound hclosed.2⟩

/-- Matched trees without faults are whole if their tokens are closed. -/
theorem wholeAll_of_matched {position : Position} {trees : List Tree}
    (hmatched : MatchedAll trees) (hfaultless : Faultless trees)
    (hclosed : Token.allClosed (placeAll position trees) = true) :
    WholeAll trees := by
  cases trees with
  | nil => trivial
  | cons tree rest =>
    rw [placeAll, Token.allClosed_cons] at hclosed
    rw [← List.singleton_append, faultless_append] at hfaultless
    refine ⟨whole_of_matched hmatched.1 ?_ hclosed.1,
      wholeAll_of_matched hmatched.2 hfaultless.2 hclosed.2⟩
    simpa [Faultless] using hfaultless.1

end

/-- The trees of a well-formed source are whole. -/
theorem wholeAll_ofText {source : Text} (hfaultless : Faultless (ofText source))
    (hclosed : Token.allClosed (Token.ofText source) = true) :
    WholeAll (ofText source) := by
  rw [token_ofText] at hclosed
  exact wholeAll_of_matched (matched_ofText source) hfaultless hclosed

mutual

theorem isClosed_of_whole (position : Position) {tree : Tree} (h : tree.Whole) :
    (tree.place position).isClosed = true := by
  cases tree with
  | leaf word => rfl
  | block opener bracket content closer =>
    obtain ⟨_, ⟨word, rfl, _⟩, hcontent⟩ := h
    rw [place, Token.isClosed, Bool.and_eq_true]
    exact ⟨rfl, allClosed_of_whole _ hcontent⟩

/-- The tokens of whole trees are closed. -/
theorem allClosed_of_whole (position : Position) {trees : List Tree}
    (h : WholeAll trees) :
    Token.allClosed (placeAll position trees) = true := by
  cases trees with
  | nil => rfl
  | cons tree rest =>
    rw [placeAll, Token.allClosed_cons]
    exact ⟨isClosed_of_whole position h.1, allClosed_of_whole _ h.2⟩

end

mutual

theorem Whole.sound {tree : Tree} (h : tree.Whole) :
    ∀ word ∈ tree.leaves, word.Sound := by
  cases tree with
  | leaf word => simpa [leaves] using h.1
  | block opener bracket content closer => exact WholeAll.faultless h.2.2

/-- Whole trees are faultless. -/
theorem WholeAll.faultless {trees : List Tree} (h : WholeAll trees) :
    Faultless trees := by
  cases trees with
  | nil => exact nofun
  | cons tree rest =>
    rw [← List.singleton_append, faultless_append]
    refine ⟨?_, WholeAll.faultless h.2⟩
    simpa [Faultless] using Whole.sound h.1

end

mutual

theorem nest_words (stack : List Frame) (done : List Tree) (rest : List Word)
    {tree : Tree} (h : tree.Whole) :
    nest stack done (tree.words ++ rest) = nest stack (tree :: done) rest := by
  cases tree with
  | leaf word =>
    obtain ⟨hsound, hopening⟩ := h
    rcases nest_cases stack done word rest with
      ⟨b, hkind, _⟩ | ⟨frame, outer, _, hkind, _⟩ | ⟨_, _, hnest⟩
    · exact absurd hkind (hopening b)
    · have hnone := hsound.1
      rw [hkind] at hnone
      cases hnone
    · exact hnest
  | block opener bracket content closer =>
    obtain ⟨hopener, ⟨word, rfl, hcloser⟩, hcontent⟩ := h
    have hopen : nest stack done (opener :: (wordsOf content ++ word :: rest)) =
        nest (⟨opener, bracket, done⟩ :: stack) []
          (wordsOf content ++ word :: rest) := by
      rw [nest.eq_def]
      simp only [hopener]
    have hclose : nest (⟨opener, bracket, done⟩ :: stack) content.reverse
      (word :: rest) =
        nest stack (block opener bracket content (some word) :: done) rest := by
      rw [nest.eq_def]
      simp [hcloser, Frame.close]
    rw [words_block, Option.toList_some, List.cons_append, List.append_assoc,
      List.singleton_append, hopen, nest_wordsOf _ [] _ hcontent,
      List.append_nil, hclose]

/-- The words of whole trees are nested to these trees. -/
theorem nest_wordsOf (stack : List Frame) (done : List Tree) (rest : List Word)
    {trees : List Tree} (h : WholeAll trees) :
    nest stack done (wordsOf trees ++ rest) =
      nest stack (trees.reverse ++ done) rest := by
  cases trees with
  | nil => rfl
  | cons tree others =>
    rw [wordsOf_cons, List.append_assoc, nest_words stack done _ h.1,
      nest_wordsOf stack _ rest h.2, List.reverse_cons, List.append_assoc]
    rfl

end

/-- Whole trees of exact words are the trees of their text. -/
theorem ofText_of_exact {trees : List Tree} (hexact : Exact (wordsOf trees))
    (h : WholeAll trees) : ofText (textOf trees) = trees := by
  have hnest := nest_wordsOf [] [] [] h
  rw [List.append_nil, List.append_nil] at hnest
  rw [ofText, textOf, hexact, hnest, nest, List.foldl_nil, List.reverse_reverse]

end Tree

/-! ## The ends of segments -/

/-- Some tokens end inside a segment that neither a semicolon nor a curly block
ends.  `opened` tells whether a segment is open before them. -/
def Token.endsOpen : Bool → List Token → Bool
  | opened, [] => opened
  | opened, token :: rest =>
    if token.isCurly || token.isDelimiter ';' then endsOpen false rest
    else endsOpen (opened || !token.isGap) rest

namespace Token

theorem endsOpen_bare (opened : Bool) (tokens : List Token) :
    endsOpen opened (tokens.map bare) = endsOpen opened tokens := by
  induction tokens generalizing opened with
  | nil => rfl
  | cons token rest ih => simp [endsOpen, ih]

theorem endsOpen_append (opened : Bool) (a b : List Token) :
    endsOpen opened (a ++ b) = endsOpen (endsOpen opened a) b := by
  induction a generalizing opened with
  | nil => rfl
  | cons token rest ih =>
    rw [List.cons_append, endsOpen, endsOpen]
    split <;> rw [ih]

/-- White space and comments end no segment and open none. -/
theorem endsOpen_gaps {opened : Bool} {tokens : List Token}
    (h : ∀ token ∈ tokens, token.isGap = true) :
    endsOpen opened tokens = opened := by
  induction tokens with
  | nil => rfl
  | cons token rest ih =>
    rw [List.forall_mem_cons] at h
    have hcurly : token.isCurly = false := by
      cases token with
      | leaf => rfl
      | block => cases h.1
    have hdelimiter : token.isDelimiter ';' = false := by
      cases hd : token.isDelimiter ';' with
      | false => rfl
      | true =>
        cases token with
        | leaf position lexeme =>
          obtain ⟨kind, text⟩ := lexeme
          have hgap := h.1
          cases kind <;> simp_all [isDelimiter, isGap, isSpace, kind?, comment?]
        | block => cases hd
    rw [endsOpen, hcurly, hdelimiter, h.1]
    simp [ih h.2]

end Token

theorem map_bare_placeAll (position : Position) (trees : List Tree) :
    (Tree.placeAll position trees).map Token.bare = trees.map Tree.bare := by
  induction trees generalizing position with
  | nil => rfl
  | cons tree rest ih =>
    rw [Tree.placeAll, List.map_cons, List.map_cons, Tree.bare_place, ih]

/-- The trees of a source end inside a segment when its tokens do. -/
theorem endsOpen_ofText (opened : Bool) (source : Text) :
    Token.endsOpen opened ((Tree.ofText source).map Tree.bare) =
      Token.endsOpen opened (Token.ofText source) := by
  rw [Tree.token_ofText, ← Token.endsOpen_bare opened (Tree.placeAll _ _),
    map_bare_placeAll]

/-- What follows the end of a segment is grouped apart. -/
theorem group_append (segment : List Tree) {trees : List Tree}
    (h : Token.endsOpen (!segment.isEmpty) (trees.map Tree.bare) = false)
    (others : List Tree) :
    group segment (trees ++ others) = group segment trees ++
      group [] others := by
  induction trees generalizing segment with
  | nil =>
    have hsegment : segment = [] := by simpa [Token.endsOpen] using h
    rw [hsegment]
    rfl
  | cons tree rest ih =>
    rw [List.map_cons, Token.endsOpen] at h
    rw [List.cons_append]
    rcases group_cases segment tree with
      ⟨rfl, hgap⟩ | ⟨opener, content, closer, rfl⟩ | hsemicolon | ⟨hgap, hcurly,
        hsemicolon⟩
    · have hcurly := Tree.isCurly_of_isGap hgap
      have hdelimiter : tree.isDelimiter ';' = false := by
        cases hd : tree.isDelimiter ';' with
        | false => rfl
        | true =>
          rw [Tree.isGap_of_isDelimiter hd] at hgap
          exact absurd hgap Bool.false_ne_true
      rw [Tree.isCurly] at hcurly
      rw [Tree.isDelimiter] at hdelimiter
      rw [group_gap hgap, group_gap hgap, ih, List.cons_append]
      rw [Tree.isGap] at hgap
      simpa [hcurly, hdelimiter, hgap] using h
    · rw [group_curly, group_curly, ih, List.cons_append]
      simpa [Tree.bare, Token.isCurly] using h
    · rw [group_semicolon hsemicolon, group_semicolon hsemicolon, ih,
        List.append_assoc]
      rw [Tree.isDelimiter] at hsemicolon
      simpa [hsemicolon] using h
    · rw [group_other hgap hcurly hsemicolon,
        group_other hgap hcurly hsemicolon, ih]
      have hopened : (!segment.isEmpty || !tree.bare.isGap) = true := by
        rcases hgap with hne | hgap
        · simp [hne]
        · rw [Tree.isGap] at hgap
          simp [hgap]
      rw [Tree.isCurly] at hcurly
      rw [Tree.isDelimiter] at hsemicolon
      simpa [hcurly, hsemicolon, hopened] using h

/-! ## Texts that may be put in -/

/-- The trees of a text are whole, its words are fixed, and what follows it is
grouped apart. -/
structure Insertable (text : Text) : Prop where
  whole : Tree.WholeAll (Tree.ofText text)
  fixed : Fixed (words text)
  apart : ∀ others : List Tree,
    group [] (Tree.ofText text ++ others) = group [] (Tree.ofText text) ++
      group [] others

theorem insertable_nil : Insertable [] := ⟨trivial, fun _ => rfl, fun _ => rfl⟩

/-- A well-formed text that ends in a curly block may be put in. -/
theorem insertable_of_curly {text : Text}
    (hfaultless : Tree.Faultless (Tree.ofText text))
    (hclosed : Token.allClosed (Token.ofText text) = true)
    (hlast : (Token.ofText text).getLast?.any Token.isCurly = true) :
    Insertable text := by
  have hwhole := Tree.wholeAll_ofText hfaultless hclosed
  obtain ⟨before, opener, content, closer, htrees⟩ :
    ∃ before opener content closer,
      Tree.ofText text = before ++ [.block opener .curly content closer] := by
    have hbare : ((Tree.ofText text).map Tree.bare).getLast?.any Token.isCurly =
        true := by
      rw [← map_bare_placeAll {}, ← Tree.token_ofText, List.getLast?_map,
        Option.any_map]
      simpa [Function.comp_def] using hlast
    rcases List.eq_nil_or_concat (Tree.ofText text) with
      hnil | ⟨before, tree, hconcat⟩
    · rw [hnil] at hbare
      cases hbare
    · rw [List.concat_eq_append] at hconcat
      rw [hconcat, List.map_append, List.map_singleton,
        List.getLast?_concat] at hbare
      obtain ⟨opener, content, closer, rfl⟩ := Tree.eq_block_of_isCurly hbare
      exact ⟨before, opener, content, closer, hconcat⟩
  refine ⟨hwhole, ?_, fun others => group_append [] ?_ others⟩
  · rw [htrees, Tree.wholeAll_append] at hwhole
    obtain ⟨word, rfl, hkind⟩ := hwhole.2.1.2.1
    have hwords : words text =
        (Tree.wordsOf before ++ opener :: Tree.wordsOf content) ++ [word] := by
      rw [← Tree.wordsOf_ofText, htrees]
      simp
    have hexact := exact_words text
    rw [hwords] at hexact ⊢
    exact hexact.fixed (Or.inl hkind)
  · rw [htrees, List.map_append, Token.endsOpen_append]
    rfl

end OklchGate.Css
