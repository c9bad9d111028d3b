import OklchGate.Proofs.Css.Gaps

/-!
# The tokens of a value

A declaration comes from an identifier and a colon in a list of tokens, and the
tokens of its value are the ones behind the colon, up to a semicolon or to the
end of the list.  The text that the reader cuts out for the value is the text of
these tokens, but for white space and comments at the end, and for closing
braces where an open block takes them for its own.

There are three groups.

* `Within`, the lists in some trees, and `IsValue`, the trees of the value of a
  declaration. `IsValue.unique` says that there are no two values at one place.
* `IsReadFrom`: a value and its mark of importance come from the text of some
  trees.
* `valued_of_readParts`, by induction on the trees of a list, and
  `valued_of_parse`, which says for each declaration of a style sheet what its
  value is read from.
-/

namespace OklchGate.Css

/-! ## Lists of trees -/

/-- A list is the one of some trees, or it is in a curly block among them; the
words of `before` stand before it. -/
inductive Within : List Tree → List Word → List Tree → Prop where
  | here {trees : List Tree} : Within trees [] trees
  | inside {front back content inner : List Tree} {opener : Word}
    {closer : Option Word}
      {before : List Word} : Within content before inner →
        Within (front ++ .block opener .curly content closer :: back)
          (Tree.wordsOf front ++ opener :: before) inner

/-- The content of a block in a list. -/
theorem Within.content {trees front back content : List Tree} {opener : Word}
    {closer : Option Word} {before : List Word}
    (h : Within trees before
      (front ++ .block opener .curly content closer :: back)) :
    Within trees (before ++ Tree.wordsOf front ++ [opener]) content := by
  generalize hlist : front ++ .block opener .curly content closer :: back =
    list at h
  induction h with
  | here =>
    rw [← hlist]
    exact .inside .here
  | @inside first last _ _ first' last' before _ ih =>
    have hinside :
        Within (first ++ .block first' .curly _ last' :: last) _ content :=
      .inside (ih hlist)
    simpa using hinside

/-- The words of a list are words of the trees. -/
theorem Within.exists_words {trees inner : List Tree} {before : List Word}
    (h : Within trees before inner) :
    ∃ after, Tree.wordsOf trees = before ++ Tree.wordsOf inner ++ after := by
  induction h with
  | here => exact ⟨[], by simp⟩
  | @inside front back content inner opener closer before _ ih =>
    obtain ⟨after, hwords⟩ := ih
    exact ⟨after ++ (closer.toList ++ Tree.wordsOf back), by simp [hwords]⟩

/-- The lists in lawful trees are lawful. -/
theorem Within.lawful {source : Text} {trees inner : List Tree}
    {before : List Word} (h : Within trees before inner)
    (hlawful : Tree.Lawful source trees) :
    Tree.Lawful source inner := by
  induction h with
  | here => exact hlawful
  | inside _ ih =>
    rw [Tree.lawful_append, ← List.singleton_append,
      Tree.lawful_append] at hlawful
    exact ih hlawful.2.1.block.2.2

/-- A word inside of a tree is inside of no other tree of the list. -/
theorem split_unique {front front' back back' : List Tree} {tree tree' : Tree}
    {x y : List Word} (h : front ++ tree :: back = front' ++ tree' :: back')
    (hwords : Tree.wordsOf front ++ x = Tree.wordsOf front' ++ y)
    (hx : x.length < tree.words.length) (hy : y.length < tree'.words.length) :
    front = front' ∧ tree = tree' ∧ back = back' ∧ x = y := by
  have hlength := congrArg List.length hwords
  rw [List.length_append, List.length_append] at hlength
  have hfront : front = front' := by
    rcases List.append_eq_append_iff.mp h with
      ⟨more, rfl, hmore⟩ | ⟨more, rfl, hmore⟩
    · cases more with
      | nil => rw [List.append_nil]
      | cons first more =>
        rw [← (List.cons.inj hmore).1, Tree.wordsOf_append, Tree.wordsOf_cons,
          List.length_append, List.length_append] at hlength
        omega
    · cases more with
      | nil => rw [List.append_nil]
      | cons first more =>
        rw [← (List.cons.inj hmore).1, Tree.wordsOf_append, Tree.wordsOf_cons,
          List.length_append, List.length_append] at hlength
        omega
  subst hfront
  obtain ⟨rfl, rfl⟩ := List.cons.inj (List.append_cancel_left h)
  exact ⟨rfl, rfl, rfl, List.append_cancel_left hwords⟩

/-- At most one list has a leaf behind given words. -/
theorem Within.unique {trees front front' back back' : List Tree}
    {before before' : List Word} {word word' : Word}
    (h : Within trees before (front ++ .leaf word :: back))
    (h' : Within trees before' (front' ++ .leaf word' :: back'))
    (hwords : before ++ Tree.wordsOf front = before' ++ Tree.wordsOf front') :
    before = before' ∧ front = front' ∧ word = word' ∧ back = back' := by
  -- A leaf that is inside of a block is behind fewer words than the block has.
  have hlt : ∀ {content front back : List Tree} {opener word : Word}
      {closer : Option Word} {before : List Word},
      Within content before (front ++ .leaf word :: back) →
      (opener :: (before ++ Tree.wordsOf front)).length <
        (Tree.block opener .curly content closer).words.length := by
    intro content front back opener word closer before h
    obtain ⟨after, hafter⟩ := h.exists_words
    rw [Tree.words_block, hafter]
    simp only [Tree.wordsOf_append, Tree.wordsOf_cons, Tree.words_leaf,
      List.length_cons, List.length_append, List.length_nil]
    omega
  generalize hlist : front ++ .leaf word :: back = list at h
  induction h generalizing before' with
  | here =>
    rw [List.nil_append] at hwords
    generalize hlist' : front' ++ .leaf word' :: back' = list' at h'
    cases h' with
    | here =>
      obtain ⟨rfl, htree, rfl, _⟩ := split_unique (x := []) (y := [])
        (hlist.trans hlist'.symm) (by simpa using hwords) Nat.one_pos
          Nat.one_pos
      exact ⟨rfl, rfl, Tree.leaf.inj htree, rfl⟩
    | inside hinner =>
      rw [← hlist'] at hinner
      obtain ⟨_, htree, _⟩ :=
        split_unique (x := []) hlist (by simpa using hwords) Nat.one_pos
        (hlt hinner)
      cases htree
  | inside hinner ih =>
    rw [← hlist] at hinner
    generalize hlist' : front' ++ .leaf word' :: back' = list' at h'
    generalize htrees : _ ++ Tree.block _ .curly _ _ :: _ = trees at h'
    cases h' with
    | here =>
      rw [← htrees] at hlist'
      obtain ⟨_, htree, _⟩ :=
        split_unique (x := []) hlist' (by simpa using hwords.symm)
        Nat.one_pos (hlt hinner)
      cases htree
    | inside hinner' =>
      rw [← hlist'] at hinner'
      obtain ⟨rfl, htree, rfl, hown⟩ :=
        split_unique htrees (by simpa using hwords) (hlt hinner)
        (hlt hinner')
      cases htree
      obtain ⟨rfl, hrest⟩ := ih hinner' (List.cons.inj hown).2 hlist
      exact ⟨rfl, hrest⟩

/-- The trees of the value of the declaration whose property starts at an offset
of the source: the property is an identifier, a colon stands after it, and the
value goes on to a semicolon or to the end of the list. -/
def IsValue (source : Text) (start : Nat) (value : List Tree) : Prop :=
  ∃ (before : List Word) (front : List Tree) (property : Word) (name : Text)
    (gaps : List Tree) (colon : Tree) (back : List Tree),
    Within (Tree.ofText source) before
        (front ++ .leaf property :: (gaps ++ colon :: (value ++ back))) ∧
      (Word.textOf (before ++ Tree.wordsOf front)).length = start ∧
      property.lexeme.kind = .identifier name ∧
        (∀ tree ∈ gaps, tree.isGap = true) ∧
      colon.isDelimiter ':' = true ∧
      (∀ tree ∈ value, tree.isCurly = false ∧ tree.isDelimiter ';' = false) ∧
      ∀ tree ∈ back.head?, tree.isDelimiter ';' = true

/-- The first words of a source are known by the length of their text. -/
theorem words_unique {source : Text} {a b rest rest' : List Word}
    (h : words source = a ++ rest) (h' : words source = b ++ rest')
    (hlength : (Word.textOf a).length = (Word.textOf b).length) : a = b := by
  have hnil : ∀ {front more rest : List Word},
    words source = front ++ more ++ rest →
      (Word.textOf front).length = (Word.textOf (front ++ more)).length →
        more = [] := by
    intro front more rest hwords hlength
    cases more with
    | nil => rfl
    | cons word more =>
      rw [Word.textOf_append, Word.textOf_cons, List.length_append,
        List.length_append] at hlength
      have hword : word ∈ words source := by
        rw [hwords]
        simp
      have hpos := List.length_pos_iff.mpr (Word.text_ne_nil hword)
      omega
  rcases List.append_eq_append_iff.mp (h.symm.trans h') with
    ⟨more, rfl, _⟩ | ⟨more, rfl, _⟩
  · rw [hnil h' hlength, List.append_nil]
  · rw [hnil h hlength.symm, List.append_nil]

/-- What stands in front of the first tree that is no gap. -/
theorem takeWhile_gaps {gaps rest : List Tree} {tree : Tree}
    (hgaps : ∀ tree ∈ gaps, tree.isGap = true) (htree : tree.isGap = false) :
    (gaps ++ tree :: rest).takeWhile Tree.isGap = gaps := by
  rw [List.takeWhile_append_of_pos hgaps,
    List.takeWhile_cons_of_neg (by rw [htree]; decide),
    List.append_nil]

/-- What stands in front of the first semicolon. -/
theorem takeWhile_value {value back : List Tree}
    (hvalue : ∀ tree ∈ value, tree.isCurly = false ∧
      tree.isDelimiter ';' = false)
    (hback : ∀ tree ∈ back.head?, tree.isDelimiter ';' = true) :
    (value ++ back).takeWhile (fun tree => !tree.isDelimiter ';') = value := by
  rw [List.takeWhile_append_of_pos
    fun tree htree => by rw [(hvalue tree htree).2]; rfl]
  cases back with
  | nil => rw [List.takeWhile_nil, List.append_nil]
  | cons tree back =>
    rw [List.takeWhile_cons_of_neg (by rw [hback tree rfl]; decide),
      List.append_nil]

/-- There are no two values at one place. -/
theorem IsValue.unique {source : Text} {start : Nat} {value value' : List Tree}
    (h : IsValue source start value) (h' : IsValue source start value') :
    value = value' := by
  obtain ⟨before, front, property, name, gaps, colon, back, hlist, hstart, _,
    hgaps, hcolon, hvalue, hback⟩ := h
  obtain ⟨before', front', property', name', gaps', colon', back', hlist',
    hstart', _, hgaps', hcolon', hvalue', hback'⟩ := h'
  have hwords : before ++ Tree.wordsOf front =
      before' ++ Tree.wordsOf front' := by
    obtain ⟨after, hafter⟩ := hlist.exists_words
    obtain ⟨after', hafter'⟩ := hlist'.exists_words
    rw [Tree.wordsOf_ofText, Tree.wordsOf_append, ← List.append_assoc,
      List.append_assoc] at hafter
    rw [Tree.wordsOf_ofText, Tree.wordsOf_append, ← List.append_assoc,
      List.append_assoc] at hafter'
    exact words_unique hafter hafter' (hstart.trans hstart'.symm)
  obtain ⟨_, _, _, hrest⟩ := hlist.unique hlist' hwords
  have hgapsEq : gaps = gaps' := by
    rw [← takeWhile_gaps hgaps (Tree.isGap_of_isDelimiter hcolon), hrest,
      takeWhile_gaps hgaps' (Tree.isGap_of_isDelimiter hcolon')]
  rw [hgapsEq] at hrest
  obtain ⟨_, hrest⟩ := List.cons.inj (List.append_cancel_left hrest)
  rw [← takeWhile_value hvalue hback, hrest, takeWhile_value hvalue' hback']

/-- The words of a value are words of the source. -/
theorem IsValue.exists_words {source : Text} {start : Nat} {value : List Tree}
    (h : IsValue source start value) :
    ∃ before after, words source = before ++ Tree.wordsOf value ++ after := by
  obtain ⟨before, front, property, name, gaps, colon, back, hlist, _⟩ := h
  obtain ⟨after, hwords⟩ := hlist.exists_words
  rw [Tree.wordsOf_ofText] at hwords
  refine ⟨before ++ Tree.wordsOf front ++
    property :: (Tree.wordsOf gaps ++ colon.words),
    Tree.wordsOf back ++ after, ?_⟩
  rw [hwords]
  simp

/-- The trees of a value in a source without faults are lawful. -/
theorem IsValue.lawful {source : Text} {start : Nat} {value : List Tree}
    (h : IsValue source start value)
    (hfaultless : Tree.Faultless (Tree.ofText source)) :
    Tree.Lawful source value := by
  obtain ⟨before, front, property, name, gaps, colon, back, hlist, _⟩ := h
  have hlawful := hlist.lawful (Tree.lawful_ofText hfaultless)
  have hsplit : front ++ .leaf property :: (gaps ++ colon :: (value ++ back)) =
      (front ++ .leaf property :: (gaps ++ [colon])) ++ (value ++ back) := by
    simp
  rw [hsplit, Tree.lawful_append, Tree.lawful_append (a := value)] at hlawful
  exact hlawful.2.1

/-! ## What a value is read from -/

/-- A value and its mark of importance are read from the text of some trees.
White space and comments at the end may be left out, and so may closing braces
at the end of the text. -/
def IsReadFrom (trees : List Tree) (answer : Text × Bool) : Prop :=
  ∃ (core gaps : List Tree) (own braces : Text),
    trees = core ++ gaps ∧ (∀ tree ∈ gaps, tree.isGap = true) ∧
      Tree.textOf core = own ++ braces ∧ (∀ c ∈ braces, c = '\x7d') ∧
      answer = splitImportant (Text.trim (removeComments own))

/-- A node that is a declaration has trees for its value in the source, and what
it says is read from them. -/
def Node.Valued (source : Text) : Node → Prop
  | .leaf origin (.declaration _ value important) =>
    ∃ span trees, origin = .parsed span ∧ IsValue source span.start trees ∧
      IsReadFrom trees (value, important)
  | _ => True

/-- The end of the value in a segment: a semicolon at the end does not belong to
it. -/
def bodyEnd (start stop : Nat) (segment : List Tree) : Nat :=
  if segment.getLast?.any (Tree.isDelimiter ';') then
    start + (Tree.textOf segment.dropLast).length
  else stop

theorem bodyEnd_semicolon (start stop : Nat) (init : List Tree)
    {semicolon : Tree} (h : semicolon.isDelimiter ';' = true) :
    bodyEnd start stop (init ++ [semicolon]) =
      start + (Tree.textOf init).length := by
  rw [bodyEnd, List.getLast?_concat, List.dropLast_concat]
  exact if_pos h

theorem bodyEnd_other (start stop : Nat) {segment : List Tree}
    (h : ∀ tree ∈ segment, tree.isDelimiter ';' = false) :
    bodyEnd start stop segment = stop := by
  refine if_neg ?_
  rw [Option.any_eq_true]
  rintro ⟨last, hlast, hsemicolon⟩
  rw [h last (List.mem_of_getLast? hlast)] at hsemicolon
  cases hsemicolon

/-- A segment that becomes a declaration starts with an identifier and a colon,
and what is behind the colon gives its value. -/
theorem valued_statementNode {source : Text} {start stop : Nat} {first : Tree}
    {others : List Tree}
    (h : ∀ word name gaps colon rest, first = .leaf word →
      word.lexeme.kind = .identifier name → others = gaps ++ colon :: rest →
      (∀ tree ∈ gaps, tree.isGap = true) → colon.isDelimiter ':' = true →
      ∃ trees, IsValue source start trees ∧
      IsReadFrom trees (splitImportant
      (Text.trim (removeComments
      (source.slice (endOf stop
      (start + (Tree.textOf (first :: gaps ++ [colon])).length) rest)
      (bodyEnd start stop (first :: others))))))) :
    (statementNode source
      ⟨first.bare, start, endOf stop (start + first.text.length) others⟩
      (piecesOf (start + first.text.length) stop others)).Valued source := by
  have hlast := last_piecesOf start stop first others
  have hbody :
    (if (((piecesOf (start + first.text.length) stop others).getLast?.getD
        ⟨first.bare, start,
          endOf stop (start + first.text.length) others⟩).token.isDelimiter
          ';') =
          true then
        ((piecesOf (start + first.text.length) stop others).getLast?.getD
          ⟨first.bare, start,
            endOf stop (start + first.text.length) others⟩).start
      else ((piecesOf (start + first.text.length) stop others).getLast?.getD
          ⟨first.bare, start,
            endOf stop (start + first.text.length) others⟩).stop) =
      bodyEnd start stop (first :: others) := by
    rw [hlast]
    rcases List.eq_nil_or_concat others with rfl | ⟨init, last, rfl⟩
    · rfl
    · rw [List.concat_eq_append, piecesOf_concat, List.getLast?_concat,
        ← List.cons_append, bodyEnd, List.getLast?_concat, List.dropLast_concat,
        Tree.textOf_cons, List.length_append, ← Nat.add_assoc]
      rfl
  unfold statementNode
  dsimp only
  rw [hbody, hlast]
  split
  · trivial
  · split
    · rename_i offset hcolon
      split at hcolon
      · rename_i hidentifier
        obtain ⟨word, name, rfl, hkind⟩ := exists_identifier hidentifier
        obtain ⟨gaps, colon, rest, rfl, hgaps, hdelimiter, rfl⟩ :=
          exists_colon hcolon
        obtain ⟨trees, hvalue, hread⟩ :=
          h word name gaps colon rest rfl hkind rfl hgaps hdelimiter
        rw [List.cons_append, Tree.textOf_cons, List.length_append,
          ← Nat.add_assoc] at hread
        exact ⟨_, trees, rfl, hvalue, hread⟩
      · cases hcolon
    · trivial

/-! ## The values of a style sheet -/

/-- The text of the trees in the middle of some trees is a slice of the
source. -/
theorem slice_textOf {source front back : Text} (a b c : List Tree)
    (h : source = front ++ Tree.textOf (a ++ (b ++ c)) ++ back) :
    source.slice (front.length + (Tree.textOf a).length)
      (front.length + (Tree.textOf (a ++ b)).length) = Tree.textOf b := by
  have hsource : source =
      (front ++ Tree.textOf a) ++ Tree.textOf b ++ (Tree.textOf c ++ back) := by
    rw [h]
    simp
  have hslice := Text.slice_of_append (front ++ Tree.textOf a) (Tree.textOf b)
    (Tree.textOf c ++ back)
  rw [← hsource, List.length_append, Nat.add_assoc] at hslice
  rw [Tree.textOf_append, List.length_append]
  exact hslice

/-- The end that is found for a list cuts closing braces off the text of the
trees at its end. -/
theorem exists_own {source front back : Text} {stop : Nat} (a b : List Tree)
    (hsource : source = front ++ Tree.textOf (a ++ b) ++ back)
    (hstop : stop ≤ front.length + (Tree.textOf (a ++ b)).length)
    (hbraces : Braces source stop
      (front.length + (Tree.textOf (a ++ b)).length))
    (hle : front.length + (Tree.textOf a).length ≤ stop) :
    ∃ braces, Tree.textOf b =
        source.slice (front.length + (Tree.textOf a).length) stop ++ braces ∧
      ∀ c ∈ braces, c = '\x7d' := by
  refine ⟨source.slice stop (front.length + (Tree.textOf (a ++ b)).length), ?_,
    ?_⟩
  · have hwhole : source = front ++ Tree.textOf (a ++ (b ++ [])) ++ back := by
      rwa [List.append_nil]
    rw [Text.slice_append_slice source hle hstop, slice_textOf a b [] hwhole]
  · intro c hc
    obtain ⟨i, hi⟩ := List.mem_iff_getElem?.mp hc
    rw [Text.slice, List.getElem?_take] at hi
    split at hi
    · rename_i hlt
      rw [List.getElem?_drop, hbraces _ (Nat.le_add_right _ _) (by omega)] at hi
      exact (Option.some.inj hi).symm
    · cases hi

namespace Tree

theorem text_leaf (word : Word) : (leaf word).text = word.text := by
  rw [text, words_leaf, Word.textOf_cons, Word.textOf_nil, List.append_nil]

theorem Lawful.singleton {source : Text} {trees : List Tree} {tree : Tree}
    (h : Lawful source trees) (hmem : tree ∈ trees) : Lawful source [tree] := by
  obtain ⟨front, back, rfl⟩ := List.append_of_mem hmem
  rw [lawful_append, ← List.singleton_append, lawful_append] at h
  exact h.2.1

/-- A delimiter in the source is its character. -/
theorem text_of_isDelimiter {source : Text} {tree : Tree} {c : Char}
    (h : Lawful source [tree]) (hc : tree.isDelimiter c = true)
    (hbreak : c ≠ '\n') (hnul : c ≠ '\uFFFD') :
    tree.text = [c] := by
  obtain ⟨word, rfl, _, hlexeme⟩ := exists_of_isDelimiter hc
  rw [text_leaf]
  exact Word.text_of_plain (h.mem word (by simp)) hlexeme hbreak hnul

end Tree

/-- Two characters are not the same delimiter. -/
theorem Tree.isDelimiter_inj {tree : Tree} {a b : Char}
    (ha : tree.isDelimiter a = true) (hb : tree.isDelimiter b = true) :
    a = b := by
  obtain ⟨word, rfl, _, htext⟩ := exists_of_isDelimiter ha
  obtain ⟨_, ⟨⟩, _, htext'⟩ := exists_of_isDelimiter hb
  rw [htext] at htext'
  exact (List.cons.inj htext').1

section Segments

variable {source front : Text} {before : List Word} {lead : List Tree}
  {stop : Nat} {first : Tree}

/-- The value of a segment that a semicolon ends is read from the trees before
it. -/
theorem valued_of_semicolon {init back : List Tree} {semicolon : Tree}
    (hfront : front = Word.textOf (before ++ Tree.wordsOf lead))
    (hlist : Within (Tree.ofText source) before
      (lead ++ (first :: (init ++ semicolon :: back))))
    (hinit : ∀ tree ∈ init, tree.isCurly = false ∧ tree.isDelimiter ';' = false)
    (hsemicolon : semicolon.isDelimiter ';' = true)
    (hstanding : Standing source front stop
      [.statement first (init ++ [semicolon])]) :
    (statementNode source
      ⟨first.bare, front.length,
        endOf stop (front.length + first.text.length) (init ++ [semicolon])⟩
      (piecesOf (front.length + first.text.length) stop
        (init ++ [semicolon]))).Valued source := by
  apply valued_statementNode
  intro word name gaps colon rest hfirst hkind hothers hgaps hcolon
  -- The semicolon is the last tree behind the colon.
  obtain ⟨core, rfl, rfl⟩ : ∃ core, rest = core ++ [semicolon] ∧
      init = gaps ++ colon :: core := by
    rcases List.eq_nil_or_concat rest with rfl | ⟨core, last, rfl⟩
    · have hlast := (List.append_inj' hothers rfl).2
      rw [(List.cons.inj hlast).1] at hsemicolon
      exact absurd (Tree.isDelimiter_inj hsemicolon hcolon) (by decide)
    · rw [List.concat_eq_append, ← List.cons_append,
        ← List.append_assoc] at hothers
      obtain ⟨hinits, hlasts⟩ := List.append_inj' hothers rfl
      rw [List.concat_eq_append, (List.cons.inj hlasts).1]
      exact ⟨core, rfl, hinits⟩
  have hvalue : IsValue source front.length core := by
    refine ⟨before, lead, word, name, gaps, colon, semicolon :: back,
      ?_, by rw [hfront], hkind,
      hgaps, hcolon, ?_, ?_⟩
    · rw [hfirst] at hlist
      simpa using hlist
    · intro tree htree
      exact hinit tree (List.mem_append_right _ (List.mem_cons_of_mem _ htree))
    · rintro _ ⟨⟩
      exact hsemicolon
  obtain ⟨after, hplaced⟩ := hstanding.placed
  have hsource : source =
      front ++ Tree.textOf
        (first :: gaps ++ [colon] ++ (core ++ [semicolon])) ++ after := by
    rw [hplaced, Part.textOf, Part.treesOf_cons, Part.trees]
    simp
  have hslice := slice_textOf _ _ _ hsource
  have hend : bodyEnd front.length stop
    (first :: (gaps ++ colon :: core ++ [semicolon])) =
      front.length +
        (Tree.textOf (first :: gaps ++ [colon] ++ core)).length := by
    rw [← List.cons_append, bodyEnd_semicolon _ _ _ hsemicolon]
    simp
  have hstart : endOf stop
    (front.length + (Tree.textOf (first :: gaps ++ [colon])).length)
      (core ++ [semicolon]) = front.length +
        (Tree.textOf (first :: gaps ++ [colon])).length := by
    cases core <;> rfl
  refine ⟨core, hvalue, core, [], Tree.textOf core, [],
    (List.append_nil _).symm,
    List.forall_mem_nil _, (List.append_nil _).symm, List.forall_mem_nil _, ?_⟩
  rw [hend, hstart, hslice]

/-- The end that is found for a list cuts closing braces off the text behind a
colon in its last segment. -/
theorem Standing.exists_own {blanks core : List Tree} {colon : Tree}
    (h : Standing source front stop
      [.statement first (blanks ++ colon :: core)])
    (hcolon : colon.isDelimiter ':' = true) :
    ∃ own braces, Tree.textOf core = own ++ braces ∧
      (∀ c ∈ braces, c = '\x7d') ∧
      source.slice
        (endOf stop (front.length +
          (Tree.textOf (first :: blanks ++ [colon])).length) core) stop =
        own := by
  cases core with
  | nil =>
    exact ⟨[], [], rfl, List.forall_mem_nil _,
      Text.slice_eq_nil _ (Nat.le_refl _)⟩
  | cons tree more =>
    have hlt := h.lt
    obtain ⟨⟨after, hplaced⟩, hlawful, hstop, hall⟩ := h
    have htrees : Part.textOf
      [.statement first (blanks ++ colon :: tree :: more)] =
        Tree.textOf (first :: blanks ++ [colon] ++ tree :: more) := by
      rw [Part.textOf, Part.treesOf_cons, Part.trees]
      simp
    rw [htrees] at hplaced hstop hall
    have hcolonText : colon.text = [':'] := by
      refine Tree.text_of_isDelimiter (hlawful.singleton ?_) hcolon (by decide)
        (by decide)
      rw [Part.treesOf_cons, Part.trees]
      simp
    -- The colon is no closing brace, so the end that is found is not before it.
    have hle : front.length +
        (Tree.textOf (first :: blanks ++ [colon])).length ≤ stop := by
      refine Braces.finish_le front _
        (Tree.textOf (tree :: more) ++ after) ?_ ?_ (Nat.le_of_lt hlt)
      · have hsource :
          source = front ++ Tree.textOf (first :: blanks ++ [colon]) ++
            (Tree.textOf (tree :: more) ++ after) := by
          rw [hplaced, Tree.textOf_append _ (tree :: more)]
          simp only [List.append_assoc]
        rw [← hsource]
        intro i hi hilt
        refine hall i hi (Nat.lt_of_lt_of_le hilt ?_)
        rw [Tree.textOf_append _ (tree :: more), List.length_append]
        omega
      · rw [Tree.textOf_append, Tree.textOf_cons colon, hcolonText]
        simp
    obtain ⟨braces, htext, hbraces⟩ := Css.exists_own _ _ hplaced hstop hall hle
    exact ⟨_, braces, htext, hbraces, rfl⟩

/-- The value of a segment at the end of a list is read from its trees, but for
the closing braces that are taken for those of the blocks around it. -/
theorem valued_of_unfinished {others gaps : List Tree}
    (hfront : front = Word.textOf (before ++ Tree.wordsOf lead))
    (hlist : Within (Tree.ofText source) before
      (lead ++ (first :: (others ++ gaps))))
    (hothers : ∀ tree ∈ first :: others, tree.isCurly = false ∧
      tree.isDelimiter ';' = false)
    (hgaps : ∀ tree ∈ gaps, tree.isGap = true)
    (hstanding : Standing source front stop [.statement first others]) :
    (statementNode source
      ⟨first.bare, front.length,
        endOf stop (front.length + first.text.length) others⟩
      (piecesOf (front.length + first.text.length) stop others)).Valued
        source := by
  apply valued_statementNode
  intro word name blanks colon core hfirst hkind hsplit hblanks hcolon
  have hcurly : ∀ tree ∈ core, tree.isCurly = false ∧ tree.isDelimiter ';' =
      false := by
    intro tree htree
    rw [hsplit] at hothers
    exact hothers tree (List.mem_cons_of_mem _
      (List.mem_append_right _ (List.mem_cons_of_mem _ htree)))
  have hvalue : IsValue source front.length (core ++ gaps) := by
    refine ⟨before, lead, word, name, blanks, colon, [], ?_, by rw [hfront],
      hkind, hblanks, hcolon,
      ?_, nofun⟩
    · rw [hfirst, hsplit] at hlist
      simpa using hlist
    · rw [List.forall_mem_append]
      refine ⟨hcurly, fun tree htree => ?_⟩
      have hgap := hgaps tree htree
      cases tree with
      | block => cases hgap
      | leaf word =>
        refine ⟨rfl, Bool.eq_false_iff.mpr fun hsemicolon => ?_⟩
        rw [Tree.isGap_of_isDelimiter hsemicolon] at hgap
        cases hgap
  have hend : bodyEnd front.length stop (first :: others) = stop :=
    bodyEnd_other _ _ fun tree htree => (hothers tree htree).2
  rw [hsplit] at hstanding
  obtain ⟨own, braces, htext, hbraces, hslice⟩ := hstanding.exists_own hcolon
  refine ⟨core ++ gaps, hvalue, core, gaps, own, braces, rfl, hgaps, htext,
    hbraces, ?_⟩
  rw [hend, hslice]

end Segments

/-- The node of a segment without a block has no children. -/
theorem walk_statementNode (source : Text) (first : Piece) (others : List Piece)
    (rest : List Node) :
    walk (statementNode source first others :: rest) =
      statementNode source first others :: walk rest := by
  unfold statementNode
  dsimp only
  split
  · rfl
  · split <;> rfl

/-- A segment without a block gives one node. -/
theorem readParts_statement {source : Text} {start stop : Nat} {first : Tree}
    {others : List Tree} {rest : List Part} {nodes : List Node}
    (h : readParts source start stop (.statement first others :: rest) =
      some nodes) :
    ∃ own more, nodes = own :: more ∧
      own = statementNode source
        ⟨first.bare, start,
          endOf (endOf stop (start + (Part.statement first others).text.length)
          rest) (start + first.text.length) others⟩
        (piecesOf (start + first.text.length)
          (endOf stop (start + (Part.statement first others).text.length) rest)
            others) ∧
      readParts source (start + (Part.statement first others).text.length)
        stop rest = some more := by
  obtain ⟨own, more, rfl, hown, hmore⟩ := exists_of_readParts_cons h
  cases hown
  exact ⟨_, more, rfl, rfl, hmore⟩

/-- A declaration that the trees at the end of a list give is read from its
value. -/
theorem valued_of_ofUnfinished {source front : Text} {before : List Word}
    {stop : Nat} {nodes : List Node} {lead segment : List Tree}
    (hfront : front = Word.textOf (before ++ Tree.wordsOf lead))
    (hlist : Within (Tree.ofText source) before (lead ++ segment.reverse))
    (hsegment : IsSegment segment.reverse)
    (hstanding : Standing source front stop (Part.ofUnfinished segment))
    (hread : readParts source front.length stop (Part.ofUnfinished segment) =
      some nodes) :
    ∀ node ∈ walk nodes, node.Valued source := by
  have hsplit : segment.reverse =
      (segment.dropWhile Tree.isGap).reverse ++
        (segment.takeWhile Tree.isGap).reverse := by
    rw [← List.reverse_append, List.takeWhile_append_dropWhile]
  have hgaps : ∀ tree ∈ (segment.takeWhile Tree.isGap).reverse,
      tree.isGap = true := by
    intro tree h
    exact List.all_eq_true.mp List.all_takeWhile tree (List.mem_reverse.mp h)
  rw [hsplit] at hlist hsegment
  rw [Part.ofUnfinished] at hstanding hread
  generalize (segment.takeWhile Tree.isGap).reverse = gaps at *
  cases hcore : (segment.dropWhile Tree.isGap).reverse with
  | nil =>
    rw [hcore, Part.ofSegment, List.nil_append] at hread
    rw [readParts_gaps_eq hread]
    exact List.forall_mem_nil _
  | cons first others =>
    rw [hcore] at hlist hsegment hstanding hread
    obtain ⟨own, more, rfl, rfl, hmore⟩ := readParts_statement hread
    rw [readParts_gaps_eq hmore, walk_statementNode]
    refine List.forall_mem_singleton.mpr ?_
    exact valued_of_unfinished hfront hlist
      (fun tree htree => hsegment.inside tree (List.mem_append_left _ htree))
        hgaps hstanding.head

/-- White space and a comment between segments give no declaration. -/
theorem valued_of_gap {source : Text} {start stop : Nat} {tree : Tree}
    {nodes : List Node}
    (h : (Part.ofGap tree).read source start stop = some nodes) :
    ∀ node ∈ walk nodes, node.Valued source := by
  rw [read_ofGap] at h
  cases h
  cases tree.comment? with
  | none => exact nofun
  | some text => exact List.forall_mem_singleton.mpr trivial

/-- A declaration that a segment with a semicolon at its end gives is read from
its value. -/
theorem valued_of_statement {source front : Text} {before : List Word}
    {stop : Nat} {lead segment others rest : List Tree} {first semicolon : Tree}
    (htrees : segment.reverse ++ [semicolon] = first :: others)
    (hfront : front = Word.textOf (before ++ Tree.wordsOf lead))
    (hlist : Within (Tree.ofText source) before
      (lead ++ (segment.reverse ++ semicolon :: rest)))
    (hsegment : IsSegment segment.reverse)
    (hsemicolon : semicolon.isDelimiter ';' = true)
    (hstanding : Standing source front stop [.statement first others]) :
    (statementNode source
      ⟨first.bare, front.length,
        endOf stop (front.length + first.text.length) others⟩
      (piecesOf (front.length + first.text.length) stop others)).Valued
        source := by
  cases hreverse : segment.reverse with
  | nil =>
    rw [hreverse, List.nil_append] at htrees
    obtain ⟨rfl, rfl⟩ := List.cons.inj htrees
    apply valued_statementNode
    intro word name gaps colon others _ _ hothers
    exact absurd hothers.symm
      (List.append_ne_nil_of_right_ne_nil _ (List.cons_ne_nil _ _))
  | cons head init =>
    rw [hreverse, List.cons_append] at htrees
    obtain ⟨rfl, rfl⟩ := List.cons.inj htrees
    rw [hreverse] at hlist hsegment
    exact valued_of_semicolon hfront hlist
      (fun tree htree => hsegment.inside tree (List.mem_cons_of_mem _ htree))
        hsemicolon hstanding

/-- The declarations in a block are read from their values if those of its
content are. -/
theorem valued_of_block {source front : Text} {before : List Word} {stop : Nat}
    {nodes : List Node} {lead segment content rest : List Tree} {opener : Word}
    {closer : Option Word}
    (hfront : front = Word.textOf (before ++ Tree.wordsOf lead))
    (hlist : Within (Tree.ofText source) before
      (lead ++ (segment ++ .block opener .curly content closer :: rest)))
    (hstanding : Standing source front stop
      [.block segment opener (group [] content) closer])
    (hread : (Part.block segment opener (group [] content) closer).read source
      front.length stop = some nodes)
    (hcontent :
      ∀ {front : Text} {before : List Word} {stop : Nat} {children : List Node},
      front = Word.textOf (before ++ Tree.wordsOf []) →
      Within (Tree.ofText source) before ([] ++ ([].reverse ++ content)) →
      Standing source front stop (group [] content) →
      readParts source front.length stop (group [] content) = some children →
      ∀ node ∈ walk children, node.Valued source) :
    ∀ node ∈ walk nodes, node.Valued source := by
  rw [Part.read] at hread
  split at hread
  · rename_i hclose
    obtain ⟨children, hchildren, rfl⟩ := Option.map_eq_some_iff.mp hread
    obtain ⟨hopener, _, hinner⟩ := hstanding.block hclose
    rw [blockNode, walk, walk, List.append_nil, Node.descendants,
      List.forall_mem_cons]
    refine ⟨trivial, ?_⟩
    have hfront' : front ++ Tree.textOf segment ++ ['\x7b'] =
        Word.textOf (before ++ Tree.wordsOf (lead ++ segment) ++ [opener] ++
          Tree.wordsOf []) := by
      rw [hfront, Tree.textOf]
      simp [hopener]
    have hlist' : Within (Tree.ofText source)
        (before ++ Tree.wordsOf (lead ++ segment) ++ [opener])
          ([] ++ ([].reverse ++ content)) := by
      rw [← List.append_assoc] at hlist
      exact hlist.content
    have hlength : (front ++ Tree.textOf segment ++ ['\x7b']).length =
        front.length + (Tree.textOf segment).length + opener.text.length := by
      rw [List.length_append, List.length_append, hopener]
    rw [← hlength] at hchildren
    exact hcontent hfront' hlist' hinner hchildren
  · cases hread

/-- Every declaration that is read from a list of trees is read from its
value. -/
theorem valued_of_readParts {source front : Text} {before : List Word}
    {stop : Nat} {nodes : List Node} {lead segment : List Tree}
    (trees : List Tree)
    (hfront : front = Word.textOf (before ++ Tree.wordsOf lead))
    (hlist : Within (Tree.ofText source) before
      (lead ++ (segment.reverse ++ trees)))
    (hsegment : IsSegment segment.reverse)
    (hstanding : Standing source front stop (group segment trees))
    (hread : readParts source front.length stop (group segment trees) =
      some nodes) :
    ∀ node ∈ walk nodes, node.Valued source := by
  cases trees with
  | nil =>
    rw [group] at hstanding hread
    rw [List.append_nil] at hlist
    exact valued_of_ofUnfinished hfront hlist hsegment hstanding hread
  | cons tree rest =>
    -- What stands behind this tree, once its part has been read.
    have hrest : ∀ (part : Part) {others : List Node},
      part.trees = segment.reverse ++ [tree] →
        Standing source (front ++ part.text) stop (group [] rest) →
        readParts source (front.length + part.text.length) stop
          (group [] rest) = some others →
        ∀ node ∈ walk others, node.Valued source := by
      intro part others hpart hstanding hread
      have hfront' : front ++ part.text =
          Word.textOf (before ++ Tree.wordsOf (lead ++ part.trees)) := by
        rw [hfront, Part.text, Tree.textOf]
        simp
      have hlist' : Within (Tree.ofText source) before
          (lead ++ part.trees ++ ([].reverse ++ rest)) := by
        rw [hpart]
        simpa using hlist
      rw [← List.length_append] at hread
      exact valued_of_readParts rest hfront' hlist' isSegment_nil
        hstanding hread
    rcases group_cases segment tree with
      ⟨rfl, hgap⟩ | ⟨opener, content, closer, rfl⟩ | hsemicolon | ⟨hgap, hcurly,
        hsemicolon⟩
    · rw [group_gap hgap] at hstanding hread
      obtain ⟨own, others, rfl, hown, hothers⟩ := exists_of_readParts_cons hread
      rw [walk_append, List.forall_mem_append]
      exact ⟨valued_of_gap hown,
        hrest _ (Part.trees_ofGap tree) hstanding.tail hothers⟩
    · rw [group_curly] at hstanding hread
      obtain ⟨own, others, rfl, hown, hothers⟩ := exists_of_readParts_cons hread
      rw [walk_append, List.forall_mem_append]
      have htrees :
        (Part.block segment.reverse opener (group [] content) closer).trees =
          segment.reverse ++ [.block opener .curly content closer] := by
        rw [Part.trees, treesOf_group, List.reverse_nil, List.nil_append]
      refine ⟨?_, hrest _ htrees hstanding.tail hothers⟩
      exact valued_of_block hfront hlist hstanding.head hown
        fun hinner hcontent hstanding hread =>
        valued_of_readParts content hinner hcontent isSegment_nil
          hstanding hread
    · obtain ⟨first, others, htrees⟩ : ∃ first others,
          segment.reverse ++ [tree] = first :: others :=
        List.exists_cons_of_ne_nil (by simp)
      rw [group_semicolon hsemicolon, List.reverse_cons, htrees, Part.ofSegment,
        List.singleton_append] at hstanding hread
      obtain ⟨own, more, rfl, rfl, hmore⟩ := readParts_statement hread
      rw [walk_statementNode, List.forall_mem_cons]
      exact ⟨valued_of_statement htrees hfront hlist hsegment hsemicolon
        hstanding.head,
        hrest (.statement first others) htrees.symm hstanding.tail hmore⟩
    · rw [group_other hgap hcurly hsemicolon] at hstanding hread
      have hlist' : Within (Tree.ofText source) before
          (lead ++ ((tree :: segment).reverse ++ rest)) := by
        rw [List.reverse_cons]
        simpa using hlist
      refine valued_of_readParts rest hfront hlist' ?_ hstanding hread
      rw [List.reverse_cons]
      refine hsegment.concat (hgap.imp_left fun hne => ?_) hcurly hsemicolon
      rwa [Ne, List.reverse_eq_nil_iff]
termination_by trees

/-- Every declaration of a style sheet is read from the trees of its value. -/
theorem valued_of_parse {source : Text} {document : Document}
    (h : Document.parse source = .ok document) :
    Tree.Faultless (Tree.ofText source) ∧
      ∀ node ∈ walk document.children, node.Valued source := by
  obtain ⟨hfaultless, nodes, hread, rfl⟩ := parse_eq_ok_iff.mp h
  have hlist : Within (Tree.ofText source) []
      ([] ++ ([].reverse ++ Tree.ofText source)) := .here
  exact ⟨hfaultless,
    valued_of_readParts (Tree.ofText source) rfl hlist isSegment_nil
    (standing_group hfaultless) hread⟩

end OklchGate.Css
