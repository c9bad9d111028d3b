import OklchGate.Proofs.Css.Accepted

/-!
# Which block a reader blames

The reader refuses a source for an open block when it finds no closing brace
before the end of some block of the row of last tokens.  Each block of the row
takes one of the braces at the end of the source for its own, from the outside
to the inside, so the blame falls on the first block for which no brace is left.
This is not always a block that is open.

There are five groups.

* `Token.curlyBlocks`, the curly blocks of a token, and `Token.tailBlocks`, the
  ones in the row of last tokens.
* `Token.ClosedInside`: nothing in a closed block is open.  In the row of last
  tokens, the open blocks come first (`isOpen_getElem_iff`).
* `trailingBraces`, the number of closing braces at the end of a text.
* `nodesOf_error_cases` and `blames_of_nodesOf_error`: where reading stops.
* `ordered_curlyBlocksOf`: no two blocks stand at one position.
  `parse_openBlock` puts this together.
-/

namespace OklchGate.Css

/-! ## Curly blocks -/

namespace Token

mutual

/-- The curly blocks of a token, each before those in its content. -/
def curlyBlocks : Token → List Token
  | leaf .. => []
  | block position opener bracket content closed =>
    if bracket = .curly then
      block position opener bracket content closed :: curlyBlocksOf content
    else curlyBlocksOf content
termination_by structural token => token

/-- The curly blocks of some tokens, in the order of the text. -/
def curlyBlocksOf : List Token → List Token
  | [] => []
  | token :: rest => token.curlyBlocks ++ curlyBlocksOf rest
termination_by structural tokens => tokens

end

mutual

/-- The curly blocks, each the last token of the one before it, that a token
starts. -/
def tailBlocks : Token → List Token
  | leaf .. => []
  | block position opener bracket content closed =>
    if bracket = .curly then
      block position opener bracket content closed :: tailBlocksOf content
    else []
termination_by structural token => token

/-- The curly blocks, each the last token of the one before it, at the end of
some tokens. -/
def tailBlocksOf : List Token → List Token
  | [] => []
  | token :: rest =>
    if rest.isEmpty then token.tailBlocks else tailBlocksOf rest
termination_by structural tokens => tokens

end

/-- The token is a block without its closing bracket. -/
def isOpen : Token → Bool
  | leaf .. => false
  | block _ _ _ _ closed => !closed

theorem tailBlocksOf_cons {rest : List Token} (h : rest ≠ []) (token : Token) :
    tailBlocksOf (token :: rest) = tailBlocksOf rest := by
  rw [tailBlocksOf, if_neg (by simpa using h)]

mutual

theorem length_tailBlocks (token : Token) :
    token.tailBlocks.length = token.tailDepth := by
  cases token with
  | leaf position lexeme => rfl
  | block position opener bracket content closed =>
    rw [tailBlocks, tailDepth]
    split
    · rw [List.length_cons, length_tailBlocksOf content]
    · rfl

/-- There are as many blocks in the row of last tokens as it is deep. -/
theorem length_tailBlocksOf (tokens : List Token) :
    (tailBlocksOf tokens).length = tailDepthOf tokens := by
  cases tokens with
  | nil => rfl
  | cons token rest =>
    rw [tailBlocksOf, tailDepthOf]
    split
    · exact length_tailBlocks token
    · exact length_tailBlocksOf rest

end

mutual

theorem tailBlocks_subset (token : Token) :
    token.tailBlocks ⊆ token.curlyBlocks := by
  cases token with
  | leaf position lexeme => exact List.Subset.refl []
  | block position opener bracket content closed =>
    rw [tailBlocks, curlyBlocks]
    split
    · exact List.cons_subset_cons _ (tailBlocksOf_subset content)
    · exact List.nil_subset _

/-- The blocks in the row of last tokens are among the blocks. -/
theorem tailBlocksOf_subset (tokens : List Token) :
    tailBlocksOf tokens ⊆ curlyBlocksOf tokens := by
  cases tokens with
  | nil => exact List.Subset.refl []
  | cons token rest =>
    rw [tailBlocksOf, curlyBlocksOf]
    split
    · exact List.subset_append_of_subset_left _ (tailBlocks_subset token)
    · exact List.subset_append_of_subset_right _ (tailBlocksOf_subset rest)

end

/-! ## Open blocks come first -/

mutual

/-- Nothing is open in a closed block of a token. -/
def ClosedInside : Token → Prop
  | leaf .. => True
  | block _ _ _ content closed =>
    (closed = true → allClosed content = true) ∧ AllClosedInside content
termination_by structural token => token

/-- Nothing is open in a closed block of some tokens. -/
def AllClosedInside : List Token → Prop
  | [] => True
  | token :: rest => token.ClosedInside ∧ AllClosedInside rest
termination_by structural tokens => tokens

end

mutual

theorem closedInside_of_isClosed {token : Token} (h : token.isClosed = true) :
    token.ClosedInside := by
  cases token with
  | leaf position lexeme => trivial
  | block position opener bracket content closed =>
    rw [isClosed, Bool.and_eq_true] at h
    exact ⟨fun _ => h.2, allClosedInside_of_allClosed h.2⟩

theorem allClosedInside_of_allClosed {tokens : List Token}
    (h : allClosed tokens = true) :
    AllClosedInside tokens := by
  cases tokens with
  | nil => trivial
  | cons token rest =>
    rw [allClosed_cons] at h
    exact ⟨closedInside_of_isClosed h.1, allClosedInside_of_allClosed h.2⟩

end

theorem allClosedInside_append {a b : List Token} :
    AllClosedInside (a ++ b) ↔ AllClosedInside a ∧ AllClosedInside b := by
  induction a with
  | nil => exact ⟨fun h => ⟨trivial, h⟩, fun h => h.2⟩
  | cons token rest ih =>
    rw [List.cons_append, AllClosedInside, AllClosedInside, ih, and_assoc]

/-- Nothing is open in what nesting closes. -/
theorem allClosedInside_nest (position : Position) {stack : List Frame}
    {done : List Token} (lexemes : List Lexeme)
    (hstack : ∀ frame ∈ stack, allClosed frame.before = true)
    (hdone : allClosed done = true) :
    AllClosedInside (nest position stack done lexemes) := by
  induction lexemes generalizing position stack done with
  | nil =>
    rw [nest]
    have hinside : AllClosedInside done.reverse :=
      allClosedInside_of_allClosed (allClosed_reverse.mpr hdone)
    clear hdone
    induction stack generalizing done with
    | nil => exact hinside
    | cons frame outer ih =>
      rw [List.forall_mem_cons] at hstack
      refine ih hstack.2 ?_
      show AllClosedInside (frame.close done false).reverse
      rw [Frame.close, List.reverse_cons, allClosedInside_append]
      exact ⟨allClosedInside_of_allClosed (allClosed_reverse.mpr hstack.1),
        ⟨fun hfalse => absurd hfalse Bool.false_ne_true, hinside⟩, trivial⟩
  | cons lexeme rest ih =>
    have hleaf : allClosed (leaf position lexeme :: done) = true :=
      allClosed_cons.mpr ⟨rfl, hdone⟩
    rw [nest.eq_def]
    dsimp only
    split
    · exact ih _ (List.forall_mem_cons.mpr ⟨hdone, hstack⟩) rfl
    · next frame outer _ =>
      split
      · rw [List.forall_mem_cons] at hstack
        refine ih _ hstack.2 (allClosed_cons.mpr ⟨?_, hstack.1⟩)
        rw [isClosed, Bool.true_and, allClosed_reverse]
        exact hdone
      · exact ih _ hstack hleaf
    · exact ih _ hstack hleaf

theorem allClosedInside_ofText (source : Text) :
    AllClosedInside (ofText source) :=
  allClosedInside_nest {} _ nofun rfl

mutual

theorem isOpen_of_mem_tailBlocks {token block : Token}
    (h : token.isClosed = true) (hblock : block ∈ token.tailBlocks) :
    block.isOpen = false := by
  cases token with
  | leaf position lexeme => cases hblock
  | block position opener bracket content closed =>
    rw [isClosed, Bool.and_eq_true] at h
    rw [tailBlocks] at hblock
    split at hblock
    · rcases List.mem_cons.mp hblock with rfl | hblock
      · rw [isOpen, h.1]
        rfl
      · exact isOpen_of_mem_tailBlocksOf h.2 hblock
    · cases hblock

theorem isOpen_of_mem_tailBlocksOf {tokens : List Token} {block : Token}
    (h : allClosed tokens = true) (hblock : block ∈ tailBlocksOf tokens) :
    block.isOpen = false := by
  cases tokens with
  | nil => cases hblock
  | cons token rest =>
    rw [allClosed_cons] at h
    rw [tailBlocksOf] at hblock
    split at hblock
    · exact isOpen_of_mem_tailBlocks h.1 hblock
    · exact isOpen_of_mem_tailBlocksOf h.2 hblock

end

mutual

theorem pairwise_tailBlocks {token : Token} (h : token.ClosedInside) :
    token.tailBlocks.Pairwise fun a b => b.isOpen = true → a.isOpen = true := by
  cases token with
  | leaf position lexeme => exact List.Pairwise.nil
  | block position opener bracket content closed =>
    rw [tailBlocks]
    split
    · refine List.pairwise_cons.mpr ⟨fun inner hinner hopen => ?_,
        pairwise_tailBlocksOf h.2⟩
      cases closed with
      | false => rfl
      | true =>
        rw [isOpen_of_mem_tailBlocksOf (h.1 rfl) hinner] at hopen
        cases hopen
    · exact List.Pairwise.nil

/-- In the row of last tokens, no open block comes after a closed one. -/
theorem pairwise_tailBlocksOf {tokens : List Token}
    (h : AllClosedInside tokens) :
    (tailBlocksOf tokens).Pairwise fun a b => b.isOpen = true →
      a.isOpen = true := by
  cases tokens with
  | nil => exact List.Pairwise.nil
  | cons token rest =>
    rw [tailBlocksOf]
    split
    · exact pairwise_tailBlocks h.1
    · exact pairwise_tailBlocksOf h.2

end

/-- Where the open blocks of a row come first, a block is open exactly if its
index is smaller than their number. -/
theorem isOpen_getElem_iff {blocks : List Token}
    (h : blocks.Pairwise fun a b => b.isOpen = true → a.isOpen = true) {n : Nat}
    {block : Token} (hblock : blocks[n]? = some block) :
    block.isOpen = true ↔ n < blocks.countP isOpen := by
  induction blocks generalizing n with
  | nil => cases hblock
  | cons first rest ih =>
    obtain ⟨hfirst, hrest⟩ := List.pairwise_cons.mp h
    have hnone : first.isOpen = false → rest.countP isOpen = 0 := by
      intro hclosed
      refine List.countP_eq_zero.mpr fun other hother hopen => ?_
      rw [hfirst other hother hopen] at hclosed
      cases hclosed
    rw [List.countP_cons]
    cases n with
    | zero =>
      obtain rfl := Option.some.inj hblock
      cases hopen : first.isOpen with
      | true => simp
      | false => simp [hnone hopen]
    | succ n =>
      have hown := ih hrest hblock
      cases hopen : first.isOpen with
      | true =>
        rw [hown, if_pos rfl]
        omega
      | false =>
        rw [hown, hnone hopen, if_neg Bool.false_ne_true]
        omega

end Token

/-! ## Braces at the end of a text -/

/-- The number of closing braces at the end of a text. -/
def trailingBraces (text : Text) : Nat :=
  (text.reverse.takeWhile (· = '\x7d')).length

/-- A text ends in so many closing braces exactly if it does not have fewer of
them at its end. -/
theorem endsInBraces_iff {count : Nat} {text : Text} :
    EndsInBraces count text ↔ count ≤ trailingBraces text := by
  rw [EndsInBraces, ← List.reverse_prefix, List.reverse_replicate,
    trailingBraces]
  generalize text.reverse = reversed
  induction reversed generalizing count with
  | nil =>
    cases count with
    | zero => simp
    | succ count => simp [List.replicate_succ]
  | cons c rest ih =>
    cases count with
    | zero => simp
    | succ count =>
      rw [List.replicate_succ, List.cons_prefix_cons, ih]
      by_cases hc : c = '\x7d'
      · rw [List.takeWhile_cons_of_pos (by simpa using hc), List.length_cons]
        exact ⟨fun h => Nat.succ_le_succ h.2,
          fun h => ⟨hc.symm, Nat.le_of_succ_le_succ h⟩⟩
      · rw [List.takeWhile_cons_of_neg (by simpa using hc), List.length_nil]
        exact iff_of_false (fun h => hc h.1.symm) (Nat.not_succ_le_zero count)

theorem EndsInBraces.mono {a b : Nat} {text : Text} (h : EndsInBraces b text)
    (hab : a ≤ b) :
    EndsInBraces a text :=
  endsInBraces_iff.mpr (Nat.le_trans hab (endsInBraces_iff.mp h))

/-! ## Where reading stops -/

theorem bind_eq_error {ε α β : Type} {x : Except ε α} {f : α → Except ε β}
    {error : ε} (h : x >>= f = .error error) :
    x = .error error ∨ ∃ a, x = .ok a ∧ f a = .error error := by
  cases x with
  | error other =>
    have hsame : (Except.error other : Except ε β) = .error error := h
    cases hsame
    exact Or.inl rfl
  | ok a => exact Or.inr ⟨a, rfl, h⟩

/-- Reading a token and those after it stops at the token, in its content, or
after it. -/
theorem nodesOf_error_cases {source : SourceText} {stop next : Nat}
    {segment : List Piece} {token : Token} {rest : List Token}
    (hnext : source.startOfFirst stop rest = next) {error : ParseError}
    (h : nodesOf source stop segment (token :: rest) = .error error) :
    (token.isCurly = true ∧
        (source.text.slice (next - 1) next ≠ ['\x7d'] ∧
          error = ⟨.openBlock, token.position⟩ ∨
          source.text.slice (next - 1) next = ['\x7d'] ∧
            token.contentNodes source (next - 1) = .error error)) ∨
      ∃ segment', nodesOf source stop segment' rest = .error error := by
  rw [nodesOf, hnext] at h
  dsimp only at h
  split at h
  · rcases bind_eq_error h with hrest | ⟨nodes, _, hnodes⟩
    · exact Or.inr ⟨[], hrest⟩
    · split at hnodes <;> cases hnodes
  · split at h
    · next hcurly =>
      split at h
      · next hbrace =>
        rcases bind_eq_error h with hcontent | ⟨children, _, hchildren⟩
        · exact Or.inl ⟨hcurly, Or.inr ⟨hbrace, hcontent⟩⟩
        · rcases bind_eq_error hchildren with hrest | ⟨nodes, _, hnodes⟩
          · exact Or.inr ⟨[], hrest⟩
          · cases hnodes
      · next hbrace =>
        cases h
        exact Or.inl ⟨hcurly, Or.inl ⟨hbrace, rfl⟩⟩
    · split at h
      · rcases bind_eq_error h with hrest | ⟨nodes, _, hnodes⟩
        · exact Or.inr ⟨[], hrest⟩
        · cases hnodes
      · exact Or.inr ⟨_, h⟩

/-- The error is about the first block of a row for which no closing brace is
left before `stop`. -/
def Blames (source : Text) (stop : Nat) (row : List Token)
    (error : ParseError) :
    Prop :=
  ∃ n block, row[n]? = some block ∧ error = ⟨.openBlock, block.position⟩ ∧
    EndsInBraces n (source.take stop) ∧
      ¬ EndsInBraces (n + 1) (source.take stop)

theorem Blames.first {source : Text} {stop : Nat} (hstop : stop ≤ source.length)
    {block : Token} (hbrace : source.slice (stop - 1) stop ≠ ['\x7d'])
    (row : List Token) :
    Blames source stop (block :: row) ⟨.openBlock, block.position⟩ :=
  ⟨0, block, rfl, rfl, endsInBraces_zero _,
    fun hends => hbrace ((endsInBraces_take hstop).mp hends).1⟩

/-- A block takes the brace before its end, and the blocks in it are left with
those before. -/
theorem Blames.cons {source : Text} {stop : Nat} (hstop : stop ≤ source.length)
    {row : List Token} {error : ParseError}
    (hbrace : source.slice (stop - 1) stop = ['\x7d'])
    (h : Blames source (stop - 1) row error) (block : Token) :
    Blames source stop (block :: row) error := by
  obtain ⟨n, inner, hinner, herror, hends, hmore⟩ := h
  exact ⟨n + 1, inner, hinner, herror,
    (endsInBraces_take hstop).mpr ⟨hbrace, hends⟩,
    fun hall => hmore ((endsInBraces_take hstop).mp hall).2⟩

/-- No block is blamed where there is a brace for each. -/
theorem not_blames {source : Text} {stop : Nat} {row : List Token}
    (h : EndsInBraces row.length (source.take stop)) (error : ParseError) :
    ¬ Blames source stop row error := by
  rintro ⟨n, block, hblock, _, _, hmore⟩
  obtain ⟨hlt, _⟩ := List.getElem?_eq_some_iff.mp hblock
  exact hmore (h.mono hlt)

mutual

/-- Reading a curly block stops at a block of its row. -/
theorem blames_of_block_error {source : Text} {before : List Word} {next : Nat}
    (tree : Tree) (hstand : StandAfter source before [tree])
    (hlawful : Tree.Lawful source [tree]) (hnext : next ≤ source.length)
    (hopen : (tree.place (positionAfter before)).OpenAtEnd)
    (hcurly : tree.isCurly = true) {error : ParseError}
    (h : source.slice (next - 1) next ≠ ['\x7d'] ∧
      error = ⟨.openBlock, (tree.place (positionAfter before)).position⟩ ∨
      source.slice (next - 1) next = ['\x7d'] ∧
      (tree.place (positionAfter before)).contentNodes
      (SourceText.ofText source) (next - 1) = .error error) :
    Blames source next (tree.place (positionAfter before)).tailBlocks
      error := by
  cases tree with
  | leaf word => cases hcurly
  | block opener bracket content closer =>
    obtain rfl : bracket = .curly := of_decide_eq_true hcurly
    obtain ⟨_, _, hcontent⟩ := hlawful.block
    rw [Tree.place, Token.OpenAtEnd, positionAfter_opener] at hopen
    rw [Tree.place, Token.tailBlocks, if_pos rfl, positionAfter_opener]
    rcases h with ⟨hbrace, rfl⟩ | ⟨hbrace, herror⟩
    · exact Blames.first hnext hbrace _
    · rw [Tree.place, Token.contentNodes, positionAfter_opener] at herror
      exact Blames.cons hnext hbrace
        (blames_of_nodesOf_error content hstand.content hcontent
          (by omega) hopen herror) _
termination_by structural tree

/-- Reading some trees of a source stops at a block of the row of last
tokens. -/
theorem blames_of_nodesOf_error {source : Text} {before : List Word}
    {stop : Nat} {segment : List Piece} (trees : List Tree)
    (hstand : StandAfter source before trees)
    (hlawful : Tree.Lawful source trees) (hstop : stop ≤ source.length)
    (hopen : Token.AllOpenAtEnd (Tree.placeAll (positionAfter before) trees))
    {error : ParseError}
    (h : nodesOf (SourceText.ofText source) stop segment
      (Tree.placeAll (positionAfter before) trees) = .error error) :
    Blames source stop
      (Token.tailBlocksOf (Tree.placeAll (positionAfter before) trees))
      error := by
  cases trees with
  | nil =>
    rw [Tree.placeAll, nodesOf] at h
    cases h
  | cons tree rest =>
    rw [← List.singleton_append, Tree.lawful_append] at hlawful
    rw [Tree.placeAll, positionAfter_advance] at hopen h ⊢
    obtain ⟨htree, hclosed, hrest⟩ := hopen
    cases rest with
    | nil =>
      rcases nodesOf_error_cases rfl h with
        ⟨hcurly, herror⟩ | ⟨segment', herror⟩
      · rw [Tree.isCurly_place] at hcurly
        exact blames_of_block_error tree hstand.head hlawful.1 hstop htree
          hcurly herror
      · rw [Tree.placeAll, nodesOf] at herror
        cases herror
    | cons second more =>
      have hnext := startOfFirst_placeAll hstand.tail stop
      rw [endOf_cons, Word.textOf_append, List.length_append,
        ← Tree.text] at hnext
      obtain ⟨back, hsource⟩ := hstand.head.exists_text
      have hle : (Word.textOf before).length + tree.text.length ≤
          source.length := by
        rw [hsource, Tree.textOf_cons, Tree.textOf_nil]
        simp only [List.length_append]
        omega
      -- A tree that is not the last one is closed, and so ends in enough
      -- braces.
      rw [Tree.textOf_cons, Tree.textOf_nil, List.append_nil] at hsource
      have hends := endsInBraces_of_isClosed hsource hlawful.1
        (hclosed (List.cons_ne_nil _ _))
      rw [← Token.length_tailBlocks] at hends
      rcases nodesOf_error_cases hnext h with
        ⟨hcurly, herror⟩ | ⟨segment', herror⟩
      · rw [Tree.isCurly_place] at hcurly
        exact absurd (blames_of_block_error tree hstand.head hlawful.1 hle htree
          hcurly herror) (not_blames hends error)
      · rw [Token.tailBlocksOf_cons
          (by rw [Tree.placeAll]; exact List.cons_ne_nil _ _)]
        exact blames_of_nodesOf_error (second :: more) hstand.tail hlawful.2
          hstop hrest herror
termination_by structural trees

end

mutual

theorem cause_of_lexicalError? {token : Token} {error : ParseError}
    (h : token.lexicalError? = some error) : error.cause ≠ .openBlock := by
  cases token with
  | leaf position lexeme =>
    obtain ⟨cause, hcause, rfl⟩ := Option.map_eq_some_iff.mp h
    rintro rfl
    unfold ParseError.Cause.ofKind? at hcause
    split at hcause <;> cases hcause
  | block position opener bracket content closed =>
    exact cause_of_firstLexicalError? h

/-- A faulty lexeme is no open block. -/
theorem cause_of_firstLexicalError? {tokens : List Token} {error : ParseError}
    (h : firstLexicalError? tokens = some error) :
    error.cause ≠ .openBlock := by
  cases tokens with
  | nil => cases h
  | cons token rest =>
    rcases Option.or_eq_some_iff.mp h with htoken | ⟨_, hrest⟩
    · exact cause_of_lexicalError? htoken
    · exact cause_of_firstLexicalError? hrest

end

mutual

theorem cause_of_openComment? {token : Token} {error : ParseError}
    (h : token.openComment? = some error) : error.cause ≠ .openBlock := by
  cases token with
  | leaf position lexeme =>
    rw [Token.openComment?] at h
    split at h
    · cases h
      exact nofun
    · cases h
  | block position opener bracket content closed =>
    exact cause_of_firstOpenComment? h

/-- An open comment is no open block. -/
theorem cause_of_firstOpenComment? {tokens : List Token} {error : ParseError}
    (h : firstOpenComment? tokens = some error) : error.cause ≠ .openBlock := by
  cases tokens with
  | nil => cases h
  | cons token rest =>
    rcases Option.or_eq_some_iff.mp h with htoken | ⟨_, hrest⟩
    · exact cause_of_openComment? htoken
    · exact cause_of_firstOpenComment? hrest

end

/-- A source that is refused for an open block is refused for a block of the row
of its last tokens. -/
theorem blames_of_parse_error {source : Text} {error : ParseError}
    (h : Document.parse source = .error error)
    (hcause : error.cause = .openBlock) :
    Blames source source.length (Token.tailBlocksOf (Token.ofText source))
      error := by
  rw [Document.parse] at h
  split at h
  · next other hother =>
    cases h
    rcases Option.or_eq_some_iff.mp hother with hlexical | ⟨_, hcomment⟩
    · exact absurd hcause (cause_of_firstLexicalError? hlexical)
    · exact absurd hcause (cause_of_firstOpenComment? hcomment)
  · next hfaultless =>
    rcases bind_eq_error h with herror | ⟨nodes, _, hnodes⟩
    · have hopen := Token.allOpenAtEnd_ofText source
      rw [Tree.token_ofText] at hopen herror ⊢
      exact blames_of_nodesOf_error (Tree.ofText source) (.ofText source)
        (Tree.lawful_ofText ((Tree.faultless_ofText source).mp hfaultless))
          (Nat.le_refl _) hopen
        herror
    · cases hnodes

/-! ## The block that is blamed -/

/-- Some blocks stand one after the other, from one offset of the source up to
another. -/
structure Ordered (source : Text) (low high : Nat) (blocks : List Token) :
    Prop where
  inside : ∀ block ∈ blocks, low ≤ (SourceText.ofText source).startOf block ∧
    (SourceText.ofText source).startOf block < high
  ascending : blocks.Pairwise fun a b =>
    (SourceText.ofText source).startOf a < (SourceText.ofText source).startOf b

theorem Ordered.append {source : Text} {low mid high : Nat} {a b : List Token}
    (ha : Ordered source low mid a) (hb : Ordered source mid high b)
    (hlow : low ≤ mid) (hhigh : mid ≤ high) :
    Ordered source low high (a ++ b) := by
  constructor
  · intro block hblock
    rcases List.mem_append.mp hblock with hblock | hblock
    · have hinside := ha.inside block hblock
      omega
    · have hinside := hb.inside block hblock
      omega
  · refine List.pairwise_append.mpr
      ⟨ha.ascending, hb.ascending, fun first hfirst second hsecond => ?_⟩
    have hleft := ha.inside first hfirst
    have hright := hb.inside second hsecond
    omega

theorem Ordered.mono {source : Text} {low low' high high' : Nat}
    {blocks : List Token} (h : Ordered source low high blocks)
    (hlow : low' ≤ low) (hhigh : high ≤ high') :
    Ordered source low' high' blocks := by
  refine ⟨fun block hblock => ?_, h.ascending⟩
  have hinside := h.inside block hblock
  omega

theorem length_textOf_le (a b : List Word) :
    (Word.textOf a).length ≤ (Word.textOf (a ++ b)).length := by
  rw [Word.textOf_append, List.length_append]
  exact Nat.le_add_right _ _

/-- The opening bracket of a block is not empty. -/
theorem StandAfter.length_lt_opener {source : Text} {before : List Word}
    {opener : Word} {bracket : Bracket} {content rest : List Tree}
    {closer : Option Word}
    (h : StandAfter source before
      (.block opener bracket content closer :: rest)) :
    (Word.textOf before).length <
      (Word.textOf (before ++ [opener])).length := by
  obtain ⟨after, hwords⟩ := h
  have hmem : opener ∈ words source := by
    rw [hwords]
    simp
  have hopener : 0 < opener.text.length :=
    List.length_pos_iff.mpr (Word.text_ne_nil hmem)
  rw [Word.textOf_append, List.length_append, Word.textOf_cons, Word.textOf_nil,
    List.append_nil]
  omega

mutual

theorem ordered_curlyBlocks {source : Text} {before : List Word} (tree : Tree)
    (hstand : StandAfter source before [tree]) :
    Ordered source (Word.textOf before).length
      (Word.textOf (before ++ tree.words)).length
      (tree.place (positionAfter before)).curlyBlocks := by
  cases tree with
  | leaf word => exact ⟨nofun, List.Pairwise.nil⟩
  | block opener bracket content closer =>
    have hstart :=
      startOf_place hstand (Tree.block opener bracket content closer)
    have hcontent := ordered_curlyBlocksOf content hstand.content
    have hlow := hstand.length_lt_opener
    have hmid := length_textOf_le (before ++ [opener]) (Tree.wordsOf content)
    have hhigh :
      (Word.textOf (before ++ [opener] ++ Tree.wordsOf content)).length ≤
        (Word.textOf (before ++
          (Tree.block opener bracket content closer).words)).length := by
      have hparts : before ++ (Tree.block opener bracket content closer).words =
          before ++ [opener] ++ Tree.wordsOf content ++ closer.toList := by
        rw [Tree.words_block]
        simp
      rw [hparts]
      exact length_textOf_le _ _
    rw [Tree.place, positionAfter_opener] at hstart ⊢
    rw [Token.curlyBlocks]
    split
    · refine Ordered.append (a := [_]) ⟨fun block hblock => ?_,
        List.pairwise_singleton _ _⟩
        (hcontent.mono (Nat.le_refl _) hhigh) (Nat.le_of_lt hlow)
          (Nat.le_trans hmid hhigh)
      rw [List.mem_singleton.mp hblock, hstart]
      exact ⟨Nat.le_refl _, hlow⟩
    · exact hcontent.mono (Nat.le_of_lt hlow) hhigh

/-- The blocks of some trees stand one after the other. -/
theorem ordered_curlyBlocksOf {source : Text} {before : List Word}
    (trees : List Tree) (hstand : StandAfter source before trees) :
    Ordered source (Word.textOf before).length
      (Word.textOf (before ++ Tree.wordsOf trees)).length
      (Token.curlyBlocksOf (Tree.placeAll (positionAfter before) trees)) := by
  cases trees with
  | nil => exact ⟨nofun, List.Pairwise.nil⟩
  | cons tree rest =>
    have htree := ordered_curlyBlocks tree hstand.head
    have hrest := ordered_curlyBlocksOf rest hstand.tail
    rw [List.append_assoc, ← Tree.wordsOf_cons] at hrest
    rw [Tree.placeAll, positionAfter_advance, Token.curlyBlocksOf]
    refine htree.append hrest (length_textOf_le _ _) ?_
    rw [Tree.wordsOf_cons, ← List.append_assoc]
    exact length_textOf_le _ _

end

/-- Two blocks at one position are one block. -/
theorem Ordered.eq_of_position_eq {source : Text} {low high : Nat}
    {blocks : List Token} (h : Ordered source low high blocks) {a b : Token}
    (ha : a ∈ blocks) (hb : b ∈ blocks) (hsame : a.position = b.position) :
    a = b := by
  have hstart : (SourceText.ofText source).startOf a =
      (SourceText.ofText source).startOf b := by
    rw [SourceText.startOf, SourceText.startOf, hsame]
  have hascending := h.ascending
  clear h
  induction blocks with
  | nil => cases ha
  | cons first rest ih =>
    obtain ⟨hfirst, hrest⟩ := List.pairwise_cons.mp hascending
    rcases List.mem_cons.mp ha with hafirst | ha
    · rcases List.mem_cons.mp hb with hbfirst | hb
      · rw [hafirst, hbfirst]
      · exact absurd hstart (Nat.ne_of_lt (hafirst ▸ hfirst b hb))
    · rcases List.mem_cons.mp hb with hbfirst | hb
      · exact absurd hstart.symm (Nat.ne_of_lt (hbfirst ▸ hfirst a ha))
      · exact ih ha hb hrest

/-- A source that is refused for an open block ends in fewer closing braces than
there are blocks in the row of its last tokens, and the error is about the block
with that index.  This is an open block exactly if the row has more open blocks
than the source has braces at its end. -/
theorem parse_openBlock {source : Text} {error : ParseError}
    (h : Document.parse source = .error error)
    (hcause : error.cause = .openBlock) :
    ∃ block,
      (Token.tailBlocksOf (Token.ofText source))[trailingBraces source]? =
        some block ∧
      error.position = block.position ∧
      ((∃ culprit ∈ Token.curlyBlocksOf (Token.ofText source),
          culprit.isOpen = true ∧ culprit.position = error.position) ↔
        trailingBraces source <
          (Token.tailBlocksOf (Token.ofText source)).countP Token.isOpen) := by
  obtain ⟨n, block, hblock, rfl, hends, hmore⟩ := blames_of_parse_error h hcause
  rw [List.take_length, endsInBraces_iff] at hends hmore
  have hn : n = trailingBraces source := by omega
  subst hn
  have hmem : block ∈ Token.curlyBlocksOf (Token.ofText source) :=
    Token.tailBlocksOf_subset _ (List.mem_of_getElem? hblock)
  have hordered := ordered_curlyBlocksOf (Tree.ofText source) (.ofText source)
  rw [positionAfter_nil, ← Tree.token_ofText] at hordered
  refine ⟨block, hblock, rfl, ?_⟩
  rw [← Token.isOpen_getElem_iff
    (Token.pairwise_tailBlocksOf (Token.allClosedInside_ofText source)) hblock]
  constructor
  · rintro ⟨culprit, hculprit, hopen, hsame⟩
    rwa [hordered.eq_of_position_eq hculprit hmem hsame] at hopen
  · intro hopen
    exact ⟨block, hmem, hopen, rfl⟩

/-- A closed block in an open one. -/
def openNest : Text := "a\x7bb\x7b\x7d".toList

theorem parse_openNest :
    Document.parse openNest = .error ⟨.openBlock, ⟨1, 4⟩⟩ := by
  have hrefused : (match Document.parse openNest with
      | .error error => some error
      | .ok _ => none) = some ⟨.openBlock, ⟨1, 4⟩⟩ := by
    decide +kernel
  cases hparse : Document.parse openNest with
  | error error =>
    rw [hparse] at hrefused
    rw [Option.some.inj hrefused]
  | ok document =>
    rw [hparse] at hrefused
    cases hrefused

/-- The row of the nest has two blocks, and one brace is left for them. -/
theorem parse_openBlock_nested :
    Document.parse openNest = .error ⟨.openBlock, ⟨1, 4⟩⟩ ∧
    ∃ block,
      (Token.tailBlocksOf (Token.ofText openNest))[trailingBraces openNest]? =
        some block ∧
      (⟨.openBlock, ⟨1, 4⟩⟩ : ParseError).position = block.position ∧
      ((∃ culprit ∈ Token.curlyBlocksOf (Token.ofText openNest),
          culprit.isOpen = true ∧
            culprit.position = (⟨.openBlock, ⟨1, 4⟩⟩ : ParseError).position) ↔
        trailingBraces openNest <
          (Token.tailBlocksOf (Token.ofText openNest)).countP Token.isOpen) :=
  ⟨parse_openNest, parse_openBlock parse_openNest rfl⟩

/-- The block of the nest that is blamed has its closing brace; the open one
stands before it. -/
theorem parse_blames_closed_block :
    Document.parse openNest = .error ⟨.openBlock, ⟨1, 4⟩⟩ ∧
    ¬ ∃ culprit ∈ Token.curlyBlocksOf (Token.ofText openNest),
      culprit.isOpen = true ∧ culprit.position = ⟨1, 4⟩ :=
  ⟨parse_openNest, by decide +kernel⟩

end OklchGate.Css
