import OklchGate.Proofs.Css.Spans

/-!
# Which style sheets are read

A well-formed style sheet is always read.  So are some that leave a block open:
the reader takes a block for closed when the character before its end is a
closing brace, and that character may be an escaped brace or the end of an inner
block.

There are four groups.

* `WellFormed`, which says of tokens what a reader should ask for, and
  `BorrowsBraces`, which names the other sources that are read.
* `Token.OpenAtEnd`: only the last token of a list is ever open.
* `readParts_isSome_iff`: the nodes of a list are built exactly when enough
  braces stand before its end, one for each block in a row of last tokens.
* `exists_parse_iff`, which puts this together, and
  `exists_parse_iff_wellFormed_iff`.
-/

namespace OklchGate.Css

/-! ## Well-formed tokens -/

namespace Token

mutual

/-- Every block of a token has its closing bracket. -/
def isClosed : Token → Bool
  | leaf .. => true
  | block _ _ _ content closed => closed && allClosed content
termination_by structural token => token

/-- Every block of some tokens has its closing bracket. -/
def allClosed : List Token → Bool
  | [] => true
  | token :: rest => token.isClosed && allClosed rest
termination_by structural tokens => tokens

end

mutual

/-- The lexemes of a token that are no brackets of a block. -/
def leaves : Token → List Lexeme
  | leaf _ lexeme => [lexeme]
  | block _ _ _ content _ => leavesOf content
termination_by structural token => token

/-- The lexemes of some tokens that are no brackets of a block. -/
def leavesOf : List Token → List Lexeme
  | [] => []
  | token :: rest => token.leaves ++ leavesOf rest
termination_by structural tokens => tokens

end

mutual

/-- The number of curly blocks, one the last token of the other, that a token
starts. -/
def tailDepth : Token → Nat
  | leaf .. => 0
  | block _ _ bracket content _ =>
    if bracket = .curly then tailDepthOf content + 1 else 0
termination_by structural token => token

/-- The number of curly blocks, one the last token of the other, at the end of
some tokens. -/
def tailDepthOf : List Token → Nat
  | [] => 0
  | token :: rest => if rest.isEmpty then token.tailDepth else tailDepthOf rest
termination_by structural tokens => tokens

end

end Token

/-- No lexeme is broken or unmatched, and no comment is open. -/
def Faultless (tokens : List Token) : Prop :=
  ∀ lexeme ∈ Token.leavesOf tokens,
    ParseError.Cause.ofKind? lexeme.kind = none ∧ lexeme.kind ≠ .comment false

/-- The tokens are faultless, and every block has its own closing bracket. -/
def WellFormed (tokens : List Token) : Prop :=
  Faultless tokens ∧ Token.allClosed tokens = true

/-- A block of a faultless source is open, and yet the source ends in a closing
brace for each curly block in the row of last tokens. -/
def BorrowsBraces (source : Text) : Prop :=
  Faultless (Token.ofText source) ∧
    Token.allClosed (Token.ofText source) = false ∧
    List.replicate (Token.tailDepthOf (Token.ofText source)) '\x7d' <:+ source

/-! ## Open blocks -/

namespace Token

mutual

/-- Only the last token is open in each list of tokens inside a token. -/
def OpenAtEnd : Token → Prop
  | leaf .. => True
  | block _ _ _ content _ => AllOpenAtEnd content
termination_by structural token => token

/-- Only the last of some tokens is open, and so in every block of them. -/
def AllOpenAtEnd : List Token → Prop
  | [] => True
  | token :: rest =>
    token.OpenAtEnd ∧ (rest ≠ [] → token.isClosed = true) ∧ AllOpenAtEnd rest
termination_by structural tokens => tokens

end

theorem allClosed_cons {token : Token} {rest : List Token} :
    allClosed (token :: rest) = true ↔ token.isClosed = true ∧ allClosed rest =
      true := by
  rw [allClosed, Bool.and_eq_true]

theorem allClosed_append {a b : List Token} :
    allClosed (a ++ b) = true ↔ allClosed a = true ∧ allClosed b = true := by
  induction a with
  | nil => simp [allClosed]
  | cons token rest ih =>
    rw [List.cons_append, allClosed_cons, allClosed_cons, ih, and_assoc]

theorem allClosed_reverse {tokens : List Token} :
    allClosed tokens.reverse = true ↔ allClosed tokens = true := by
  induction tokens with
  | nil => rfl
  | cons token rest ih =>
    rw [List.reverse_cons, allClosed_append, ih, allClosed_cons, allClosed_cons,
      and_comm]
    simp [allClosed]

mutual

theorem openAtEnd_of_isClosed {token : Token} (h : token.isClosed = true) :
    token.OpenAtEnd := by
  cases token with
  | leaf => trivial
  | block position opener bracket content closed =>
    rw [isClosed, Bool.and_eq_true] at h
    exact allOpenAtEnd_of_allClosed h.2

theorem allOpenAtEnd_of_allClosed {tokens : List Token}
    (h : allClosed tokens = true) :
    AllOpenAtEnd tokens := by
  cases tokens with
  | nil => trivial
  | cons token rest =>
    rw [allClosed_cons] at h
    exact ⟨openAtEnd_of_isClosed h.1, fun _ => h.1,
      allOpenAtEnd_of_allClosed h.2⟩

end

theorem allOpenAtEnd_concat {tokens : List Token} {last : Token}
    (h : allClosed tokens = true) (hlast : last.OpenAtEnd) :
    AllOpenAtEnd (tokens ++ [last]) := by
  induction tokens with
  | nil => exact ⟨hlast, fun hne => absurd rfl hne, trivial⟩
  | cons token rest ih =>
    rw [allClosed_cons] at h
    exact ⟨openAtEnd_of_isClosed h.1, fun _ => h.1, ih h.2⟩

/-- Blocks that are open at the end of the text lie in each other, each the last
token of the next. -/
theorem allOpenAtEnd_foldl {stack : List Frame} {done : List Token}
    (hstack : ∀ frame ∈ stack, allClosed frame.before = true)
    (hdone : AllOpenAtEnd done.reverse) :
    AllOpenAtEnd
      (stack.foldl (fun tokens frame => frame.close tokens false)
        done).reverse := by
  induction stack generalizing done with
  | nil => exact hdone
  | cons frame outer ih =>
    rw [List.forall_mem_cons] at hstack
    refine ih hstack.2 ?_
    show AllOpenAtEnd (frame.close done false).reverse
    rw [Frame.close, List.reverse_cons]
    exact allOpenAtEnd_concat (allClosed_reverse.mpr hstack.1) hdone

/-- Nesting leaves only last tokens open. -/
theorem allOpenAtEnd_nest (position : Position) {stack : List Frame}
    {done : List Token} (lexemes : List Lexeme)
    (hstack : ∀ frame ∈ stack, allClosed frame.before = true)
    (hdone : allClosed done = true) :
    AllOpenAtEnd (nest position stack done lexemes) := by
  induction lexemes generalizing position stack done with
  | nil =>
    exact allOpenAtEnd_foldl hstack
      (allOpenAtEnd_of_allClosed (allClosed_reverse.mpr hdone))
  | cons lexeme rest ih =>
    have hleaf : allClosed (leaf position lexeme :: done) = true :=
      allClosed_cons.mpr ⟨rfl, hdone⟩
    rw [nest.eq_def]
    dsimp only
    split
    · exact ih _ (List.forall_mem_cons.mpr ⟨hdone, hstack⟩) rfl
    · rename_i frame outer _
      split
      · rw [List.forall_mem_cons] at hstack
        refine ih _ hstack.2 (allClosed_cons.mpr ⟨?_, hstack.1⟩)
        rw [isClosed, Bool.true_and, allClosed_reverse]
        exact hdone
      · exact ih _ hstack hleaf
    · exact ih _ hstack hleaf

/-- Only the last tokens of a source are open. -/
theorem allOpenAtEnd_ofText (source : Text) : AllOpenAtEnd (ofText source) :=
  allOpenAtEnd_nest {} _ nofun rfl

/-- Where only last tokens are open, all are closed if the last one is. -/
theorem allClosed_of_last {tokens : List Token} (h : AllOpenAtEnd tokens)
    (hlast : ∀ token ∈ tokens.getLast?, token.isClosed = true) :
    allClosed tokens = true := by
  induction tokens with
  | nil => rfl
  | cons token rest ih =>
    obtain ⟨_, hclosed, hrest⟩ := h
    cases rest with
    | nil => exact allClosed_cons.mpr ⟨hlast token rfl, rfl⟩
    | cons second more =>
      rw [List.getLast?_cons_cons] at hlast
      exact allClosed_cons.mpr ⟨hclosed (List.cons_ne_nil _ _), ih hrest hlast⟩

end Token

/-! ## Braces at the end of a list -/

/-- A text ends in so many closing braces. -/
def EndsInBraces (count : Nat) (text : Text) : Prop :=
  List.replicate count '\x7d' <:+ text

theorem endsInBraces_zero (text : Text) : EndsInBraces 0 text := List.nil_suffix

theorem EndsInBraces.append_left {count : Nat} {text : Text} (before : Text)
    (h : EndsInBraces count text) : EndsInBraces count (before ++ text) :=
  List.IsSuffix.trans h (List.suffix_append before text)

/-- One more closing brace is one more character at the end. -/
theorem endsInBraces_concat {count : Nat} {text : Text} {c : Char} :
    EndsInBraces (count + 1) (text ++ [c]) ↔
      c = '\x7d' ∧ EndsInBraces count text := by
  rw [EndsInBraces, EndsInBraces, List.replicate_succ', ← List.reverse_prefix,
    ← List.reverse_prefix, List.reverse_append, List.reverse_append,
    List.reverse_singleton, List.reverse_singleton, List.singleton_append,
    List.singleton_append, List.cons_prefix_cons]
  constructor
  · rintro ⟨rfl, h⟩
    exact ⟨rfl, h⟩
  · rintro ⟨rfl, h⟩
    exact ⟨rfl, h⟩

theorem endsInBraces_take {count stop : Nat} {source : Text}
    (hstop : stop ≤ source.length) :
    EndsInBraces (count + 1) (source.take stop) ↔
      source.slice (stop - 1) stop = ['\x7d'] ∧
        EndsInBraces count (source.take (stop - 1)) := by
  cases stop with
  | zero => simp [EndsInBraces, Text.slice]
  | succ last =>
    rw [List.take_succ_eq_append_getElem (by omega), endsInBraces_concat,
      Nat.add_sub_cancel,
      Text.slice_one (by omega)]
    simp

/-- The text of closed trees ends in a closing brace for each curly block in the
row of last trees. -/
theorem endsInBraces_of_allClosed {source : Text} (position : Position)
    (trees : List Tree) (hlawful : Tree.Lawful source trees)
    (hclosed : Token.allClosed (Tree.placeAll position trees) = true) :
    EndsInBraces (Token.tailDepthOf (Tree.placeAll position trees))
      (Tree.textOf trees) := by
  cases trees with
  | nil => exact endsInBraces_zero _
  | cons tree rest =>
    rw [Tree.placeAll, Token.allClosed_cons] at hclosed
    rw [← List.singleton_append, Tree.lawful_append] at hlawful
    cases rest with
    | cons second more =>
      rw [Tree.textOf_cons]
      exact (endsInBraces_of_allClosed _ (second :: more) hlawful.2
        hclosed.2).append_left _
    | nil =>
      cases tree with
      | leaf word => exact endsInBraces_zero _
      | block opener bracket content closer =>
        cases bracket with
        | square | round => exact endsInBraces_zero _
        | curly =>
          obtain ⟨_, hcloser, hcontent⟩ := hlawful.1.block
          rw [Tree.place, Token.isClosed, Bool.and_eq_true] at hclosed
          obtain ⟨word, rfl⟩ := Option.isSome_iff_exists.mp hclosed.1.1
          have hinner :=
            endsInBraces_of_allClosed _ content hcontent hclosed.1.2
          have htext : Tree.textOf [.block opener .curly content (some word)] =
              (opener.text ++ Tree.textOf content) ++ ['\x7d'] := by
            simp [Tree.textOf, hcloser word rfl]
          rw [htext]
          exact endsInBraces_concat.mpr ⟨rfl, hinner.append_left _⟩

/-! ## Lists that are read -/

namespace Token

theorem tailDepthOf_cons_of_zero {token : Token} (h : token.tailDepth = 0)
    (rest : List Token) : tailDepthOf (token :: rest) = tailDepthOf rest := by
  cases rest with
  | nil => exact h
  | cons => rfl

end Token

theorem Tree.tailDepth_of_not_isCurly {tree : Tree} (h : tree.isCurly = false)
    (position : Position) : (tree.place position).tailDepth = 0 := by
  cases tree with
  | leaf word => rfl
  | block opener bracket content closer =>
    cases bracket with
    | curly => exact absurd h nofun
    | square | round => rfl

/-- A list with a curly block in it has nodes exactly when the block ends in a
closing brace and both its content and what stands after it have nodes. -/
theorem readParts_group_curly_isSome (source : Text)
    {start stop here next : Nat} {segment rest : List Tree} {opener : Word}
    {content : List Tree} {closer : Option Word}
    (hhere : start + (Tree.textOf segment.reverse).length = here)
    (hnext : here + (Tree.block opener .curly content closer).text.length =
      next) :
    (readParts source start stop
        (group segment (.block opener .curly content closer :: rest))).isSome =
          true ↔
      (source.slice (endOf stop next rest - 1) (endOf stop next rest) =
        ['\x7d'] ∧
        (readParts source (here + opener.text.length) (endOf stop next rest - 1)
          (group [] content)).isSome = true) ∧
        (readParts source next stop (group [] rest)).isSome = true := by
  rw [readParts_group_curly source rfl hhere hnext]
  by_cases hclose :
    source.slice (endOf stop next rest - 1) (endOf stop next rest) = ['\x7d']
  · rw [if_pos hclose]
    cases readParts source (here + opener.text.length)
      (endOf stop next rest - 1) (group [] content) <;> simp [hclose]
  · rw [if_neg hclose]
    simp [hclose]

theorem Tree.isCurly_of_isGap {tree : Tree} (h : tree.isGap = true) :
    tree.isCurly = false := by
  cases tree with
  | leaf word => rfl
  | block => exact absurd h nofun

theorem Tree.isCurly_of_isDelimiter {tree : Tree} {c : Char}
    (h : tree.isDelimiter c = true) :
    tree.isCurly = false := by
  cases tree with
  | leaf word => rfl
  | block => exact absurd h nofun

/-- A closed tree of a source ends in a closing brace for each curly block in
its row of last trees. -/
theorem endsInBraces_of_isClosed {source front back : Text}
    {position : Position} {tree : Tree}
    (hsource : source = front ++ tree.text ++ back)
    (hlawful : Tree.Lawful source [tree])
    (hclosed : (tree.place position).isClosed = true) :
    EndsInBraces (tree.place position).tailDepth
      (source.take (front.length + tree.text.length)) := by
  have hends := endsInBraces_of_allClosed position [tree] hlawful
    (Token.allClosed_cons.mpr ⟨hclosed, rfl⟩)
  rw [Tree.textOf_cons, Tree.textOf_nil, List.append_nil] at hends
  have htake : source.take (front.length + tree.text.length) =
      front ++ tree.text := by
    rw [hsource, ← List.length_append, List.take_left]
  rw [htake]
  exact hends.append_left front

/-- A list in which only the last trees are open has nodes exactly when enough
closing braces stand before its end. -/
theorem readParts_isSome_iff {source : Text} (front back : Text)
    {position : Position} (stop : Nat) (segment trees : List Tree)
    (hsource : source =
      front ++ (Tree.textOf segment.reverse ++ Tree.textOf trees) ++ back)
    (hlawful : Tree.Lawful source trees) (hstop : stop ≤ source.length)
    (hopen : Token.AllOpenAtEnd (Tree.placeAll position trees)) :
    (readParts source front.length stop (group segment trees)).isSome = true ↔
      EndsInBraces (Token.tailDepthOf (Tree.placeAll position trees))
        (source.take stop) := by
  cases trees with
  | nil =>
    rw [group, readParts_ofUnfinished]
    exact ⟨fun _ => endsInBraces_zero _, fun _ => rfl⟩
  | cons tree rest =>
    rw [← List.singleton_append, Tree.lawful_append] at hlawful
    rw [Tree.placeAll] at hopen ⊢
    obtain ⟨htree, hclosed, hrest⟩ := hopen
    obtain ⟨here, hhere⟩ :
        ∃ here, here = front ++ Tree.textOf segment.reverse := ⟨_, rfl⟩
    have hhereLength : front.length + (Tree.textOf segment.reverse).length =
        here.length := by
      rw [hhere, List.length_append]
    have htreeSource :
        source = here ++ tree.text ++ (Tree.textOf rest ++ back) := by
      simp [hsource, hhere]
    have ih := readParts_isSome_iff (here ++ tree.text) back stop [] rest
      (by simp [htreeSource])
      hlawful.2 hstop hrest
    rw [List.length_append] at ih
    rcases group_cases segment tree with
      ⟨rfl, hgap⟩ | ⟨opener, content, closer, rfl⟩ | hsemicolon | ⟨hgap, hcurly,
        hsemicolon⟩
    · have hdepth :=
        Tree.tailDepth_of_not_isCurly (Tree.isCurly_of_isGap hgap) position
      obtain rfl : here = front := by simpa using hhere
      rw [readParts_group_gap source hgap rfl, Option.isSome_map,
        Token.tailDepthOf_cons_of_zero hdepth, ih]
    · obtain ⟨_, _, hcontent⟩ := hlawful.1.block
      have htext : (Tree.block opener .curly content closer).text =
          opener.text ++
            (Tree.textOf content ++ Word.textOf closer.toList) := by
        simp [Tree.text, Tree.textOf]
      -- The block itself, wherever its end is taken to be.
      have hblock : ∀ next ≤ source.length,
          (source.slice (next - 1) next = ['\x7d'] ∧
              (readParts source (here.length + opener.text.length) (next - 1)
                (group [] content)).isSome = true) ↔
            EndsInBraces ((Tree.block opener .curly content closer).place
              position).tailDepth (source.take next) := by
        intro next hnext
        have ih := readParts_isSome_iff (here ++ opener.text)
          (Word.textOf closer.toList ++ Tree.textOf rest ++ back) (next - 1)
            [] content
          (by simp [htreeSource, htext]) hcontent (by omega) htree
        rw [List.length_append] at ih
        rw [ih]
        exact (endsInBraces_take hnext).symm
      rw [readParts_group_curly_isSome source hhereLength rfl, ih]
      cases rest with
      | nil =>
        rw [endOf_nil, hblock stop hstop]
        exact and_iff_left (endsInBraces_zero _)
      | cons second more =>
        have hle : here.length +
          (Tree.block opener .curly content closer).text.length ≤
            source.length := by
          rw [htreeSource, List.length_append, List.length_append]
          omega
        rw [endOf_cons, hblock _ hle]
        exact and_iff_right (endsInBraces_of_isClosed htreeSource hlawful.1
          (hclosed (List.cons_ne_nil _ _)))
    · have hdepth :=
        Tree.tailDepth_of_not_isCurly (Tree.isCurly_of_isDelimiter hsemicolon)
        position
      have hnext : front.length +
        (Tree.textOf (tree :: segment).reverse).length =
          here.length + tree.text.length := by
        rw [← hhereLength, List.reverse_cons, Tree.textOf_append,
          List.length_append]
        simp [Nat.add_assoc]
      rw [readParts_group_semicolon source hsemicolon hnext, Option.isSome_map,
        Token.tailDepthOf_cons_of_zero hdepth, ih]
    · have hdepth := Tree.tailDepth_of_not_isCurly hcurly position
      have ih := readParts_isSome_iff front back stop (tree :: segment) rest
        (by simp [hsource])
        hlawful.2 hstop hrest
      rw [group_other hgap hcurly hsemicolon,
        Token.tailDepthOf_cons_of_zero hdepth, ih]

/-! ## Sources that are read -/

namespace Tree

mutual

theorem leaves_place (position : Position) (tree : Tree) :
    (tree.place position).leaves = tree.leaves.map Word.lexeme := by
  cases tree with
  | leaf word => rfl
  | block opener bracket content closer => exact leavesOf_placeAll _ content

theorem leavesOf_placeAll (position : Position) (trees : List Tree) :
    Token.leavesOf (placeAll position trees) =
      (leavesOf trees).map Word.lexeme := by
  cases trees with
  | nil => rfl
  | cons tree rest =>
    rw [placeAll, Token.leavesOf, leaves_place position tree,
      leavesOf_placeAll _ rest, leavesOf_cons, List.map_append]

end

end Tree

theorem faultless_tokens_iff (source : Text) :
    Faultless (Token.ofText source) ↔ Tree.Faultless (Tree.ofText source) := by
  rw [Faultless, Tree.token_ofText, Tree.leavesOf_placeAll, List.forall_mem_map]
  rfl

/-- A source is read exactly when it is faultless and ends in a closing brace
for each curly block in the row of last tokens. -/
theorem exists_parse_iff_endsInBraces (source : Text) :
    (∃ document, Document.parse source = .ok document) ↔
      Faultless (Token.ofText source) ∧
        EndsInBraces (Token.tailDepthOf (Token.ofText source)) source := by
  rw [faultless_tokens_iff]
  by_cases hfaultless : Tree.Faultless (Tree.ofText source)
  · have htext : Tree.textOf (Tree.ofText source) = source := by
      rw [Tree.textOf, Tree.wordsOf_ofText, textOf_words]
    have hopen := Token.allOpenAtEnd_ofText source
    rw [Tree.token_ofText] at hopen ⊢
    have hread := readParts_isSome_iff [] [] source.length []
      (Tree.ofText source) (by simp [htext])
      (Tree.lawful_ofText hfaultless) (Nat.le_refl _) hopen
    rw [List.take_length, List.length_nil] at hread
    rw [← hread, Option.isSome_iff_exists]
    simp only [parse_eq_ok_iff, hfaultless, true_and]
    constructor
    · rintro ⟨_, nodes, hnodes, rfl⟩
      exact ⟨nodes, hnodes⟩
    · rintro ⟨nodes, hnodes⟩
      exact ⟨_, nodes, hnodes, rfl⟩
  · simp [parse_eq_ok_iff, hfaultless]

/-- What is read is well-formed or borrows closing braces, and both are read. -/
theorem exists_parse_iff (source : Text) :
    (∃ document, Document.parse source = .ok document) ↔
      WellFormed (Token.ofText source) ∨ BorrowsBraces source := by
  rw [exists_parse_iff_endsInBraces, WellFormed, BorrowsBraces, ← and_or_left]
  refine and_congr_right fun hfaultless => ?_
  cases hclosed : Token.allClosed (Token.ofText source) with
  | false => simp [EndsInBraces]
  | true =>
    have htext : Tree.textOf (Tree.ofText source) = source := by
      rw [Tree.textOf, Tree.wordsOf_ofText, textOf_words]
    rw [Tree.token_ofText] at hclosed ⊢
    have hends := endsInBraces_of_allClosed _ (Tree.ofText source)
      (Tree.lawful_ofText ((faultless_tokens_iff source).mp hfaultless)) hclosed
    rw [htext] at hends
    simp [hends]

/-- The reader takes exactly the well-formed sources, unless the source borrows
closing braces. -/
theorem exists_parse_iff_wellFormed_iff (source : Text) :
    ((∃ document, Document.parse source = .ok document) ↔
        WellFormed (Token.ofText source)) ↔
      ¬ BorrowsBraces source := by
  rw [exists_parse_iff]
  constructor
  · intro h hborrows
    have hclosed := (h.mp (Or.inr hborrows)).2
    rw [hborrows.2.1] at hclosed
    exact absurd hclosed nofun
  · intro h
    exact or_iff_left h

/-- An escaped brace closes a block for the reader. -/
theorem exists_parse_and_not_wellFormed :
    ¬ ((∃ document, Document.parse "a\x7b\\\x7d".toList = .ok document) ↔
      WellFormed (Token.ofText "a\x7b\\\x7d".toList)) := by
  intro h
  have hok : (Document.parse "a\x7b\\\x7d".toList).isOk = true := by
    decide +kernel
  have hclosed : Token.allClosed (Token.ofText "a\x7b\\\x7d".toList) =
      false := by
    decide +kernel
  have hwellFormed := (h.mp (exists_of_isOk hok)).2
  rw [hclosed] at hwellFormed
  exact Bool.false_ne_true hwellFormed

end OklchGate.Css
