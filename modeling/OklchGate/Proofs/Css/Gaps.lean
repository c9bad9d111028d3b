import OklchGate.Proofs.Css.Copying

/-!
# What stands between the nodes of a style sheet

The children of a container stand one after the other in its content, and
between them there is white space only.  After the last child there may also be
comments.

There are four groups.

* `Remark` and `Filler`: comments, and texts of white space and comments.
  `Tree.white_or_remark` says that gaps are such.
* `Part.Spaced`: only white space stands before a node, and comments stand only
  after an unfinished segment.  Grouping gives such parts.
* `Laid`, which says where the children of a container stand, and `Node.Filled`.
* `laid_of_readParts`, by induction on the parts, and `arranged_of_parse`, which
  says it of a style sheet.
-/

namespace OklchGate.Css

/-! ## White space and comments -/

/-- The text is a comment: it ends where the mark of the end comes for the first
time. -/
def Remark (text : Text) : Prop :=
  ∃ body, text = '/' :: '*' :: (body ++ ['*', '/']) ∧
    ¬ ['*', '/'] <:+: body ++ ['*']

/-- The text consists of white space and comments. -/
def Filler (text : Text) : Prop :=
  ∃ pieces : List Text, text = pieces.flatten ∧ ∀ piece ∈ pieces, White piece ∨
    Remark piece

theorem White.filler {text : Text} (h : White text) : Filler text := by
  refine ⟨[text], by simp, ?_⟩
  rw [List.forall_mem_singleton]
  exact Or.inl h

theorem Filler.append {a b : Text} (ha : Filler a) (hb : Filler b) :
    Filler (a ++ b) := by
  obtain ⟨first, rfl, hfirst⟩ := ha
  obtain ⟨second, rfl, hsecond⟩ := hb
  exact ⟨first ++ second, by simp, List.forall_mem_append.mpr ⟨hfirst, hsecond⟩⟩

/-- Neither white space nor a comment ends in a closing brace. -/
theorem White.getLast?_ne {text : Text} (h : White text) :
    text.getLast? ≠ some '\x7d' := by
  intro hlast
  have hmem := h _ (List.mem_of_getLast? hlast)
  exact absurd hmem (by decide)

theorem Remark.getLast?_ne {text : Text} (h : Remark text) :
    text.getLast? ≠ some '\x7d' := by
  obtain ⟨body, rfl, _⟩ := h
  have hsplit : '/' :: '*' :: (body ++ ['*', '/']) =
      ('/' :: '*' :: (body ++ ['*'])) ++ ['/'] := by
    simp
  rw [hsplit, List.getLast?_concat]
  decide

/-! ## The source text of gaps -/

/-- A stroke that gives white space is white space. -/
theorem white_of_stroke {source stroke : Text} (h : stroke ∈ strokes source)
    (hspace : isSpace (strokeChar stroke) = true) : White stroke := by
  rcases stroke_cases h with rfl | ⟨c, rfl⟩
  · intro c hc
    rcases List.mem_cons.mp hc with rfl | hc
    · decide
    · rw [List.mem_singleton.mp hc]
      decide
  · rintro _ hc
    rw [List.mem_singleton.mp hc]
    rw [strokeChar] at hspace
    split at hspace
    · next hbreak => rcases hbreak with rfl | rfl <;> decide
    · split at hspace
      · exact absurd hspace (by decide)
      · simp only [isSpace, Bool.or_eq_true, decide_eq_true_eq] at hspace
        rcases hspace with (rfl | rfl) | rfl <;> decide

/-- A mark in some strokes is a mark in the characters that they give. -/
theorem infix_map_strokeChar {source : Text} {own : List Text}
    (hmem : ∀ stroke ∈ own, stroke ∈ strokes source)
    (h : ['*', '/'] <:+: own.flatten) :
    ['*', '/'] <:+: own.map strokeChar := by
  induction own with
  | nil => exact absurd (List.infix_nil.mp h) nofun
  | cons stroke rest ih =>
    rw [List.forall_mem_cons] at hmem
    rw [List.map_cons, List.infix_cons_iff]
    rw [List.flatten_cons] at h
    rcases stroke_cases hmem.1 with rfl | ⟨c, rfl⟩
    · right
      apply ih hmem.2
      simpa [List.infix_cons_iff, List.cons_prefix_cons] using h
    · rw [List.singleton_append, List.infix_cons_iff,
        List.cons_prefix_cons] at h
      rcases h with ⟨rfl, hnext⟩ | h
      · left
        rw [List.cons_prefix_cons]
        refine ⟨rfl, ?_⟩
        cases rest with
        | nil => exact absurd (List.prefix_nil.mp hnext) nofun
        | cons second more =>
          rw [List.forall_mem_cons] at hmem
          rcases stroke_cases hmem.2.1 with rfl | ⟨d, rfl⟩
          · simp [List.cons_prefix_cons] at hnext
          · rw [List.flatten_cons, List.singleton_append,
              List.cons_prefix_cons] at hnext
            rw [List.map_cons, List.cons_prefix_cons, ← hnext.1]
            exact ⟨rfl, List.nil_prefix⟩
      · exact Or.inr (ih hmem.2 h)

/-- The mark that is found is the first one. -/
theorem not_infix_of_find? {text : Text} {n : Nat}
    (h : Text.find? ['*', '/'] text = some n) :
    ¬ ['*', '/'] <:+: text.take (n + 1) := by
  induction text generalizing n with
  | nil => cases h
  | cons c rest ih =>
    rw [Text.find?] at h
    split at h
    · cases h
      intro hinfix
      have hle := hinfix.length_le
      simp at hle
    · next hmark =>
      obtain ⟨m, hm, rfl⟩ := Option.map_eq_some_iff.mp h
      rw [List.take_succ_cons, List.infix_cons_iff]
      rintro (hbegins | hinfix)
      · refine hmark (List.isPrefixOf_iff_prefix.mpr (hbegins.trans ?_))
        rw [List.cons_prefix_cons]
        exact ⟨rfl, List.take_prefix _ _⟩
      · exact ih hm hinfix

/-- What is found is at its place. -/
theorem drop_of_find? {text : Text} {n : Nat}
    (h : Text.find? ['*', '/'] text = some n) :
    ∃ rest, text.drop n = '*' :: '/' :: rest := by
  induction text generalizing n with
  | nil => cases h
  | cons c rest ih =>
    rw [Text.find?] at h
    split at h
    · next hmark =>
      cases h
      obtain ⟨more, hmore⟩ := List.isPrefixOf_iff_prefix.mp hmark
      exact ⟨more, hmore.symm⟩
    · obtain ⟨m, hm, rfl⟩ := Option.map_eq_some_iff.mp h
      rw [List.drop_succ_cons]
      exact ih hm

/-- A white-space word is white space in the source. -/
theorem Word.white_of_kind {source : Text} {word : Word}
    (h : word ∈ words source) (hkind : word.lexeme.kind = .space) :
    White word.text := by
  have hspace := isSpace_of_kind (lexeme_mem_of_mem_words h) hkind
  obtain ⟨own, hmem, hplain, htext⟩ := Word.exists_strokes_of_mem h
  rw [← htext]
  intro c hc
  obtain ⟨stroke, hstroke, hc⟩ := List.mem_flatten.mp hc
  refine white_of_stroke (hmem stroke hstroke) (hspace _ ?_) c hc
  rw [← hplain]
  exact List.mem_map_of_mem hstroke

/-- A closed comment is a comment in the source. -/
theorem Word.remark_of_kind {source : Text} {word : Word}
    (h : word ∈ words source) (hkind : word.lexeme.kind = .comment true) :
    Remark word.text := by
  obtain ⟨body, n, hfind, hlexeme⟩ :=
    Lexeme.text_of_comment (lexeme_mem_of_mem_words h) hkind
  obtain ⟨own, hmem, hplain, htext⟩ := Word.exists_strokes_of_mem h
  have hkept : ∀ {stroke : Text} {c : Char}, stroke ∈ own →
    strokeChar stroke = c → c ∈ ['/', '*'] → stroke = [c] := by
    intro stroke c hstroke hc hmark
    refine stroke_eq_of_strokeChar (hmem stroke hstroke) hc ?_ ?_ <;>
      rintro rfl <;>
      exact absurd hmark (by decide)
  obtain ⟨rest, hrest⟩ := drop_of_find? hfind
  rw [hlexeme, List.take_add, hrest] at hplain
  obtain ⟨slash, own, rfl, hslash, hplain⟩ := List.map_eq_cons_iff.mp hplain
  obtain ⟨star, own, rfl, hstar, hplain⟩ := List.map_eq_cons_iff.mp hplain
  obtain ⟨inside, ending, rfl, hinside, hending⟩ :=
    List.map_eq_append_iff.mp hplain
  obtain ⟨star', ending, rfl, hstar', hending⟩ :=
    List.map_eq_cons_iff.mp hending
  obtain ⟨slash', hslashes, hslash'⟩ := List.map_eq_singleton_iff.mp hending
  subst hslashes
  rw [hkept (by simp) hslash (by decide), hkept (by simp) hstar (by decide),
    hkept (by simp) hstar' (by decide), hkept (by simp) hslash' (by decide)]
      at htext
  refine ⟨inside.flatten, by rw [← htext]; simp, ?_⟩
  intro hinfix
  have hstrokes : ∀ stroke ∈ inside ++ [['*']], stroke ∈ strokes source := by
    intro stroke hstroke
    refine hmem stroke ?_
    rw [List.mem_append, List.mem_singleton] at hstroke
    rcases hstroke with hstroke | rfl
    · simp [hstroke]
    · rw [← hkept (by simp) hstar' (by decide)]
      simp
  have hchars := infix_map_strokeChar hstrokes (by simpa using hinfix)
  rw [List.map_append, hinside] at hchars
  refine not_infix_of_find? hfind ?_
  rw [List.take_add, hrest]
  exact hchars

/-- A gap between nodes is white space or a comment. -/
theorem Tree.white_or_remark {source : Text} {tree : Tree}
    (h : Lawful source [tree]) (hgap : tree.isGap = true) :
    White tree.text ∨ tree.comment?.isSome = true ∧ Remark tree.text := by
  cases tree with
  | block opener bracket content closer => cases hgap
  | leaf word =>
    have hword : word ∈ Css.words source := h.mem word (by simp)
    have hsound : word.Sound := h.faultless word (by simp [leaves])
    have htext : (leaf word).text = word.text := by simp [text]
    rw [htext]
    obtain ⟨⟨kind, own⟩, text⟩ := word
    cases kind with
    | space => exact Or.inl (Word.white_of_kind hword rfl)
    | comment closed =>
      cases closed with
      | true => exact Or.inr ⟨rfl, Word.remark_of_kind hword rfl⟩
      | false => exact absurd rfl hsound.2
    | _ => cases hgap

/-- Gaps make up a text of white space and comments, which does not end in a
closing brace. -/
theorem Tree.filler_textOf {source : Text} {gaps : List Tree}
    (h : Lawful source gaps) (hgaps : ∀ tree ∈ gaps, tree.isGap = true) :
    Filler (textOf gaps) ∧ (textOf gaps).getLast? ≠ some '\x7d' := by
  induction gaps with
  | nil => exact ⟨white_nil.filler, nofun⟩
  | cons tree rest ih =>
    rw [← List.singleton_append, lawful_append] at h
    rw [List.forall_mem_cons] at hgaps
    obtain ⟨hfiller, hlast⟩ := ih h.2 hgaps.2
    have hfirst : Filler tree.text ∧ tree.text.getLast? ≠ some '\x7d' := by
      rcases white_or_remark h.1 hgaps.1 with hwhite | ⟨_, hremark⟩
      · exact ⟨hwhite.filler, hwhite.getLast?_ne⟩
      · exact ⟨⟨[tree.text], by simp, by simpa using Or.inr hremark⟩,
          hremark.getLast?_ne⟩
    rw [textOf_cons]
    refine ⟨hfirst.1.append hfiller, ?_⟩
    rw [List.getLast?_append]
    cases hend : (textOf rest).getLast? with
    | none => exact hfirst.2
    | some c => rwa [hend] at hlast

/-! ## Where gaps stand -/

namespace Part

mutual

/-- A gap is white space, and the parts in a block are spaced. -/
def Spaced : Part → Prop
  | gap tree => tree.isGap = true ∧ tree.comment? = none
  | block _ _ content _ => SpacedAll content
  | _ => True
termination_by structural part => part

/-- Only white space stands between the parts that become nodes; after an
unfinished segment at the end there may be comments. -/
def SpacedAll : List Part → Prop
  | [] => True
  | part :: rest => part.Spaced ∧
      (SpacedAll rest ∨ part.isGap = false ∧
        ∃ gaps : List Tree, rest = gaps.map gap ∧ ∀ tree ∈ gaps,
          tree.isGap = true)
termination_by structural parts => parts

end

theorem spaced_ofGap {tree : Tree} (h : tree.isGap = true) :
    (ofGap tree).Spaced := by
  rw [ofGap]
  split
  · trivial
  · next hcomment => exact ⟨h, Option.not_isSome_iff_eq_none.mp hcomment⟩

/-- A segment and then the gaps after it. -/
theorem spacedAll_ofUnfinished {segment : List Tree}
    (h : IsSegment segment.reverse) :
    SpacedAll (ofUnfinished segment) := by
  rw [ofUnfinished]
  cases hdrop : segment.dropWhile Tree.isGap with
  | nil =>
    -- A segment does not start with a gap, so it is empty.
    cases hreverse : segment.reverse with
    | nil =>
      rw [List.reverse_eq_nil_iff.mp hreverse]
      trivial
    | cons tree others =>
      have hmem : tree ∈ segment := by
        rw [← List.mem_reverse, hreverse]
        exact List.mem_cons_self
      have htake := List.takeWhile_append_dropWhile (p := Tree.isGap)
          (l := segment)
      rw [hdrop, List.append_nil] at htake
      have hgap := List.all_eq_true.mp List.all_takeWhile tree
        (htake.symm ▸ hmem)
      have hnot := h.first tree (by rw [hreverse]; rfl)
      rw [hgap] at hnot
      cases hnot
  | cons last others =>
    obtain ⟨first, more, hsegment⟩ :=
      List.exists_cons_of_ne_nil
        (mt List.reverse_eq_nil_iff.mp (List.cons_ne_nil last others))
    rw [hsegment]
    refine ⟨trivial, Or.inr ⟨rfl, _, rfl, fun tree htree => ?_⟩⟩
    exact List.all_eq_true.mp List.all_takeWhile tree
      (List.mem_reverse.mp htree)

/-- Grouping puts comments between segments into nodes. -/
theorem spacedAll_group {segment : List Tree} (trees : List Tree)
    (h : IsSegment segment.reverse) : SpacedAll (group segment trees) := by
  cases trees with
  | nil => exact spacedAll_ofUnfinished h
  | cons tree rest =>
    have hrest : SpacedAll (group [] rest) := spacedAll_group rest isSegment_nil
    rcases group_cases segment tree with
      ⟨rfl, hgap⟩ | ⟨opener, content, closer, rfl⟩ | hsemicolon | ⟨hgap, hcurly,
        hsemicolon⟩
    · rw [group_gap hgap]
      exact ⟨spaced_ofGap hgap, Or.inl hrest⟩
    · rw [group_curly]
      exact ⟨spacedAll_group content isSegment_nil, Or.inl hrest⟩
    · rw [group_semicolon hsemicolon, List.reverse_cons]
      cases segment.reverse with
      | nil => exact ⟨trivial, Or.inl hrest⟩
      | cons first others => exact ⟨trivial, Or.inl hrest⟩
    · rw [group_other hgap hcurly hsemicolon]
      refine spacedAll_group rest ?_
      rw [List.reverse_cons]
      refine h.concat (hgap.imp_left fun hne => ?_) hcurly hsemicolon
      rwa [Ne, List.reverse_eq_nil_iff]

end Part

/-! ## Where children stand -/

/-- Some nodes stand one after the other in a part of a source, with white space
before each of them.  `last` holds of what is left if there are none; after a
node, comments may be left. -/
def Laid (source : Text) (last : Text → Prop) (start stop : Nat) :
    List Node → Prop
  | [] => start ≤ stop ∧ last (source.slice start stop)
  | node :: rest => ∃ span, node.span? = some span ∧
      start ≤ span.start ∧ White (source.slice start span.start) ∧ span.start <
        span.stop ∧ Laid source Filler span.stop stop rest

/-- Nodes stand in a part of a source: in order, inside of it, and with nothing
but white space before each and white space and comments after the last. -/
structure Arranged (source : Text) (content : Span) (nodes : List Node) :
    Prop where
  laid : Laid source White content.start content.stop nodes
  inside : ∀ node ∈ nodes, ∃ span, node.span? = some span ∧
    content.start ≤ span.start ∧ span.stop ≤ content.stop

/-- If the node opens a block, its children stand in the content of the block,
which stands inside the node. -/
def Node.Filled (source : Text) (node : Node) : Prop :=
  ∀ origin content head children,
    node = .container origin content head children →
    head.opensBlock = true → ∃ span inner, origin = .parsed span ∧ content =
      some inner ∧
      span.start < inner.start ∧ Arranged source inner children ∧ inner.stop <
        span.stop

theorem Laid.mono {source : Text} {p q : Text → Prop}
    (hpq : ∀ text, p text → q text) {start stop : Nat} {nodes : List Node}
    (h : Laid source p start stop nodes) :
    Laid source q start stop nodes := by
  cases nodes with
  | nil => exact ⟨h.1, hpq _ h.2⟩
  | cons node rest => exact h

theorem Laid.le {source : Text} {last : Text → Prop} {start stop : Nat}
    {nodes : List Node} (h : Laid source last start stop nodes) :
    start ≤ stop := by
  induction nodes generalizing start last with
  | nil => exact h.1
  | cons node rest ih =>
    obtain ⟨span, _, hstart, _, hlt, hrest⟩ := h
    have hle := ih hrest
    omega

/-- White space before some nodes. -/
theorem Laid.white {source : Text} {start mid stop : Nat} {nodes : List Node}
    (hwhite : White (source.slice start mid)) (hle : start ≤ mid)
    (h : Laid source White mid stop nodes) :
    Laid source White start stop nodes := by
  cases nodes with
  | nil =>
    refine ⟨Nat.le_trans hle h.1, ?_⟩
    rw [← Text.slice_append_slice source hle h.1]
    exact hwhite.append h.2
  | cons node rest =>
    obtain ⟨span, hspan, hstart, hbefore, hlt, hrest⟩ := h
    refine ⟨span, hspan, Nat.le_trans hle hstart, ?_, hlt, hrest⟩
    rw [← Text.slice_append_slice source hle hstart]
    exact hwhite.append hbefore

theorem Laid.inside {source : Text} {last : Text → Prop} {start stop : Nat}
    {nodes : List Node} (h : Laid source last start stop nodes) :
    ∀ node ∈ nodes, ∃ span, node.span? = some span ∧
      start ≤ span.start ∧ span.stop ≤ stop := by
  induction nodes generalizing start last with
  | nil => exact nofun
  | cons node rest ih =>
    obtain ⟨span, hspan, hstart, _, hlt, hrest⟩ := h
    rw [List.forall_mem_cons]
    refine ⟨⟨span, hspan, hstart, hrest.le⟩, fun other hother => ?_⟩
    obtain ⟨own, hown, hafter, hbefore⟩ := ih hrest other hother
    exact ⟨own, hown, by omega, hbefore⟩

/-! ## Reading parts -/

/-- The end that is found for a list is its true end if the text does not end in
a closing brace. -/
theorem Braces.finish_le (front text back : Text) {stop : Nat}
    (h : Braces (front ++ text ++ back) stop (front.length + text.length))
    (hlast : text.getLast? ≠ some '\x7d') (hle : front.length ≤ stop) :
    front.length + text.length ≤ stop := by
  rcases List.eq_nil_or_concat text with rfl | ⟨lead, c, rfl⟩
  · simpa using hle
  · rw [List.concat_eq_append] at h hlast ⊢
    rw [List.length_append, List.length_singleton] at h ⊢
    rcases Nat.lt_or_ge stop (front.length + (lead.length + 1)) with hlt | hge
    · have hchar := h (front.length + lead.length) (by omega) (by omega)
      have hc : (front ++ (lead ++ [c]) ++ back)[front.length + lead.length]? =
          some c := by
        simp
      rw [hc] at hchar
      rw [List.getLast?_concat, hchar] at hlast
      exact absurd rfl hlast
    · exact hge

/-- The text of the first part is what the source has in its place. -/
theorem Standing.slice_head {source front : Text} {stop : Nat} {part : Part}
    {rest : List Part} (h : Standing source front stop (part :: rest)) :
    source.slice front.length (front ++ part.text).length = part.text := by
  obtain ⟨back, hplaced⟩ := h.placed
  rw [Part.textOf_cons, ← List.append_assoc,
    List.append_assoc _ _ back] at hplaced
  rw [hplaced, List.length_append, Text.slice_of_append]

/-- The gaps at the end of a list take all of it. -/
theorem Standing.gaps {source front : Text} {stop : Nat} {gaps : List Tree}
    (h : Standing source front stop (gaps.map Part.gap))
    (hgaps : ∀ tree ∈ gaps, tree.isGap = true) (hle : front.length ≤ stop) :
    stop = front.length + (Tree.textOf gaps).length ∧
      Filler (source.slice front.length stop) := by
  obtain ⟨⟨back, hplaced⟩, hlawful, hstop, hbraces⟩ := h
  rw [Part.treesOf_map_gap] at hlawful
  rw [Part.textOf, Part.treesOf_map_gap] at hplaced hstop hbraces
  obtain ⟨hfiller, hlast⟩ := Tree.filler_textOf hlawful hgaps
  rw [hplaced] at hbraces
  have hfinish :=
    Nat.le_antisymm hstop (hbraces.finish_le front _ back hlast hle)
  refine ⟨hfinish, ?_⟩
  rwa [hfinish, hplaced, Text.slice_of_append]

theorem readParts_gaps_eq {source : Text} {start stop : Nat} {gaps : List Tree}
    {nodes : List Node}
    (h : readParts source start stop (gaps.map Part.gap) = some nodes) :
    nodes = [] := by
  rw [readParts_gaps] at h
  exact (Option.some.inj h).symm

/-- A node that opens no block is filled. -/
theorem Node.filled_of_opensBlock {source : Text} {node : Node}
    (h : ∀ origin content head children,
      node = .container origin content head children →
      head.opensBlock = false) :
    node.Filled source := by
  intro origin content head children hnode hopens
  rw [h origin content head children hnode] at hopens
  cases hopens

theorem filled_statementNode (source : Text) (first : Piece)
    (others : List Piece) :
    ∀ node ∈ walk [statementNode source first others], node.Filled source := by
  have hnode : ∀ node ∈ walk [statementNode source first others],
      ∀ origin content head children,
        node = .container origin content head children →
        head.opensBlock = false := by
    unfold statementNode
    dsimp only
    split
    · intro node hmem origin content head children hnode
      rw [walk, walk, List.append_nil, Node.descendants, walk,
        List.mem_singleton] at hmem
      rw [hmem] at hnode
      cases hnode
      rfl
    · intro node hmem origin content head children hnode
      split at hmem <;>
      · rw [walk, walk, List.append_nil, Node.descendants,
          List.mem_singleton] at hmem
        rw [hmem] at hnode
        cases hnode
  exact fun node hmem => Node.filled_of_opensBlock (hnode node hmem)

/-- White space before the other parts. -/
theorem Standing.white {source front : Text} {stop : Nat} {part : Part}
    {rest : List Part} (h : Standing source front stop (part :: rest))
    (hgap : part.isGap = true) (hspaced : part.Spaced) :
    White (source.slice front.length (front ++ part.text).length) ∧
      (front ++ part.text).length ≤ stop := by
  cases part with
  | gap tree =>
    obtain ⟨htree, hcomment⟩ := hspaced
    have hlawful : Tree.Lawful source [tree] := by
      simpa [Part.trees] using h.head.lawful
    constructor
    · have hwhite : White tree.text := by
        rcases Tree.white_or_remark hlawful htree with hwhite | ⟨hsome, _⟩
        · exact hwhite
        · rw [hcomment] at hsome
          cases hsome
      rw [h.slice_head]
      simpa [Part.text, Part.trees] using hwhite
    · cases rest with
      | nil =>
        have hgaps : ∀ gap ∈ [tree], gap.isGap = true := by simpa using htree
        have hend := (Standing.gaps h hgaps (Nat.le_of_lt h.lt)).1
        rw [List.length_append]
        exact Nat.le_of_eq hend.symm
      | cons second more => exact Nat.le_of_lt h.tail.lt
  | _ => cases hgap

/-- After a node stand other nodes, or the gaps after an unfinished segment. -/
theorem laid_after {source front : Text} {stop : Nat} {rest : List Part}
    {others : List Node} (hstanding : Standing source front stop rest)
    (hspaced : Part.SpacedAll rest ∨ ∃ gaps : List Tree, rest = gaps.map .gap ∧
      ∀ tree ∈ gaps, tree.isGap = true)
    (hread : readParts source front.length stop rest = some others)
    (hlaid : Part.SpacedAll rest → front.length ≤ stop →
      Laid source White front.length stop others ∧ ∀ node ∈ walk others,
      node.Filled source) :
    Laid source Filler (endOf stop front.length rest) stop others ∧
      ∀ node ∈ walk others, node.Filled source := by
  cases rest with
  | nil =>
    cases hread
    refine ⟨⟨Nat.le_refl stop, ?_⟩, nofun⟩
    rw [endOf_nil, Text.slice_eq_nil _ (Nat.le_refl stop)]
    exact white_nil.filler
  | cons part more =>
    have hle := Nat.le_of_lt hstanding.lt
    rw [endOf_cons]
    rcases hspaced with hrest | ⟨gaps, hgaps, hall⟩
    · exact (hlaid hrest hle).imp_left (Laid.mono fun _ => White.filler)
    · -- Nothing is read from what stands after an unfinished segment.
      rw [hgaps] at hread hstanding
      cases readParts_gaps_eq hread
      exact ⟨⟨hle, (hstanding.gaps hall hle).2⟩, nofun⟩

mutual

/-- The nodes of a part of a source are filled. -/
theorem Part.filled_of_read {source front : Text} {stop : Nat}
    {nodes : List Node} (part : Part)
    (hstanding : Standing source front stop [part]) (hspaced : part.Spaced)
    (hread : part.read source front.length stop = some nodes) :
    ∀ node ∈ walk nodes, node.Filled source := by
  cases part with
  | gap tree =>
    cases hread
    exact nofun
  | comment tree =>
    cases hread
    intro node hmem
    rw [walk, walk, List.append_nil, Node.descendants,
      List.mem_singleton] at hmem
    rw [hmem]
    exact nofun
  | statement first others =>
    cases hread
    exact filled_statementNode source _ _
  | block before opener content closer =>
    obtain ⟨inner, head, children, hcontent, hopen, hle, hclose,
        hchildren, rfl⟩ :=
      read_block hstanding hread
    obtain ⟨hlaid, hfilled⟩ :=
      laid_of_readParts content hcontent hspaced hle hchildren
    rw [walk, walk, List.append_nil, Node.descendants, List.forall_mem_cons]
    refine ⟨?_, hfilled⟩
    rintro origin span head children ⟨⟩ _
    exact ⟨_, _, rfl, rfl, hopen, ⟨hlaid, hlaid.inside⟩, hclose⟩

/-- The nodes of some parts of a source are laid in their place, and they are
filled. -/
theorem laid_of_readParts {source front : Text} {stop : Nat} {nodes : List Node}
    (parts : List Part) (hstanding : Standing source front stop parts)
    (hspaced : Part.SpacedAll parts) (hle : front.length ≤ stop)
    (hread : readParts source front.length stop parts = some nodes) :
    Laid source White front.length stop nodes ∧ ∀ node ∈ walk nodes,
      node.Filled source := by
  cases parts with
  | nil =>
    cases hread
    have hstop : stop ≤ front.length := hstanding.stop_le
    refine ⟨⟨hle, ?_⟩, nofun⟩
    rw [Text.slice_eq_nil _ hstop]
    exact white_nil
  | cons part rest =>
    obtain ⟨own, others, rfl, hown, hothers⟩ := exists_of_readParts_cons hread
    have hfilled := part.filled_of_read hstanding.head hspaced.1 hown
    rw [walk_append, List.forall_mem_append]
    rw [← List.length_append] at hown hothers
    cases hgap : part.isGap with
    | true =>
      have hrest : Part.SpacedAll rest := by
        rcases hspaced.2 with hrest | ⟨hnode, _⟩
        · exact hrest
        · rw [hgap] at hnode
          cases hnode
      obtain ⟨hwhite, hmid⟩ := hstanding.white hgap hspaced.1
      obtain ⟨hlaid, hothersFilled⟩ :=
        laid_of_readParts rest hstanding.tail hrest hmid hothers
      have hnil : own = [] := by
        cases part with
        | gap tree =>
          cases hown
          rfl
        | _ => cases hgap
      rw [hnil, List.nil_append]
      refine ⟨hlaid.white hwhite ?_, nofun, hothersFilled⟩
      rw [List.length_append]
      exact Nat.le_add_right _ _
    | false =>
      obtain ⟨node, rfl, hspan⟩ := Part.read_node hgap hown
      have hlt := hstanding.head.lt
      rw [← List.length_append] at hlt
      have hbefore : White (source.slice front.length front.length) := by
        rw [Text.slice_eq_nil _ (Nat.le_refl _)]
        exact white_nil
      obtain ⟨hlaid, hothersFilled⟩ :=
        laid_after hstanding.tail (hspaced.2.imp_right fun hgaps =>
          hgaps.2) hothers
          fun hrest hmid =>
            laid_of_readParts rest hstanding.tail hrest hmid hothers
      exact ⟨⟨_, hspan, Nat.le_refl _, hbefore, hlt, hlaid⟩, hfilled,
        hothersFilled⟩

end

/-! ## Style sheets -/

/-- The children of a style sheet and of each block in it stand in order in its
content, with nothing but white space before each child and white space and
comments after the last one. -/
theorem arranged_of_parse {source : Text} {document : Document}
    (h : Document.parse source = .ok document) :
    document.source = source ∧
      Arranged source ⟨0, source.length⟩ document.children ∧
      ∀ node ∈ walk document.children, node.Filled source := by
  rw [parse_eq_ok_iff] at h
  obtain ⟨hfaultless, nodes, hnodes, rfl⟩ := h
  obtain ⟨hlaid, hfilled⟩ := laid_of_readParts _ (standing_group hfaultless)
    (Part.spacedAll_group _ isSegment_nil) (Nat.zero_le _) hnodes
  exact ⟨rfl, ⟨hlaid, hlaid.inside⟩, hfilled⟩

/-- Comments between nodes and in nested blocks, and an escaped brace at the end
of a block that nothing closes. -/
theorem arranged_of_parse_comments :
    ∃ source document,
      source =
        "/*a*/\r\nb \x7bc:d /*e*/; @f \x7bg:h/*i*/\t/**/\x7d\x7d/*j*/@k;l\x7bm:\\\x7d".toList ∧
      Document.parse source = .ok document ∧ document.source = source ∧
      Arranged source ⟨0, source.length⟩ document.children ∧
      ∀ node ∈ walk document.children, node.Filled source := by
  have hok : (Document.parse
      "/*a*/\r\nb \x7bc:d /*e*/; @f \x7bg:h/*i*/\t/**/\x7d\x7d/*j*/@k;l\x7bm:\\\x7d".toList).isOk =
        true := by
    decide +kernel
  obtain ⟨document, h⟩ := exists_of_isOk hok
  exact ⟨_, document, rfl, h, arranged_of_parse h⟩

end OklchGate.Css
