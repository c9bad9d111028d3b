import OklchGate.Proofs.Css.Places
import OklchGate.Proofs.Css.Planting
import OklchGate.Proofs.Css.Spelling

/-!
# Selectors and properties that are copied
-/

namespace OklchGate.Css

open Word

/-! ## Idle words -/

theorem isGap_of_idle {word : Word} (h : word.lexeme.IsIdle)
    (hspace : word.lexeme.kind ≠ .space) :
    (Tree.leaf word).isGap = false := by
  obtain ⟨⟨kind, text⟩, own⟩ := word
  rcases h with h | h | ⟨h, _⟩
  · exact absurd h hspace
  · cases kind <;> first | rfl | cases h
  · dsimp only at h
    subst h
    rfl

theorem segment_of_idle {word : Word} (h : word.lexeme.IsIdle) :
    (Tree.leaf word).isCurly = false ∧ (Tree.leaf word).isDelimiter ';' =
      false := by
  refine ⟨rfl, ?_⟩
  simp only [Tree.isDelimiter, Tree.bare, Token.isDelimiter,
    Bool.and_eq_false_iff, decide_eq_false_iff_not]
  rcases h with h | h | ⟨_, h⟩
  · exact Or.inl (by rw [h]; simp)
  · exact Or.inl fun hkind => by rw [hkind] at h; cases h
  · exact Or.inr h

theorem whole_of_idle {words : List Word}
    (h : ∀ word ∈ words, word.lexeme.IsIdle) :
    Tree.WholeAll (words.map Tree.leaf) := by
  induction words with
  | nil => trivial
  | cons word words ih =>
    rw [List.forall_mem_cons] at h
    exact ⟨whole_leaf (h.1.imp_right (Or.imp_right And.left)), ih h.2⟩

@[simp] theorem wordsOf_map_leaf (words : List Word) :
    Tree.wordsOf (words.map Tree.leaf) = words := by
  induction words with
  | nil => rfl
  | cons word words ih => rw [List.map_cons, Tree.wordsOf_cons, ih]; rfl

/-- No bracket is idle. -/
theorem not_idle_of_bracket {lexeme : Lexeme} {bracket : Bracket}
    (h : lexeme.kind = .opening bracket ∨ lexeme.kind = .closing bracket) :
    ¬ lexeme.IsIdle := by
  rintro (hidle | hidle | ⟨hidle, _⟩) <;> rcases h with h | h <;>
    rw [h] at hidle <;> cases hidle

/-- Whole trees of idle words are leaves. -/
theorem eq_leaves_of_idle {trees : List Tree} (hwhole : Tree.WholeAll trees)
    (hidle : ∀ word ∈ Tree.wordsOf trees, word.lexeme.IsIdle) :
    trees = (Tree.wordsOf trees).map Tree.leaf := by
  induction trees with
  | nil => rfl
  | cons tree rest ih =>
    rw [Tree.wordsOf_cons, List.forall_mem_append] at hidle
    cases tree with
    | leaf word => simpa using ih hwhole.2 hidle.2
    | block opener bracket content closer =>
      exact absurd (hidle.1 opener List.mem_cons_self)
        (not_idle_of_bracket (Or.inl hwhole.1.1))

/-- Idle words at the end of whole trees are leaves. -/
theorem exists_leaves {trees : List Tree} {front idle : List Word}
    (hwhole : Tree.WholeAll trees) (hwords : Tree.wordsOf trees = front ++ idle)
    (hidle : ∀ word ∈ idle, word.lexeme.IsIdle) :
    ∃ kept, trees = kept ++ idle.map Tree.leaf ∧ Tree.wordsOf kept = front := by
  induction trees generalizing front with
  | nil =>
    obtain ⟨rfl, rfl⟩ := List.append_eq_nil_iff.mp hwords.symm
    exact ⟨[], rfl, rfl⟩
  | cons tree rest ih =>
    rw [Tree.wordsOf_cons, List.append_eq_append_iff] at hwords
    rcases hwords with ⟨middle, rfl, hrest⟩ | ⟨middle, htree, rfl⟩
    · obtain ⟨kept, rfl, rfl⟩ := ih hwhole.2 hrest
      exact ⟨tree :: kept, rfl, rfl⟩
    · rw [List.forall_mem_append] at hidle
      have hrest := eq_leaves_of_idle hwhole.2 hidle.2
      cases middle with
      | nil =>
        refine ⟨[tree], by rw [List.nil_append, ← hrest, List.singleton_append],
          ?_⟩
        rw [Tree.wordsOf_cons, htree]
        simp
      | cons word middle =>
        cases tree with
        | leaf own =>
          cases front with
          | nil =>
            refine ⟨[], ?_, rfl⟩
            rw [← htree.trans (List.nil_append _), List.map_append, ← hrest]
            rfl
          | cons f front => simp at htree
        | block opener bracket content closer =>
          obtain ⟨_, ⟨last, rfl, hlast⟩, _⟩ := hwhole.1
          have hmem : last ∈ word :: middle := by
            have hget := congrArg List.getLast? htree
            rw [Tree.words_block, ← List.cons_append, List.getLast?_append,
              List.getLast?_append, Option.toList_some, List.getLast?_singleton,
              Option.some_or] at hget
            cases hword : (word :: middle).getLast? with
            | none => simp at hword
            | some other =>
              rw [hword, Option.some_or, Option.some.injEq] at hget
              exact hget ▸ List.mem_of_getLast? hword
          exact absurd (hidle.1 last hmem) (not_idle_of_bracket (Or.inr hlast))

/-- Words that lie in a plain text do not depend on what follows it. -/
theorem cut_left {lexemes : List Lexeme} {a : Text} (ha : Plain a)
    (h : Lexeme.plainOf lexemes <+: normalizeBreaks a) (t : Text) :
    cut lexemes (strokes (a ++ t)) = cut lexemes (strokes a) := by
  have hlength := h.length_le
  rw [length_normalizeBreaks] at hlength
  rw [strokes_append (Or.inl ha.getLast?), ← cut_take lexemes _ hlength,
    List.take_left]

/-- The first words of exact words, by the strokes of the text. -/
theorem Exact.cut_eq {front rest : List Word} (h : Exact (front ++ rest)) :
    cut (front.map Word.lexeme) (strokes (textOf (front ++ rest))) = front := by
  have hwords := h
  rw [Exact, words, h.normalizeBreaks_eq, h.ofText_eq, List.map_append,
    cut_append] at hwords
  have hlength :
    (cut (front.map Word.lexeme) (strokes (textOf (front ++ rest)))).length =
      front.length := by
    have hmap := congrArg List.length (map_lexeme_cut (front.map Word.lexeme)
      (strokes (textOf (front ++ rest))))
    rwa [List.length_map, List.length_map] at hmap
  exact (List.append_inj hwords hlength).1

mutual

theorem kind_of_whole_tree {tree : Tree} (h : tree.Whole) :
    ∀ word ∈ tree.words, word.lexeme.kind ≠ .badUrl ∧
      word.lexeme.kind ≠ .badString := by
  cases tree with
  | leaf word =>
    rw [Tree.words_leaf, List.forall_mem_singleton]
    constructor <;> intro hkind <;> have hsound :=
      h.1.1 <;> rw [hkind] at hsound <;> cases hsound
  | block opener bracket content closer =>
    obtain ⟨hopener, ⟨last, rfl, hlast⟩, hcontent⟩ := h
    rw [Tree.words_block, Option.toList_some, List.forall_mem_cons,
      List.forall_mem_append, List.forall_mem_singleton, hopener, hlast]
    exact ⟨by simp, kind_of_whole hcontent, by simp⟩

/-- The words of whole trees are no broken strings and no broken URLs. -/
theorem kind_of_whole {trees : List Tree} (h : Tree.WholeAll trees) :
    ∀ word ∈ Tree.wordsOf trees,
      word.lexeme.kind ≠ .badUrl ∧ word.lexeme.kind ≠ .badString := by
  cases trees with
  | nil => exact List.forall_mem_nil _
  | cons tree rest =>
    rw [Tree.wordsOf_cons, List.forall_mem_append]
    exact ⟨kind_of_whole_tree h.1, kind_of_whole h.2⟩

end

/-- A selector is read before one space and a brace as it is before its own
white space and brace, but for some idle words at the end. -/
theorem spells_selector {before : List Tree} {opener : Word} {after : List Word}
    {selector w : Text}
    (hexact : Exact (Tree.wordsOf before ++ opener :: after))
    (hopener : opener.lexeme.text = ['\x7b']) (hwhole : Tree.WholeAll before)
    (htext : Tree.textOf before = selector ++ w) (hplain : Plain selector)
    (hw : White w) (hlast : ∀ c ∈ selector.getLast?, isSpace c = false)
    (t : Text) :
    ∃ (kept : List Tree) (idle idle' : List Word),
      before = kept ++ idle.map Tree.leaf ∧
      Spells (selector ++ [' ']) (kept ++ idle'.map Tree.leaf) ('\x7b' :: t) ∧
      (∀ word ∈ idle', word.lexeme.IsIdle) ∧
      (kept = [] → selector ≠ [] → Lexeme.SameStart (normalizeBreaks selector)
        (idle.map Word.lexeme) (idle'.map Word.lexeme)) := by
  have hbefore : plainOf (Tree.wordsOf before) =
      normalizeBreaks selector ++ normalizeBreaks w := by
    rw [← hexact.normalizeBreaks_left]
    change normalizeBreaks (Tree.textOf before) = _
    rw [htext, normalizeBreaks_append (Or.inl hplain.getLast?)]
  have hlexemes : Lexeme.ofText (normalizeBreaks selector ++
        (normalizeBreaks w ++ '\x7b' :: plainOf after)) =
      (Tree.wordsOf before).map Word.lexeme ++
        opener.lexeme :: after.map Word.lexeme := by
    have hofText := hexact.ofText_eq
    rw [plainOf_append, plainOf_cons, hbefore, hopener] at hofText
    simpa using hofText
  have hlast' : ∀ a ∈ (normalizeBreaks selector).getLast?,
      isSpace a = false := by
    intro a ha
    rw [normalizeBreaks_eq_of_plain hplain, List.getLast?_map, Option.mem_def,
      Option.map_eq_some_iff] at ha
    obtain ⟨c, hc, rfl⟩ := ha
    split
    · rfl
    · exact hlast c hc
  obtain ⟨front, source, gate, hsplit, hgate, halike⟩ :=
    Lexeme.ofText_before hw.isSpace hlast' hlexemes
    (by rw [plainOf_map, hbefore])
    (List.forall_mem_map.mpr (kind_of_whole hwhole)) (normalizeBreaks t)
  obtain ⟨frontWords, idle, hwords, rfl, rfl⟩ :=
    List.map_eq_append_iff.mp hsplit
  obtain ⟨kept, rfl, rfl⟩ := exists_leaves hwhole hwords (fun word hword =>
    halike.idle _ (List.mem_append_left _ (List.mem_map_of_mem hword)))
  have hnormal : normalizeBreaks (selector ++ [' ']) =
      normalizeBreaks selector ++ [' '] :=
    normalizeBreaks_append (Or.inl hplain.getLast?)
  have hplain' : Plain (selector ++ [' ']) :=
    plain_append.mpr ⟨hplain, by simp [Plain, isSpace]⟩
  have hcut : cut ((Tree.wordsOf kept).map Word.lexeme)
    (strokes (selector ++ [' '])) = Tree.wordsOf kept := by
    have hsource :
      textOf (Tree.wordsOf (kept ++ idle.map Tree.leaf) ++ opener :: after) =
        selector ++ (w ++ textOf (opener :: after)) := by
      rw [textOf_append, ← List.append_assoc, ← htext]
      rfl
    rw [hwords, List.append_assoc] at hexact hsource
    have hfront := hexact.cut_eq
    rw [hsource, cut_left hplain halike.inside] at hfront
    rw [cut_left hplain halike.inside, hfront]
  obtain ⟨idle', hidle'⟩ :
    ∃ idle', idle' = cut gate ((strokes (selector ++ [' '])).drop
    (Lexeme.plainOf ((Tree.wordsOf kept).map Word.lexeme)).length) := ⟨_, rfl⟩
  have hgateWords : idle'.map Word.lexeme = gate := by
    rw [hidle', map_lexeme_cut]
  have hidle : ∀ word ∈ idle', word.lexeme.IsIdle := by
    intro word hword
    refine halike.idle _ (List.mem_append_right _ ?_)
    rw [← hgateWords]
    exact List.mem_map_of_mem hword
  refine ⟨kept, idle, idle', rfl, ⟨?_, ?_⟩, hidle, ?_⟩
  · rw [words_append (Or.inl hplain'.getLast?)
      (halike.plain.trans hnormal.symm) ?_,
      cut_append, hcut, ← hidle', Tree.wordsOf_append]
    · rw [wordsOf_map_leaf]
    · have hbrace : normalizeBreaks ('\x7b' :: t) =
          '\x7b' :: normalizeBreaks t := rfl
      rw [hnormal, hbrace, List.append_assoc, List.append_assoc]
      exact hgate
  · exact Tree.wholeAll_append.mpr ⟨(Tree.wholeAll_append.mp hwhole).1,
      whole_of_idle hidle⟩
  · rintro rfl hne
    rw [hgateWords]
    refine halike.start rfl fun hnil => hne ?_
    rw [normalizeBreaks_eq_of_plain hplain, List.map_eq_nil_iff] at hnil
    exact hnil

/-- A selector that starts no at-keyword before one space is read as the
selector of a rule. -/
theorem Leads.spells {before : List Tree} (h : Leads before) {opener : Word}
    {after : List Word} {selector w : Text}
    (hexact : Exact (Tree.wordsOf before ++ opener :: after))
    (hopener : opener.lexeme.text = ['\x7b']) (hwhole : Tree.WholeAll before)
    (htext : Tree.textOf before = selector ++ w) (hplain : Plain selector)
    (hw : White w) (hlast : ∀ c ∈ selector.getLast?, isSpace c = false)
    (hne : selector ≠ [])
    (hdead : selector ≠ ['@', '\\'] ∧ selector ≠ ['@', '-', '\\']) (t : Text) :
    ∃ trees, Spells (selector ++ [' ']) trees ('\x7b' :: t) ∧ Leads trees := by
  obtain ⟨kept, idle, idle', rfl, hspells, hidle, hstart⟩ :=
    spells_selector hexact hopener hwhole htext hplain hw hlast t
  have hinside : ∀ tree ∈ kept ++ idle'.map Tree.leaf,
      tree.isCurly = false ∧ tree.isDelimiter ';' = false := by
    rw [List.forall_mem_append, List.forall_mem_map]
    exact ⟨(List.forall_mem_append.mp h.inside).1, fun word hword =>
      segment_of_idle (hidle word hword)⟩
  have hfirst : ∀ tree ∈ (kept ++ idle'.map Tree.leaf).head?,
      tree.isGap = false ∧ tree.isAtKeyword = false := by
    cases kept with
    | cons first kept =>
      rintro tree ⟨⟩
      exact ⟨h.first _ rfl, h.keyword _ rfl⟩
    | nil =>
      obtain ⟨hsource, hfirst⟩ := hstart rfl hne
      cases idle' with
      | nil => simp
      | cons word idle' =>
        obtain ⟨hspace, hat⟩ := hfirst word.lexeme rfl
        rintro tree ⟨⟩
        refine ⟨isGap_of_idle (hidle word List.mem_cons_self) hspace,
          Bool.eq_false_iff.mpr ?_⟩
        intro hkeyword
        rcases hat hkeyword with hat | hat | hat
        · cases idle with
          | nil => exact hsource rfl
          | cons other idle =>
            have hother := h.keyword (.leaf other) rfl
            rw [Tree.isAtKeyword] at hother
            exact absurd hat (by simp [hother])
        · exact hdead.1 (eq_of_normalizeBreaks hplain hat (by decide))
        · exact hdead.2 (eq_of_normalizeBreaks hplain hat (by decide))
  exact ⟨_, hspells, ⟨hinside, fun tree htree => (hfirst tree htree).1⟩,
    fun tree htree => (hfirst tree htree).2⟩

/-! ## Selectors -/

/-- The text is the selector of a rule whose characters are some of the
source. -/
def StandsAsSelector (source selector : Text) : Prop :=
  ∃ (before : List Tree) (opener : Word) (after : List Word), Leads before ∧
    Exact (Tree.wordsOf before ++ opener :: after) ∧ opener.lexeme.text =
      ['\x7b'] ∧
    Tree.WholeAll before ∧ Tree.textOf before ⊆ source ∧
    selector = Text.trim (Tree.textOf before)

/-- The text of a segment does not start with a blank. -/
theorem IsSegment.head_textOf {before : List Tree} {after : List Word}
    (h : IsSegment before) (hexact : Exact (Tree.wordsOf before ++ after))
    (hwhole : Tree.WholeAll before)
    (hordinary : Ordinary (Tree.textOf before)) :
    ∀ c ∈ (Tree.textOf before).head?, isBlank c = false := by
  intro c hc
  cases before with
  | nil => cases hc
  | cons tree before =>
    rw [Tree.wordsOf_cons, List.append_assoc] at hexact
    have hhead := head_of_first hexact (h.first _ rfl) hwhole.1
    have htext : Word.textOf (tree.words ++ (Tree.wordsOf before ++ after)) =
        Tree.textOf (tree :: before) ++ Word.textOf after := by
      simp [Tree.textOf]
    obtain ⟨rest, hrest⟩ := List.head?_eq_some_iff.mp hc
    rw [htext, hrest, List.cons_append] at hhead
    refine Bool.eq_false_iff.mpr fun hblank => ?_
    have hone : Ordinary [c] :=
      List.forall_mem_singleton.mpr
        (hordinary c (by rw [hrest]; exact List.mem_cons_self))
    obtain ⟨d, hd, hspace⟩ :=
      hone.head_normalizeBreaks hblank (rest ++ Word.textOf after)
    rw [hhead d hd] at hspace
    cases hspace

/-- The characters of a selector are some of the source. -/
theorem StandsAsSelector.subset {source selector : Text}
    (h : StandsAsSelector source selector) :
    selector ⊆ source := by
  obtain ⟨before, _, _, _, _, _, _, hsubset, rfl⟩ := h
  obtain ⟨front, back, htext, _, _⟩ := Text.exists_trim (Tree.textOf before)
  refine List.Subset.trans (fun c hc => ?_) hsubset
  rw [htext]
  exact List.mem_append_right _ (List.mem_append_left _ hc)

/-- A plain selector in an ordinary text, and what is before and after it. -/
theorem StandsAsSelector.cases {source selector : Text}
    (h : StandsAsSelector source selector) (hsource : Ordinary source)
    (hplain : Plain selector) :
    Text.trim selector = selector ∧
      (∀ c ∈ selector.head?, isSpace c = false) ∧
      (selector ≠ [] → selector ≠ ['@', '\\'] → selector ≠ ['@', '-', '\\'] →
        ∀ t, ∃ trees, Spells (selector ++ [' ']) trees ('\x7b' :: t) ∧
          Leads trees) := by
  obtain ⟨before, opener, after, hleads, hexact, hopener, hwhole, hsubset,
      rfl⟩ := h
  have hordinary : Ordinary (Tree.textOf before) :=
    fun c hc => hsource c (hsubset hc)
  obtain ⟨front, back, htext, hfront, hback⟩ :=
    Text.exists_trim (Tree.textOf before)
  have hhead := hleads.head_textOf hexact hwhole hordinary
  obtain rfl : front = [] := by
    cases front with
    | nil => rfl
    | cons c front =>
      have hblank := hfront c List.mem_cons_self
      rw [htext] at hhead
      rw [hhead c rfl] at hblank
      cases hblank
  rw [List.nil_append] at htext
  have hwhite : White back := by
    intro c hc
    exact hordinary c (by rw [htext]; exact List.mem_append_right _ hc)
      (hback c hc)
  refine ⟨Text.trim_trim _, ?_, ?_⟩
  · intro c hc
    obtain ⟨rest, hrest⟩ := List.head?_eq_some_iff.mp hc
    refine Bool.eq_false_iff.mpr fun hspace => ?_
    have hblank := hhead c (by rw [htext, hrest]; rfl)
    rw [isBlank_of_isSpace hspace] at hblank
    cases hblank
  · intro hne hat hdash t
    refine hleads.spells hexact hopener hwhole htext hplain hwhite
      (fun c hc => ?_) hne ⟨hat, hdash⟩ t
    refine Bool.eq_false_iff.mpr fun hspace => ?_
    have hblank := (Text.ends_of_trim _).2 c hc
    rw [isBlank_of_isSpace hspace] at hblank
    cases hblank

/-- The selectors whose backslash stands before a line feed, and which are the
start of an at-keyword before a space. -/
def splitSelectors : List Text := [['@', '\\'], ['@', '-', '\\']]

/-- A selector is read as the selector of a rule, unless it is one of the
selectors that are the start of an at-keyword. -/
theorem StandsAsSelector.readsAsHead {source selector : Text}
    (h : StandsAsSelector source selector) (hsource : Ordinary source)
    (hplain : Plain selector) (hsplit : selector ∉ splitSelectors) :
    ReadsAsHead selector (.rule selector) := by
  simp only [splitSelectors, List.mem_cons, List.not_mem_nil, or_false,
    not_or] at hsplit
  obtain ⟨htrim, hhead, hspells⟩ := h.cases hsource hplain
  by_cases hne : selector = []
  · subst hne
    exact readsAsHead_nil
  exact readsAsHead_of_leads hne hplain htrim hhead
    (hspells hne hsplit.1 hsplit.2)

/-- An at-sign and a backslash are read as an at-keyword. -/
theorem readsAsHead_split {selector : Text} (h : selector ∈ splitSelectors) :
    ∃ name, ReadsAsHead selector (.atRule name [] true) := by
  simp only [splitSelectors, List.mem_cons, List.not_mem_nil, or_false] at h
  rcases h with rfl | rfl
  · exact ⟨_, readsAsHead_keyword rfl (by simp [Plain, isSpace, isBlank]) rfl
      rfl fun t => rfl⟩
  · exact ⟨_, readsAsHead_keyword rfl (by simp [Plain, isSpace, isBlank]) rfl
      rfl fun t => rfl⟩

/-! ## Properties -/

/-- The text is an identifier in some text, with white space and comments and
then a colon after it. -/
def StandsAsProperty (property : Text) : Prop :=
  ∃ (word : Word) (after : List Word) (name : Text), Exact (word :: after) ∧
    word.lexeme.kind = .identifier name ∧ Tail (plainOf after) ∧ property =
      word.text

/-- What is read as white space starts with white space. -/
theorem isSpace_of_read {c : Char} {rest : Text}
    (h : (Lexeme.read c rest).1 = .space) :
    isSpace c = true := by
  revert h
  apply Lexeme.read_cases (motive := fun answer => answer.1 = .space →
    isSpace c = true)
  case space => exact fun hc _ => hc
  case word =>
    intro _ h
    rcases Lexeme.readIdentifierLike_cases (c :: rest) with
      he | he | ⟨ending, n, he⟩ <;>
      rw [he] at h
    · cases h
    · cases h
    · cases ending <;> cases h
  case string =>
    intro _ ending n h
    cases ending <;> cases h
  all_goals
    intros
    rename_i h
    cases h

/-- A word of white space holds nothing else. -/
theorem isSpace_of_kind {lexeme : Lexeme} {text : Text}
    (h : lexeme ∈ Lexeme.ofText text) (hkind : lexeme.kind = .space) :
    ∀ c ∈ lexeme.text, isSpace c = true := by
  obtain ⟨c, rest, rfl⟩ := Lexeme.exists_first_of_mem h
  have hc : isSpace c = true := isSpace_of_read hkind
  have hread : Lexeme.read c rest = (.space, spaceLength (c :: rest)) := by
    rw [Lexeme.read]
    dsimp only
    rw [if_pos hc]
  have htext : (Lexeme.first c rest).text = (c :: rest).takeWhile isSpace := by
    rw [Lexeme.first, hread]
    exact (List.prefix_iff_eq_take.mp (List.takeWhile_prefix _)).symm
  intro d hd
  rw [htext] at hd
  exact List.all_eq_true.mp List.all_takeWhile d hd

/-- A gap is white space, or it starts with a slash. -/
theorem word_of_gap {tree : Tree} {text : Text} (h : tree.isGap = true)
    (hmem : ∀ word ∈ tree.words, word.lexeme ∈ Lexeme.ofText text) :
    ∃ word, tree = .leaf word ∧
      ((∀ c ∈ word.lexeme.text, isSpace c = true) ∨ word.lexeme.text.head? =
        some '/') := by
  cases tree with
  | block => cases h
  | leaf word =>
    have hword := hmem word List.mem_cons_self
    refine ⟨word, rfl, ?_⟩
    obtain ⟨⟨kind, own⟩, source⟩ := word
    cases kind with
    | space => exact Or.inl (isSpace_of_kind hword rfl)
    | comment closed =>
      right
      obtain ⟨c, rest, hfirst⟩ := Lexeme.exists_first_of_mem hword
      obtain ⟨body, rfl, rfl⟩ :=
        Lexeme.mark_of_comment (congrArg Lexeme.kind hfirst).symm
      have hown : own = _ := congrArg Lexeme.text hfirst
      dsimp only
      rw [hown, Lexeme.text_first]
      rfl
    | _ => cases h

/-- White space and comments before a colon are a tail. -/
theorem tail_of_gaps {gaps : List Tree} {colon : Word} {more : List Word}
    (hexact : Exact (Tree.wordsOf gaps ++ colon :: more))
    (hgaps : ∀ tree ∈ gaps, tree.isGap = true)
    (hcolon : colon.lexeme.text = [':']) :
    Tail (plainOf (Tree.wordsOf gaps ++ colon :: more)) := by
  induction gaps with
  | nil =>
    rw [Tree.wordsOf_nil, List.nil_append, plainOf_cons, hcolon]
    exact .bound _ rfl
  | cons tree gaps ih =>
    rw [List.forall_mem_cons] at hgaps
    rw [Tree.wordsOf_cons, List.append_assoc] at hexact ⊢
    have htail := ih hexact.right hgaps.2
    have hmem : ∀ word ∈ tree.words, word.lexeme ∈
        Lexeme.ofText (plainOf
          (tree.words ++ (Tree.wordsOf gaps ++ colon :: more))) := by
      intro word hword
      rw [hexact.ofText_eq]
      exact List.mem_map_of_mem (List.mem_append_left _ hword)
    obtain ⟨word, rfl, hword⟩ := word_of_gap hgaps.1 hmem
    rw [Tree.words_leaf, List.singleton_append, plainOf_cons]
    rcases hword with hspace | hslash
    · exact .append_space hspace htail
    · obtain ⟨own, hown⟩ := List.head?_eq_some_iff.mp hslash
      rw [hown, List.cons_append]
      exact .bound _ rfl

/-- A property is read as an identifier before a colon. -/
theorem StandsAsProperty.readsAsProperty {property : Text}
    (h : StandsAsProperty property) :
    ReadsAsProperty property := by
  obtain ⟨word, after, name, hexact, hkind, htail, rfl⟩ := h
  have hnormal : normalizeBreaks word.text = word.lexeme.text := by
    have hleft := hexact.normalizeBreaks_left (a := [word]) (b := after)
    simpa using hleft
  have hofText := hexact.ofText_eq
  rw [plainOf_cons, List.map_cons] at hofText
  have hmem : word.lexeme ∈
      Lexeme.ofText (word.lexeme.text ++ plainOf after) := by
    rw [hofText]
    exact List.mem_cons_self
  obtain ⟨c, own, hown⟩ :=
    List.exists_cons_of_ne_nil (Lexeme.text_ne_nil_of_mem hmem)
  intro t
  obtain ⟨d, u, htext, _⟩ := htail.exists_edge
  rw [hown, List.cons_append] at hofText
  obtain ⟨own', left, hrest, hown', hread, _⟩ :=
    Lexeme.ofText_eq_cons_of_lt hofText (by rw [hown, htext]; simp)
  obtain rfl : own' = own := (List.cons.inj (hown'.symm.trans hown)).2
  rw [hkind] at hread
  obtain ⟨name', hread'⟩ :=
    Lexeme.read_identifier htail hread (normalizeBreaks t)
  exact ⟨name', spells_word (Or.inr (by simp)) (hnormal.trans hown)
    (Or.inr (Or.inl rfl))
    hread'⟩

/-! ## The selectors and properties of a style sheet -/

mutual

/-- What stands before the blocks of a part are segments. -/
def Part.Segmented : Part → Prop
  | .gap _ => True
  | .comment _ => True
  | .statement _ _ => True
  | .block before _ content _ => IsSegment before ∧ SegmentedAll content
termination_by structural part => part

/-- What stands before the blocks of some parts are segments. -/
def SegmentedAll : List Part → Prop
  | [] => True
  | part :: rest => part.Segmented ∧ SegmentedAll rest
termination_by structural parts => parts

end

theorem segmentedAll_append {a b : List Part} :
    SegmentedAll (a ++ b) ↔ SegmentedAll a ∧ SegmentedAll b := by
  induction a with
  | nil => exact ⟨fun h => ⟨trivial, h⟩, And.right⟩
  | cons part rest ih =>
    rw [List.cons_append, SegmentedAll, SegmentedAll, ih, and_assoc]

/-- Parts that are no blocks have none. -/
theorem segmentedAll_of_isBlock {parts : List Part}
    (h : ∀ part ∈ parts, part.isBlock = false) :
    SegmentedAll parts := by
  induction parts with
  | nil => trivial
  | cons part rest ih =>
    rw [List.forall_mem_cons] at h
    refine ⟨?_, ih h.2⟩
    cases part with
    | block => cases h.1
    | _ => trivial

/-- Grouping puts segments before blocks. -/
theorem segmentedAll_group {segment : List Tree} (trees : List Tree)
    (h : IsSegment segment.reverse) : SegmentedAll (group segment trees) := by
  cases trees with
  | nil => exact segmentedAll_of_isBlock (Part.isBlock_ofUnfinished segment)
  | cons tree rest =>
    rcases group_cases segment tree with
      ⟨rfl, hgap⟩ | ⟨opener, content, closer, rfl⟩ | hsemicolon | ⟨hgap, hcurly,
        hsemicolon⟩
    · rw [group_gap hgap]
      refine ⟨?_, segmentedAll_group rest isSegment_nil⟩
      rw [Part.ofGap]
      split <;> trivial
    · rw [group_curly]
      exact ⟨⟨h, segmentedAll_group content isSegment_nil⟩,
        segmentedAll_group rest isSegment_nil⟩
    · rw [group_semicolon hsemicolon, segmentedAll_append]
      exact ⟨segmentedAll_of_isBlock (Part.isBlock_ofSegment _),
        segmentedAll_group rest isSegment_nil⟩
    · rw [group_other hgap hcurly hsemicolon]
      refine segmentedAll_group rest ?_
      rw [List.reverse_cons]
      refine h.concat (hgap.imp_left fun hne => ?_) hcurly hsemicolon
      rwa [Ne, List.reverse_eq_nil_iff]

/-- The selector of a rule and the property of a declaration stand as such in
the source. -/
def Node.Copied (source : Text) : Node → Prop
  | .container _ _ (.rule selector) _ => StandsAsSelector source selector
  | .leaf _ (.declaration property _ _) => StandsAsProperty property
  | _ => True

/-- A delimiter is a word of one character. -/
theorem Tree.exists_of_isDelimiter {tree : Tree} {c : Char}
    (h : tree.isDelimiter c = true) :
    ∃ word, tree = .leaf word ∧ word.lexeme.kind = .delimiter ∧
      word.lexeme.text = [c] := by
  cases tree with
  | block => cases h
  | leaf word =>
    have hboth : word.lexeme.kind = .delimiter ∧ word.lexeme.text = [c] := by
      simpa [isDelimiter, bare, Token.isDelimiter] using h
    exact ⟨word, rfl, hboth⟩

/-- Before the colon of a declaration there are only gaps. -/
theorem exists_colon {start stop : Nat} {trees : List Tree} {after : Nat}
    (h : declarationColon? (piecesOf start stop trees) = some after) :
    ∃ gaps colon more, trees = gaps ++ colon :: more ∧
      (∀ tree ∈ gaps, tree.isGap = true) ∧ colon.isDelimiter ':' = true ∧
      after = endOf stop (start + (Tree.textOf (gaps ++ [colon])).length)
        more := by
  induction trees generalizing start with
  | nil => cases h
  | cons tree rest ih =>
    rw [piecesOf, declarationColon?] at h
    dsimp only at h
    split at h
    · rename_i hgap
      obtain ⟨gaps, colon, more, rfl, hgaps, hcolon, hafter⟩ := ih h
      refine ⟨tree :: gaps, colon, more, rfl,
        List.forall_mem_cons.mpr ⟨hgap, hgaps⟩, hcolon, ?_⟩
      rw [hafter, List.cons_append, Tree.textOf_cons, List.length_append,
        Nat.add_assoc]
    · split at h
      · rename_i hcolon
        refine ⟨[], tree, rest, rfl, List.forall_mem_nil _, hcolon, ?_⟩
        rw [List.nil_append, Tree.textOf_cons, Tree.textOf_nil, List.append_nil]
        exact (Option.some.inj h).symm
      · cases h

theorem exists_identifier {tree : Tree} {start stop : Nat}
    (h : (⟨tree.bare, start, stop⟩ : Piece).isIdentifier = true) :
    ∃ word name, tree = .leaf word ∧ word.lexeme.kind = .identifier name := by
  cases tree with
  | block => cases h
  | leaf word =>
    obtain ⟨⟨kind, text⟩, own⟩ := word
    cases kind with
    | identifier name => exact ⟨_, name, rfl, rfl⟩
    | _ => cases h

/-- A declaration starts with an identifier, which is its property, and a
colon. -/
theorem declaration_inv {first : Tree} {others : List Tree} {origin : Origin}
    {property value : Text} {important : Bool}
    (h : (Part.statement first others).shapes =
      [.leaf origin (.declaration property value important)]) :
    ∃ word name gaps colon more, first = .leaf word ∧
      word.lexeme.kind = .identifier name ∧
      others = gaps ++ .leaf colon :: more ∧
        (∀ tree ∈ gaps, tree.isGap = true) ∧
      colon.lexeme.kind = .delimiter ∧ colon.lexeme.text = [':'] ∧ property =
        word.text := by
  rw [Part.shapes, piecesOf, segmentNodes, bareOf_cons, bareOf_nil,
    statementNode] at h
  dsimp only at h
  split at h
  · cases h
  · split at h
    · rename_i after hcolon
      split at hcolon
      · rename_i hidentifier
        obtain ⟨word, name, rfl, hkind⟩ := exists_identifier hidentifier
        obtain ⟨gaps, tree, more, rfl, hgaps, hdelimiter, _⟩ :=
          exists_colon hcolon
        obtain ⟨colon, rfl, hcolonKind, hcolonText⟩ :=
          Tree.exists_of_isDelimiter hdelimiter
        refine ⟨word, name, gaps, colon, more, rfl, hkind, rfl, hgaps,
          hcolonKind, hcolonText, ?_⟩
        have hend : ∀ stop after : Nat,
            endOf stop after (gaps ++ .leaf colon :: more) = after := by
          intro stop after
          cases gaps <;> rfl
        have hword : (Tree.leaf word).text = word.text := by simp [Tree.text]
        simp only [Node.bare, List.cons.injEq, Node.leaf.injEq,
          Leaf.declaration.injEq] at h
        rw [← h.1.2.1, hend, hword, Nat.zero_add, Tree.textOf_cons, hword]
        have hslice :=
          Text.slice_of_append [] word.text
            (Tree.textOf (gaps ++ .leaf colon :: more))
        simpa using hslice
      · cases hcolon
    · cases h

/-- The property of a declaration is an identifier with a colon after it. -/
theorem copied_statement (source : Text) {first : Tree} {others : List Tree}
    {after : List Word}
    (hexact : Exact (Tree.wordsOf (first :: others) ++ after)) :
    ∀ node ∈ walk (Part.statement first others).shapes, node.Copied source := by
  have hshapes : (Part.statement first others).shapes = _ := rfl
  conv at hshapes =>
    rhs
    rw [Part.shapes, piecesOf, segmentNodes, bareOf_cons, bareOf_nil,
      statementNode]
  dsimp only at hshapes
  split at hshapes
  · rw [hshapes]
    exact List.forall_mem_singleton.mpr trivial
  · split at hshapes
    · rw [hshapes]
      refine List.forall_mem_singleton.mpr ?_
      obtain ⟨word, name, gaps, colon, more, rfl, hkind, rfl, hgaps, _, hcolon,
          hproperty⟩ :=
        declaration_inv hshapes
      rw [Tree.wordsOf_cons, Tree.words_leaf, Tree.wordsOf_append,
        Tree.wordsOf_cons, Tree.words_leaf, List.append_assoc,
        List.append_assoc, List.append_assoc, List.singleton_append,
        List.singleton_append] at hexact
      exact ⟨word, _, name, hexact, hkind,
        tail_of_gaps (hexact.right (a := [word])) hgaps hcolon, hproperty⟩
    · rw [hshapes]
      exact List.forall_mem_singleton.mpr trivial

/-- What gives a rule before a block is its selector. -/
theorem leads_of_headOf {before : List Tree} {selector : Text}
    (hsegment : IsSegment before)
    (h : headOf (Tree.textOf before)
      (piecesOf 0 (Tree.textOf before).length before)
      (Tree.textOf before).length = .rule selector) :
    Leads before ∧ selector = Text.trim (Tree.textOf before) := by
  cases before with
  | nil =>
    rw [piecesOf, headOf, Head.rule.injEq] at h
    exact ⟨⟨hsegment, by simp⟩, h.symm⟩
  | cons first others =>
    rw [piecesOf, headOf] at h
    split at h
    · cases h
    · rename_i hkeyword
      rw [Text.slice_all, Head.rule.injEq] at h
      refine ⟨⟨hsegment, ?_⟩, h.symm⟩
      rintro _ ⟨⟩
      exact atKeyword?_bare_eq_none.mp hkeyword

/-- The selector of a rule stands before a brace. -/
theorem copied_head {source : Text} {before : List Tree} {opener : Word}
    {after : List Word} (hsegment : IsSegment before)
    (hexact : Exact (Tree.wordsOf before ++ opener :: after))
    (hopener : opener.lexeme.text = ['\x7b']) (hwhole : Tree.WholeAll before)
    (hsubset : Tree.textOf before ⊆ source) (selector : Text)
    (h : headOf (Tree.textOf before)
      (piecesOf 0 (Tree.textOf before).length before)
      (Tree.textOf before).length = .rule selector) :
    StandsAsSelector source selector := by
  obtain ⟨hleads, htrim⟩ := leads_of_headOf hsegment h
  exact ⟨before, opener, after, hleads, hexact, hopener, hwhole, hsubset, htrim⟩

mutual

theorem copied_shapes {source : Text} {part : Part} {after : List Word}
    (hexact : Exact (Tree.wordsOf part.trees ++ after))
    (hsubset : part.text ⊆ source) (hwhole : Tree.WholeAll part.trees)
    (hsegmented : part.Segmented) :
    ∀ node ∈ walk part.shapes, node.Copied source := by
  cases part with
  | gap tree => exact List.forall_mem_nil _
  | comment tree => exact List.forall_mem_singleton.mpr trivial
  | statement first others => exact copied_statement source hexact
  | block before opener content closer =>
    rw [Part.trees, Tree.wordsOf_append, Tree.wordsOf_cons, Tree.words_block,
      Tree.wordsOf_nil, List.append_nil, List.append_assoc, List.cons_append,
      List.append_assoc] at hexact
    rw [Part.trees, Tree.wholeAll_append] at hwhole
    have hparts : Tree.textOf before ⊆ source ∧ Part.textOf content ⊆
        source := by
      rw [Part.text, Part.trees, Tree.textOf_append,
        List.append_subset] at hsubset
      refine ⟨hsubset.1, fun c hc => hsubset.2 ?_⟩
      rw [Tree.textOf_cons, Tree.text, Tree.words_block, textOf_cons,
        textOf_append]
      exact List.mem_append_left _
        (List.mem_append_right _ (List.mem_append_left _ hc))
    have hchildren :=
      copied_shapesOf (hexact.right.right (a := [opener])) hparts.2
      hwhole.2.1.2.2 hsegmented.2
    have hopener : opener.lexeme.text = ['\x7b'] := by
      have hmem : opener.lexeme ∈
        Lexeme.ofText (plainOf (Tree.wordsOf before ++ opener ::
          (Tree.wordsOf (Part.treesOf content) ++
            (closer.toList ++ after)))) := by
        rw [hexact.ofText_eq]
        exact List.mem_map_of_mem (List.mem_append_right _ List.mem_cons_self)
      exact Lexeme.text_of_opening hmem hwhole.2.1.1 (by simp)
    rw [Part.shapes, walk, walk, List.append_nil, Node.descendants,
      List.forall_mem_cons]
    refine ⟨?_, hchildren⟩
    have hstands := copied_head hsegmented.1 hexact hopener hwhole.1 hparts.1
    cases hhead : headOf (Tree.textOf before)
      (piecesOf 0 (Tree.textOf before).length before)
        (Tree.textOf before).length with
    | rule selector => exact hstands selector hhead
    | atRule => trivial

/-- The selectors and properties of whole parts stand as such. -/
theorem copied_shapesOf {source : Text} {parts : List Part} {after : List Word}
    (hexact : Exact (Tree.wordsOf (Part.treesOf parts) ++ after))
    (hsubset : Part.textOf parts ⊆ source)
    (hwhole : Tree.WholeAll (Part.treesOf parts))
    (hsegmented : SegmentedAll parts) :
    ∀ node ∈ walk (shapesOf parts), node.Copied source := by
  cases parts with
  | nil => exact List.forall_mem_nil _
  | cons part rest =>
    rw [Part.treesOf_cons, Tree.wordsOf_append, List.append_assoc] at hexact
    rw [Part.treesOf_cons, Tree.wholeAll_append] at hwhole
    rw [Part.textOf_cons, List.append_subset] at hsubset
    rw [shapesOf_cons, walk_append, List.forall_mem_append]
    exact ⟨copied_shapes hexact hsubset.1 hwhole.1 hsegmented.1,
      copied_shapesOf hexact.right hsubset.2 hwhole.2 hsegmented.2⟩

end

mutual

theorem descendants_bare (node : Node) :
    node.bare.descendants = node.descendants.map Node.bare := by
  cases node with
  | leaf origin item => rfl
  | container origin content head children => exact walk_bareOf children

theorem walk_bareOf (nodes : List Node) :
    walk (bareOf nodes) = (walk nodes).map Node.bare := by
  cases nodes with
  | nil => rfl
  | cons node rest =>
    rw [bareOf_cons, walk, walk, List.map_append, List.map_cons,
      descendants_bare, walk_bareOf rest]

end

/-- What a node copies does not depend on its place. -/
theorem copied_bare (source : Text) (node : Node) :
    node.bare.Copied source ↔ node.Copied source := by
  cases node with
  | leaf origin item => cases item <;> exact Iff.rfl
  | container origin content head children => cases head <;> exact Iff.rfl

/-- The selectors and properties of nodes that have the shapes of whole parts
stand as such. -/
theorem copied_of_shapes {source : Text} {nodes : List Node} {parts : List Part}
    {after : List Word}
    (hexact : Exact (Tree.wordsOf (Part.treesOf parts) ++ after))
    (hsubset : Part.textOf parts ⊆ source)
    (hwhole : Tree.WholeAll (Part.treesOf parts))
    (hsegmented : SegmentedAll parts) (h : bareOf nodes = shapesOf parts) :
    ∀ node ∈ walk nodes, node.Copied source := by
  have hcopied := copied_shapesOf hexact hsubset hwhole hsegmented
  rw [← h, walk_bareOf, List.forall_mem_map] at hcopied
  exact fun node hnode => (copied_bare source node).mp (hcopied node hnode)

/-- The selectors and properties of a well-formed style sheet stand as such. -/
theorem copied_of_parse {source : Text} {document : Document}
    (h : Document.parse source = .ok document)
    (hclosed : Token.allClosed (Token.ofText source) = true) :
    ∀ node ∈ walk document.children, node.Copied source := by
  obtain ⟨hfaultless, nodes, hread, rfl⟩ := parse_eq_ok_iff.mp h
  have hsteady : Steady (Part.ofText source) := steady_ofText hfaultless hclosed
  have hbare : bareOf nodes = shapesOf (Part.ofText source) := by
    obtain ⟨others, hparse, hothers⟩ := hsteady.parse
    rw [Part.textOf_ofText, h] at hparse
    cases hparse
    exact hothers
  have hexact : Exact (Tree.wordsOf (Part.treesOf (Part.ofText source)) ++
      []) := by
    rw [List.append_nil]
    exact hsteady.exact
  exact copied_of_shapes hexact
    (by rw [Part.textOf_ofText]; exact List.Subset.refl _) hsteady.whole
    (segmentedAll_group _ isSegment_nil) hbare

end OklchGate.Css
