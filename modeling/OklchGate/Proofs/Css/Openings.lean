import OklchGate.Proofs.Css.FirstWord

/-!
# The words before an opening brace

The words before white space and an opening brace are those before one space and
a brace, but for some words at their end.  These are idle: they open and close
no bracket, they end no segment and they are no fault.

There are three groups.

* `Lexeme.IsIdle`, and the idle words that white space and a backslash before it
  make.
* `Lexeme.ofText_before`, by induction on the words before white space and a
  brace.
* `Lexeme.read_identifier`: an identifier before white space or a bound is one
  before a colon too.
-/

namespace OklchGate.Css

namespace Lexeme

/-! ## Idle words -/

/-- A word that is no bracket, ends no segment and is no fault. -/
def IsIdle (lexeme : Lexeme) : Prop :=
  lexeme.kind = .space ∨ lexeme.kind.isName = true ∨
    (lexeme.kind = .delimiter ∧ lexeme.text ≠ [';'])

theorem eq_nil_of_plainOf {lexemes : List Lexeme}
    (hne : ∀ lexeme ∈ lexemes, lexeme.text ≠ []) (h : plainOf lexemes = []) :
    lexemes = [] := by
  cases lexemes with
  | nil => rfl
  | cons lexeme rest =>
    rw [plainOf_cons, List.append_eq_nil_iff] at h
    exact absurd h.1 (hne lexeme List.mem_cons_self)

section Before

variable {w rest : Text} (hw : ∀ a ∈ w, isSpace a = true)
include hw

/-- White space before a brace is idle. -/
theorem idle_of_space {lexemes others : List Lexeme}
    (h : ofText (w ++ '\x7b' :: rest) = lexemes ++ others)
    (hplain : plainOf lexemes = w) :
    ∀ lexeme ∈ lexemes, lexeme.IsIdle := by
  have hne : ∀ lexeme ∈ lexemes, lexeme.text ≠ [] := fun lexeme hmem =>
    text_ne_nil_of_mem (by rw [h]; exact List.mem_append_left _ hmem)
  cases w with
  | nil =>
    rw [eq_nil_of_plainOf hne hplain]
    exact List.forall_mem_nil _
  | cons c w =>
    rw [List.forall_mem_cons] at hw
    cases lexemes with
    | nil => cases hplain
    | cons lexeme lexemes =>
      rw [List.cons_append, ofText_of_read (read_space_before hw.2 hw.1),
        List.cons_append, List.cons.injEq] at h
      obtain ⟨rfl, _⟩ := h
      rw [plainOf_cons, List.append_right_eq_self] at hplain
      rw [List.forall_mem_cons] at hne
      rw [eq_nil_of_plainOf hne.2 hplain]
      simp [IsIdle]

/-- A backslash before a line feed, and a dash before it, are idle. -/
theorem idle_of_dead {left : Text} {lexemes others : List Lexeme}
    (hleft : left ∈ [[], ['\\'], ['-', '\\']])
    (hbreak : left = [] ∨ w.head? = some '\n')
    (h : ofText (left ++ (w ++ '\x7b' :: rest)) = lexemes ++ others)
    (hplain : plainOf lexemes = left ++ w) :
    ∀ lexeme ∈ lexemes, lexeme.IsIdle := by
  induction left generalizing lexemes with
  | nil => exact idle_of_space hw h hplain
  | cons c left ih =>
    obtain ⟨w', rfl⟩ : ∃ w', w = '\n' :: w' :=
      List.head?_eq_some_iff.mp (hbreak.resolve_left (List.cons_ne_nil c left))
    have hdead : c :: left ∈ deadTexts ∧ left ∈ [[], ['\\'], ['-', '\\']] ∧
        c ≠ ';' := by
      simp only [List.mem_cons, List.not_mem_nil, or_false,
        List.cons.injEq] at hleft
      rcases hleft with hleft | ⟨rfl, rfl⟩ | ⟨rfl, rfl⟩
      · cases hleft
      · simp [deadTexts]
      · simp [deadTexts]
    have hread := read_dead hdead.1 (w' ++ '\x7b' :: rest)
    cases lexemes with
    | nil => cases hplain
    | cons lexeme lexemes =>
      have htext : ofText
          (c :: ([] ++ (left ++ ('\n' :: w' ++ '\x7b' :: rest)))) = _ :=
        ofText_of_read hread
      rw [List.nil_append] at htext
      rw [List.cons_append, htext] at h
      obtain ⟨rfl, hrest⟩ := List.cons.inj h
      rw [plainOf_cons, List.singleton_append, List.cons_append,
        List.cons.injEq] at hplain
      rw [List.forall_mem_cons]
      exact ⟨Or.inr (Or.inr ⟨rfl, by simpa using hdead.2.2⟩),
        ih hdead.2.1 (Or.inr rfl) hrest hplain.2⟩

/-! ## The same words before both tails -/

/-- The first words before both tails are of the same kinds, except that a
backslash before a line feed may have stood in the way of an at-keyword. -/
structure SameStart (own : Text) (source gate : List Lexeme) : Prop where
  nonempty : source ≠ []
  start : ∀ lexeme ∈ gate.head?, lexeme.kind ≠ .space ∧
    (lexeme.kind.isAtKeyword = true →
      (source.head?.any fun first => first.kind.isAtKeyword) = true ∨
        own = ['@', '\\'] ∨ own = ['@', '-', '\\'])

omit hw in
/-- The first word of a text that goes on after it. -/
theorem ofText_eq_cons_of_lt {c : Char} {text : Text} {lexeme : Lexeme}
    {others : List Lexeme} (h : ofText (c :: text) = lexeme :: others)
    (hlt : lexeme.text.length ≤ text.length) :
    ∃ own left, text = own ++ left ∧ lexeme.text = c :: own ∧
      read c text = (lexeme.kind, 1 + own.length) ∧ ofText left = others := by
  obtain ⟨c', own, left, htext, rfl, hleft, hread⟩ := ofText_eq_cons h
  obtain ⟨rfl, rfl⟩ := List.cons.inj htext
  have hne : left ≠ [] := by
    rintro rfl
    rw [List.append_nil] at hlt
    exact Nat.not_succ_le_self _ hlt
  exact ⟨own, left, rfl, rfl, Prod.ext rfl (hread hne), hleft⟩

omit hw in
/-- What is left after a word of a text, if that word lies in the first two
parts. -/
theorem left_eq {own x word left z : Text}
    (htext : own ++ (w ++ x) = word ++ left) (hplain : word ++ z = own ++ w) :
    z = own.drop word.length ++ w.drop (word.length - own.length) ∧
      left = z ++ x := by
  constructor
  · rw [← List.drop_append, ← hplain, List.drop_left]
  · rw [← List.append_assoc, ← hplain, List.append_assoc] at htext
    exact (List.append_cancel_left htext).symm

/-- The words after an idle word are idle if that word reaches up to a
backslash. -/
theorem idle_after {own word left : Text} {lexemes others : List Lexeme}
    (htext : own ++ (w ++ '\x7b' :: rest) = word ++ left)
    (hplain : word ++ plainOf lexemes = own ++ w)
    (h : ofText left = lexemes ++ others)
    (hdrop : own.drop word.length ∈ [[], ['\\'], ['-', '\\']])
    (hbreak : own.drop word.length = [] ∨ w.head? = some '\n') :
    ∀ lexeme ∈ lexemes, lexeme.IsIdle := by
  obtain ⟨hz, rfl⟩ := left_eq htext hplain
  refine idle_of_dead (fun a ha => hw a (List.mem_of_mem_drop ha)) hdrop ?_
    (by rw [← List.append_assoc, ← hz, h]) hz
  refine hbreak.elim Or.inl fun hhead => ?_
  by_cases hle : word.length ≤ own.length
  · rw [Nat.sub_eq_zero_of_le hle]
    exact Or.inr hhead
  · exact Or.inl (List.drop_eq_nil_of_le (by omega))

/-- The words of a text before white space and a brace, and those before one
space and a brace, are the same at first; the others are idle. -/
structure Alike (own : Text) (front source gate : List Lexeme) : Prop where
  plain : plainOf (front ++ gate) = own ++ [' ']
  inside : plainOf front <+: own
  idle : ∀ lexeme ∈ source ++ gate, lexeme.IsIdle
  start : front = [] → own ≠ [] → SameStart own source gate

omit hw in
theorem Alike.cons {own' : Text} {lexeme : Lexeme}
    {front source gate : List Lexeme} (h : Alike own' front source gate) :
    Alike (lexeme.text ++ own') (lexeme :: front) source gate where
  plain := by rw [List.cons_append, plainOf_cons, h.plain, List.append_assoc]
  inside := (List.prefix_append_right_inj _).mpr h.inside
  idle := h.idle
  start := fun hnil => by cases hnil

omit hw in
theorem ofText_space_brace :
    ofText (' ' :: '\x7b' :: t) = ⟨.space, [' ']⟩ :: ofText ('\x7b' :: t) :=
  have hread : read ' ' ([] ++ '\x7b' :: t) = (.space, 1 + 0) :=
    read_space_before (List.forall_mem_nil _) rfl
  ofText_of_read hread

omit hw in
/-- Idle words, where there is only white space before the gate's brace. -/
theorem alike_nil {source : List Lexeme}
    (h : ∀ lexeme ∈ source, lexeme.IsIdle) :
    Alike [] [] source [⟨.space, [' ']⟩] where
  plain := rfl
  inside := List.nil_prefix
  idle := List.forall_mem_append.mpr ⟨h, by simp [IsIdle]⟩
  start := fun _ hne => absurd rfl hne

omit hw in
/-- Idle words, in the place of which there is one name. -/
theorem alike_name {c : Char} {s : Text} {kind : Kind} {lexeme : Lexeme}
    {lexemes : List Lexeme} (hname : kind.isName = true)
    (hsource : ∀ other ∈ lexeme :: lexemes, other.IsIdle)
    (hat : kind.isAtKeyword = true → lexeme.kind.isAtKeyword = true ∨
      c :: s = ['@', '\\'] ∨ c :: s = ['@', '-', '\\']) :
    Alike (c :: s) [] (lexeme :: lexemes) [⟨kind, c :: (s ++ [' '])⟩] where
  plain := by simp
  inside := List.nil_prefix
  idle := List.forall_mem_append.mpr ⟨hsource, by simp [IsIdle, hname]⟩
  start := by
    refine fun _ _ => ⟨List.cons_ne_nil _ _, fun first hfirst => ?_⟩
    obtain rfl : ⟨kind, c :: (s ++ [' '])⟩ = first := Option.some.inj hfirst
    refine ⟨fun hspace => ?_, hat⟩
    dsimp only at hspace
    rw [hspace] at hname
    cases hname

omit hw in
/-- A word that takes the text and one space stands before the brace. -/
theorem ofText_of_read_gate {c : Char} {s t : Text} {kind : Kind}
    (h : read c (s ++ ' ' :: '\x7b' :: t) = (kind, (c :: s).length + 1)) :
    ofText (c :: s ++ ' ' :: '\x7b' :: t) = ⟨kind, c :: (s ++ [' '])⟩ :: ofText
      ('\x7b' :: t) := by
  have hread : read c (s ++ [' '] ++ '\x7b' :: t) =
      (kind, 1 + (s ++ [' ']).length) := by
    rw [List.append_assoc, List.singleton_append, h, List.length_append,
      Nat.add_comm]
    rfl
  have hword := ofText_of_read hread
  rwa [List.append_assoc] at hword

/-- What `ofText_before` says of the words before white space and a brace. -/
def SameWords (own : Text) (lexemes : List Lexeme) (t : Text) : Prop :=
  ∃ front source gate, lexemes = front ++ source ∧
    ofText (own ++ ' ' :: '\x7b' :: t) =
      front ++ (gate ++ ofText ('\x7b' :: t)) ∧
    Alike own front source gate

omit hw in
/-- One more word that is read alike before both tails. -/
theorem SameWords.cons {c : Char} {own s t : Text} {lexeme : Lexeme}
    {lexemes : List Lexeme} (hlexeme : lexeme.text = c :: own)
    (hread : read c (own ++ (s ++ ' ' :: '\x7b' :: t)) =
      (lexeme.kind, 1 + own.length))
    (h : SameWords s lexemes t) :
    SameWords (c :: (own ++ s)) (lexeme :: lexemes) t := by
  obtain ⟨front, source, gate, hlexemes, hwords, halike⟩ := h
  refine ⟨lexeme :: front, source, gate, by rw [hlexemes, List.cons_append], ?_,
    ?_⟩
  · rw [List.cons_append, List.append_assoc, ofText_of_read hread, hwords,
      ← hlexeme]
    rfl
  · have hcons : Alike (lexeme.text ++ s) (lexeme :: front) source gate :=
      halike.cons
    rwa [hlexeme] at hcons

omit hw in
/-- Idle words, in the place of which there is one name up to the brace. -/
theorem sameWords_name {c : Char} {s t : Text} {kind : Kind} {lexeme : Lexeme}
    {lexemes : List Lexeme}
    (hread : read c (s ++ ' ' :: '\x7b' :: t) = (kind, (c :: s).length + 1))
    (hname : kind.isName = true) (hlexeme : lexeme.IsIdle)
    (hlexemes : ∀ other ∈ lexemes, other.IsIdle)
    (hat : kind.isAtKeyword = true → lexeme.kind.isAtKeyword = true ∨
      c :: s = ['@', '\\'] ∨ c :: s = ['@', '-', '\\']) :
    SameWords (c :: s) (lexeme :: lexemes) t :=
  ⟨[], _, [_], rfl, ofText_of_read_gate hread,
    alike_name hname (List.forall_mem_cons.mpr ⟨hlexeme, hlexemes⟩) hat⟩

/-- The words before white space and a brace are those before one space and a
brace, but for some idle words at their end. -/
theorem ofText_before {own : Text} {lexemes others : List Lexeme}
    (hlast : ∀ a ∈ own.getLast?, isSpace a = false)
    (h : ofText (own ++ (w ++ '\x7b' :: rest)) = lexemes ++ others)
    (hplain : plainOf lexemes = own ++ w)
    (hgood : ∀ lexeme ∈ lexemes, lexeme.kind ≠ .badUrl ∧
      lexeme.kind ≠ .badString)
    (t : Text) :
    SameWords own lexemes t := by
  induction lexemes generalizing own with
  | nil =>
    rw [plainOf_nil, eq_comm, List.append_eq_nil_iff] at hplain
    obtain ⟨rfl, rfl⟩ := hplain
    exact ⟨[], [], [_], rfl, ofText_space_brace,
      alike_nil (List.forall_mem_nil _)⟩
  | cons lexeme lexemes ih =>
    cases own with
    | nil =>
      exact ⟨[], _, [_], rfl, ofText_space_brace,
        alike_nil (idle_of_space hw h hplain)⟩
    | cons c s =>
      have htotal := congrArg List.length hplain
      simp only [plainOf_cons, List.length_append, List.length_cons] at htotal
      have hlt : lexeme.text.length ≤ (s ++ (w ++ '\x7b' :: rest)).length := by
        simp only [List.length_append, List.length_cons]
        omega
      obtain ⟨own, left, htext, hlexeme, hread, hleft⟩ :=
        ofText_eq_cons_of_lt h hlt
      replace hread : read c (s ++ (w ++ '\x7b' :: rest)) =
        (lexeme.kind, 1 + own.length) := hread
      rw [List.forall_mem_cons] at hgood
      rw [plainOf_cons, hlexeme] at hplain
      rw [hlexeme, List.length_cons] at htotal
      have hnonspace : ∃ a ∈ c :: s, isSpace a = false :=
        ⟨_, List.getLast_mem (List.cons_ne_nil c s),
          hlast _ (List.getLast?_eq_some_getLast _)⟩
      have hlong : 1 + own.length ≤ (c :: s).length + w.length := by
        rw [List.length_cons]
        omega
      have hfits : Fits (c :: s) w (read c (s ++ (w ++ '\x7b' :: rest))) := by
        rw [hread]
        exact ⟨hlong, hgood.1.1, hgood.1.2⟩
      have hbefore := read_before hw t hnonspace hfits
      rw [hread] at hbefore
      have htext : c :: s ++ (w ++ '\x7b' :: rest) = (c :: own) ++ left :=
        congrArg (c :: ·) htext
      rcases hgate : read c (s ++ ' ' :: '\x7b' :: t) with ⟨kind, n⟩
      rw [hgate] at hbefore
      have hlength : (c :: own).length = 1 + own.length := Nat.add_comm _ _
      cases hbefore with
      | inside hsame hle =>
        obtain ⟨s', rfl⟩ : own <+: s := List.prefix_of_prefix_length_le
          ⟨_, (List.cons.inj hplain).2⟩ (List.prefix_append s w)
          (by rw [List.length_cons] at hle; dsimp only at hle; omega)
        simp only [List.cons_append, List.append_assoc, List.cons.injEq,
          true_and, List.append_cancel_left_eq] at htext hplain
        rw [← htext] at hleft
        rw [hsame, List.append_assoc] at hgate
        have hlast' : ∀ a ∈ s'.getLast?, isSpace a = false := by
          intro a ha
          refine hlast a ?_
          rw [Option.mem_def] at ha ⊢
          rw [← List.cons_append, List.getLast?_append, ha, Option.some_or]
        exact (ih hlast' hleft hplain hgood.2).cons hlexeme hgate
      | name hsource hgateName hat hlong hgateLength =>
        dsimp only at hsource hat hlong hgateLength
        have hnil : (c :: s).drop (c :: own).length = [] :=
          List.drop_eq_nil_of_le (hlength ▸ hlong)
        have hidle := idle_after hw htext hplain hleft (by rw [hnil]; simp)
          (Or.inl hnil)
        exact sameWords_name (hgateLength ▸ hgate) hgateName
          (Or.inr (Or.inl hsource)) hidle fun h => Or.inl (hat ▸ h)
      | backslash hbreak hsource hgateName hat hdrop hgateLength =>
        dsimp only at hsource hat hdrop hgateLength
        have hidle := idle_after hw htext hplain hleft (hlength ▸ hdrop)
          (Or.inr hbreak)
        refine sameWords_name (hgateLength ▸ hgate) hgateName
          (Or.inr ?_) hidle hat
        refine hsource.imp id fun ⟨hkind, hhead⟩ => ⟨hkind, ?_⟩
        rw [hlexeme]
        rintro hsemicolon
        exact hhead (by rw [(List.cons.inj hsemicolon).1]; rfl)

end Before

/-! ## Identifiers before a colon -/

theorem readMark_ne_identifier (c : Char) (rest name : Text) :
    (readMark c rest).1 ≠ .identifier name := by
  unfold readMark
  split
  · exact nofun
  · exact nofun
  split
  · cases (readString c rest).2 <;> exact nofun
  split <;> exact nofun

/-- What is known of a text that is read as an identifier. -/
theorem read_eq_identifier {c : Char} {rest name : Text} {n : Nat}
    (h : read c rest = (.identifier name, n)) :
    isSpace c = false ∧ startsRange c rest = false ∧
      ['-', '-', '>'].isPrefixOf (c :: rest) = false ∧
        startsIdentifier (c :: rest) = true ∧
      readIdentifierLike (c :: rest) = (.identifier name, n) := by
  rw [read_eq] at h
  split at h
  · cases h
  split at h
  · cases h
  split at h
  · cases h
  split at h
  · next hspace hrange harrow hstart =>
    exact ⟨Bool.eq_false_iff.mpr hspace, Bool.eq_false_iff.mpr hrange,
      Bool.eq_false_iff.mpr harrow, hstart, h⟩
  cases hnumeric : readNumeric? (c :: rest) with
  | some answer =>
    rw [hnumeric, Option.getD_some] at h
    rw [h] at hnumeric
    cases (readNumeric?_pos hnumeric).1
  | none =>
    rw [hnumeric, Option.getD_none, readSign] at h
    split at h
    · cases h
    split at h
    · cases h
    · exact absurd (congrArg Prod.fst h) (readMark_ne_identifier c rest name)

/-- A name takes the escape that a backslash before an edge makes. -/
theorem readName_escape {d : Char} (hd : isEdge d = true) (hbreak : d ≠ '\n')
    (u : Text) :
    2 ≤ (readName ('\\' :: d :: u)).2 ∧
      3 ≤ (readName ('-' :: '\\' :: d :: u)).2 := by
  have hhex := isHexDigit_halt (isHalt_of_isEdge hd)
  have hstep : nameStep '\\' (d :: u) = some (d, 1) := by
    rw [nameStep, startsEscape_backslash]
    simp [hbreak, readEscape, hhex, isNameChar, isNameStart, isDigit]
  have hdash : nameStep '-' ('\\' :: d :: u) = some ('-', 0) := rfl
  have hslash : 2 ≤ (Pieces.run nameStep ('\\' :: d :: u)).2 := by
    rw [Pieces.run_snd_cons, hstep]
    simp
  rw [readName_eq, readName_eq]
  refine ⟨hslash, ?_⟩
  rw [Pieces.run_snd_cons, hdash]
  simp only [List.drop_zero]
  omega

/-- What is an identifier before a tail does not end in a backslash that is no
escape. -/
theorem ne_backslash_of_readName {s x : Text} (hx : Tail x)
    (hstart : startsIdentifier (s ++ x) = true)
    (hname : (readName (s ++ x)).2 = s.length) :
    s ≠ ['\\'] ∧ s ≠ ['-', '\\'] := by
  obtain ⟨d, u, rfl, hd⟩ := hx.exists_edge
  by_cases hbreak : d = '\n'
  · subst hbreak
    constructor <;> rintro rfl <;> cases hstart
  · have hlong := readName_escape hd hbreak u
    constructor
    · rintro rfl
      rw [List.singleton_append] at hname
      have hshort := hname ▸ hlong.1
      exact absurd hshort (by decide)
    · rintro rfl
      rw [List.cons_append, List.singleton_append] at hname
      have hshort := hname ▸ hlong.2
      exact absurd hshort (by decide)

/-- A name that ends before a tail ends before a colon. -/
theorem readName_colon {s x : Text} (hx : Tail x)
    (hname : (readName (s ++ x)).2 = s.length) (t : Text) :
    (readName (s ++ ':' :: t)).2 = s.length := by
  rcases readName_tail s with
    ⟨answer, hle, h⟩ | ⟨answer, h⟩ | ⟨front, hfront, hbreak, hspace, hbound⟩
  · rw [h _ (.bound t rfl), ← h _ hx, hname]
  · rw [h _ (.bound t rfl)]
    rfl
  · cases hx with
    | bound t hd =>
      have hlong := hbound _ t hd
      omega
    | @space e x he hx =>
      by_cases hne : e = '\n'
      · have hshort := hbreak x hx
        rw [← hne, hname, hfront, List.length_append,
          List.length_singleton] at hshort
        omega
      · have hlong := hspace e x he hne hx
        omega

/-- An identifier before white space or a bound is read before a colon too. -/
theorem read_identifier {c : Char} {own x name : Text} (hx : Tail x)
    (h : read c (own ++ x) = (.identifier name, 1 + own.length)) (t : Text) :
    ∃ name', read c (own ++ ':' :: t) =
      (.identifier name', 1 + own.length) := by
  obtain ⟨hspace, hrange, harrow, hstart, hlike⟩ := read_eq_identifier h
  rw [← List.cons_append] at harrow hstart hlike
  have hname : (readName (c :: own ++ x)).2 = (c :: own).length := by
    rcases readIdentifierLike_cases (c :: own ++ x) with
      h | h | ⟨ending, n, h⟩ <;>
      rw [h] at hlike
    · rw [(Prod.mk.inj hlike).2, List.length_cons, Nat.add_comm]
    · cases hlike
    · cases ending <;> cases hlike
  have hname' := readName_colon hx hname t
  have hs := ne_backslash_of_readName hx hstart hname
  have hlike' : readIdentifierLike (c :: own ++ ':' :: t) =
      (.identifier (readName (c :: own ++ ':' :: t)).1, 1 + own.length) := by
    rw [readIdentifierLike_plain, hname', List.length_cons, Nat.add_comm]
    rw [hname', List.drop_left]
    rintro r ⟨⟩
  obtain ⟨d, u, rfl, hd⟩ := hx.exists_edge
  have hcolon : isEdge ':' = true := rfl
  rw [startsRange_edge hd] at hrange
  rw [arrow_edge hd] at harrow
  rw [startsIdentifier_alike hd hcolon hs u t] at hstart
  refine ⟨(readName (c :: own ++ ':' :: t)).1, ?_⟩
  rw [read_eq, hspace, startsRange_edge hcolon, hrange, ← List.cons_append,
    arrow_edge hcolon, harrow, hstart, hlike']
  rfl

end Lexeme

end OklchGate.Css
