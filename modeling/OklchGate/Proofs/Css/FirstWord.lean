import OklchGate.Proofs.Css.Tails

/-!
# The first word before an opening brace

Between a selector and its opening brace there may be any white space.
`Lexeme.Before` compares how the first word of a text is read before white space
and a brace with how it is read before one space and a brace.  It is the same
word unless it takes of the white space, which only a name does.

There are three groups.

* `Lexeme.readName_before`, and where a name ends before both tails.
* `Lexeme.Before`: names, functions and URLs, numbers, and a backslash before a
  line feed.
* `Lexeme.read_before`, which goes through the tests of `Lexeme.read_eq` in
  their order.
-/

namespace OklchGate.Css

namespace Lexeme

/-! ## Names before both tails -/

section Before

variable {w : Text} (hw : ∀ a ∈ w, isSpace a = true) (s rest t : Text)
include hw

/-- White space and an opening brace. -/
theorem tail_before : Tail (w ++ '\x7b' :: rest) := .append_space hw
    (.bound rest rfl)

omit hw in
/-- One space and an opening brace. -/
theorem tail_gate : Tail (' ' :: '\x7b' :: t) := .space rfl (.bound t rfl)

/-- The three things that a name can do before white space and a brace, compared
with one space and a brace. -/
theorem readName_before
    (hfit : (readName (s ++ (w ++ '\x7b' :: rest))).2 ≤ s.length + w.length) :
    (readName (s ++ (w ++ '\x7b' :: rest)) =
      readName (s ++ ' ' :: '\x7b' :: t) ∧
        (readName (s ++ (w ++ '\x7b' :: rest))).2 ≤ s.length) ∨
      (s.length ≤ (readName (s ++ (w ++ '\x7b' :: rest))).2 ∧
        (readName (s ++ ' ' :: '\x7b' :: t)).2 = s.length + 1) ∨
      ∃ front, s = front ++ ['\\'] ∧ w.head? = some '\n' ∧
        (readName (s ++ (w ++ '\x7b' :: rest))).2 = front.length ∧
        (readName (s ++ ' ' :: '\x7b' :: t)).2 = s.length + 1 := by
  rcases readName_tail s with
    ⟨answer, hle, h⟩ | ⟨name, h⟩ | ⟨front, hs, hbreak, hspace, hbound⟩
  · left
    rw [h _ (tail_before hw rest), h _ (tail_gate t)]
    exact ⟨rfl, hle⟩
  · right
    left
    rw [h _ (tail_before hw rest), h _ (tail_gate t)]
    exact ⟨Nat.le_add_right _ _, rfl⟩
  · right
    have hgate := hspace ' ' ('\x7b' :: t) rfl (by decide) (.bound t rfl)
    cases w with
    | nil =>
      have hlong := hbound '\x7b' rest rfl
      rw [List.nil_append] at hfit
      rw [List.length_nil] at hfit
      omega
    | cons c w =>
      rw [List.forall_mem_cons] at hw
      by_cases hc : c = '\n'
      · subst hc
        exact Or.inr ⟨front, hs, rfl, hbreak _ (tail_before hw.2 rest), hgate⟩
      · left
        have hlong :=
          hspace c (w ++ '\x7b' :: rest) hw.1 hc (tail_before hw.2 rest)
        rw [List.cons_append, hlong]
        exact ⟨Nat.le_succ _, hgate⟩

omit hw in
/-- Behind a part of a text before a tail there is no parenthesis unless the
text has one. -/
theorem drop_tail_ne {n : Nat} (hle : n ≤ s.length)
    (hparen : ∀ r, s.drop n ≠ '(' :: r) {x : Text} (hx : Tail x) (r : Text) :
    (s ++ x).drop n ≠ '(' :: r := by
  rw [List.drop_append_of_le_length hle]
  cases hcut : s.drop n with
  | nil =>
    obtain ⟨d, u, rfl, hedge⟩ := hx.exists_edge
    rintro ⟨⟩
    cases hedge
  | cons e left =>
    rintro ⟨⟩
    exact hparen left hcut

/-- Where a word after a name would go on, there is no parenthesis. -/
theorem drop_before_ne {n : Nat} (hle : s.length ≤ n)
    (hfit : n ≤ s.length + w.length) (r : Text) :
    (s ++ (w ++ '\x7b' :: rest)).drop n ≠ '(' :: r := by
  obtain ⟨k, rfl⟩ := Nat.exists_eq_add_of_le hle
  have hdrop : (w ++ '\x7b' :: rest).drop k = w.drop k ++ '\x7b' :: rest :=
    drop_seal (by omega) _ _
  obtain ⟨d, u, hd, hedge⟩ :=
    (tail_before (fun a ha => hw a (List.mem_of_mem_drop ha)) rest :
    Tail (w.drop k ++ '\x7b' :: rest)).exists_edge
  rw [List.drop_length_add_append, hdrop, hd]
  rintro ⟨⟩
  cases hedge

/-- A quote comes first after white space before both tails, or before none. -/
theorem startsQuoted_before :
    startsQuoted (s ++ (w ++ '\x7b' :: rest)) =
      startsQuoted (s ++ ' ' :: '\x7b' :: t) := by
  induction s with
  | nil =>
    have hdrop : (w ++ '\x7b' :: rest).dropWhile isSpace = '\x7b' :: rest := by
      rw [List.dropWhile_append_of_pos hw]
      rfl
    rw [List.nil_append, startsQuoted, hdrop]
    rfl
  | cons a s ih =>
    rw [startsQuoted, startsQuoted] at ih ⊢
    rw [List.cons_append, List.cons_append, List.dropWhile_cons,
      List.dropWhile_cons]
    by_cases ha : isSpace a = true
    · rw [if_pos ha, if_pos ha, ih]
    · rw [if_neg ha, if_neg ha]

end Before

/-! ## How the first word is read -/

/-- The kinds of words that hold a name or a number. -/
def Kind.isName : Kind → Bool
  | .identifier _ => true
  | .atKeyword _ => true
  | .hash _ => true
  | .numeric => true
  | _ => false

/-- The kind of an at-keyword. -/
def Kind.isAtKeyword : Kind → Bool
  | .atKeyword _ => true
  | _ => false

/-- How the first word of a text before white space and a brace is read before
one space and a brace. -/
inductive Before (own w : Text) (source gate : Kind × Nat) : Prop where
  /-- It is the same word. -/
  | inside (h : gate = source) (hle : source.2 ≤ own.length)
  /-- It is a name, and to the last escape in it the space belongs. -/
  | name (hsource : source.1.isName = true) (hgate : gate.1.isName = true)
      (hat : gate.1.isAtKeyword = source.1.isAtKeyword)
        (hlong : own.length ≤ source.2)
      (hlength : gate.2 = own.length + 1)
  /-- The backslash before a line feed is an escape before a space. -/
  | backslash (hbreak : w.head? = some '\n')
      (hsource : source.1.isName = true ∨
        (source.1 = .delimiter ∧ own.head? ≠ some ';'))
      (hgate : gate.1.isName = true)
      (hat : gate.1.isAtKeyword = true →
        source.1.isAtKeyword = true ∨ own = ['@', '\\'] ∨
          own = ['@', '-', '\\'])
      (hleft : own.drop source.2 ∈ [[], ['\\'], ['-', '\\']])
      (hlength : gate.2 = own.length + 1)

/-- The word ends before the brace, and it is no fault. -/
structure Fits (own w : Text) (source : Kind × Nat) : Prop where
  length : source.2 ≤ own.length + w.length
  url : source.1 ≠ .badUrl
  string : source.1 ≠ .badString

section Before

variable {w : Text} (hw : ∀ a ∈ w, isSpace a = true) {s rest : Text} (t : Text)
include hw

/-! ## Strings, URLs and comments -/

/-- How a string is read. -/
theorem before_of_readString {c : Char} (hquote : c = '"' ∨ c = '\'')
    (hfit : (readString c (s ++ (w ++ '\x7b' :: rest))).1 ≤ s.length + w.length)
    (hgood : (readString c (s ++ (w ++ '\x7b' :: rest))).2 ≠ .broken) :
    ∃ m, m ≤ s.length ∧ readString c (s ++ (w ++ '\x7b' :: rest)) =
      (m, .closed) ∧ readString c (s ++ ' ' :: '\x7b' :: t) = (m, .closed) := by
  have hc : isHexDigit c = false ∧ c ≠ '\n' ∧ c ≠ '\\' ∧ isSpace c = false := by
    rcases hquote with rfl | rfl <;> decide
  rcases hread : readString c (s ++ (w ++ '\x7b' :: rest)) with ⟨m, _ | _ | _⟩
  · rw [hread] at hfit
    obtain ⟨k, rfl, _, hk⟩ := readString_getElem? hread
    have hinside := lt_length_of_getElem? hw hc.2.2.2 hfit hk
    exact ⟨k + 1, hinside, rfl,
      readString_closed hc.1 hc.2.1 hc.2.2.1 hread hinside _⟩
  · rw [hread] at hfit
    have hend := readString_atEnd hread
    simp only [List.length_append, List.length_cons] at hfit hend
    omega
  · rw [hread] at hgood
    exact absurd rfl hgood

/-- How a URL is read. -/
theorem before_of_readUrl
    (hfit : (readUrl (s ++ (w ++ '\x7b' :: rest))).1 ≤ s.length + w.length)
    (hgood : (readUrl (s ++ (w ++ '\x7b' :: rest))).2 ≠ .broken) :
    ∃ m, m ≤ s.length ∧ readUrl (s ++ (w ++ '\x7b' :: rest)) = (m, .closed) ∧
      readUrl (s ++ ' ' :: '\x7b' :: t) = (m, .closed) := by
  rcases hread : readUrl (s ++ (w ++ '\x7b' :: rest)) with ⟨m, _ | _ | _⟩
  · rw [hread] at hfit
    obtain ⟨rfl, hlast⟩ := readUrl_eq_closed_iff.mp hread
    have hinside := lt_length_of_getElem? hw rfl hfit hlast
    exact ⟨_, hinside, rfl, readUrl_closed hread hinside _⟩
  · rw [hread] at hfit
    have hend := readUrl_atEnd hread
    simp only [List.length_append, List.length_cons] at hfit hend
    omega
  · rw [hread] at hgood
    exact absurd rfl hgood

/-- How a comment is read. -/
theorem before_of_readComment
    (hfit : (readComment (s ++ (w ++ '\x7b' :: rest))).1 ≤
      s.length + w.length) :
    ∃ m, m ≤ s.length ∧ readComment (s ++ (w ++ '\x7b' :: rest)) = (m, true) ∧
      readComment (s ++ ' ' :: '\x7b' :: t) = (m, true) := by
  rcases hread : readComment (s ++ (w ++ '\x7b' :: rest)) with ⟨m, _ | _⟩
  · rw [hread] at hfit
    have hend := readComment_open hread
    simp only [List.length_append, List.length_cons] at hfit hend
    omega
  · rw [hread] at hfit
    obtain ⟨n, rfl, _, hn⟩ := readComment_getElem? hread
    have hinside :=
      lt_length_of_getElem? hw rfl (by dsimp only at hfit; omega) hn
    exact ⟨n + 2, hinside, rfl, readComment_closed hread hinside _⟩

/-! ## Names and functions -/

/-- A name that ends before the tails is read alike before both of them, with
what follows a parenthesis after it. -/
theorem readIdentifierLike_inside
    (hsame : readName (s ++ (w ++ '\x7b' :: rest)) =
      readName (s ++ ' ' :: '\x7b' :: t))
    (hle : (readName (s ++ (w ++ '\x7b' :: rest))).2 ≤ s.length)
    (h : Fits s w (readIdentifierLike (s ++ (w ++ '\x7b' :: rest)))) :
    readIdentifierLike (s ++ ' ' :: '\x7b' :: t) =
        readIdentifierLike (s ++ (w ++ '\x7b' :: rest)) ∧
      (readIdentifierLike (s ++ (w ++ '\x7b' :: rest))).2 ≤ s.length := by
  have hle' : (readName (s ++ ' ' :: '\x7b' :: t)).2 ≤ s.length := hsame ▸ hle
  by_cases hparen : ∃ r, s.drop (readName (s ++ (w ++ '\x7b' :: rest))).2 =
    '(' :: r
  · obtain ⟨r, hr⟩ := hparen
    have hlength := congrArg List.length hr
    rw [List.length_drop, List.length_cons] at hlength
    have hdrop : (s ++ (w ++ '\x7b' :: rest)).drop
      (readName (s ++ (w ++ '\x7b' :: rest))).2 =
        '(' :: (r ++ (w ++ '\x7b' :: rest)) := by
      rw [List.drop_append_of_le_length hle, hr, List.cons_append]
    have hdropGate :
      (s ++ ' ' :: '\x7b' :: t).drop (readName (s ++ ' ' :: '\x7b' :: t)).2 =
        '(' :: (r ++ ' ' :: '\x7b' :: t) := by
      rw [List.drop_append_of_le_length hle', ← hsame, hr, List.cons_append]
    have hsource := readIdentifierLike_paren hdrop
    have hgate := readIdentifierLike_paren hdropGate
    rw [← hsame, ← startsQuoted_before hw r rest t] at hgate
    rw [hsource] at h
    rw [hsource, hgate]
    split
    · next hurl =>
      rw [if_pos hurl] at h
      have hfit : (readUrl (r ++ (w ++ '\x7b' :: rest))).1 ≤
          r.length + w.length := by
        have hshort := h.length
        dsimp only at hshort
        omega
      obtain ⟨m, hm, hread, hreadGate⟩ := before_of_readUrl hw t hfit
        fun hbroken => h.url (by rw [hbroken]; rfl)
      rw [hread, hreadGate]
      refine ⟨rfl, ?_⟩
      dsimp only
      omega
    · refine ⟨rfl, ?_⟩
      dsimp only
      omega
  · rw [readIdentifierLike_plain
      (drop_tail_ne s hle (not_exists.mp hparen) (tail_before hw rest)),
      readIdentifierLike_plain
        (drop_tail_ne s hle' (hsame ▸ not_exists.mp hparen) (tail_gate t)),
      hsame]
    exact ⟨rfl, hle'⟩

theorem readIdentifierLike_before
    (h : Fits s w (readIdentifierLike (s ++ (w ++ '\x7b' :: rest)))) :
    Before s w (readIdentifierLike (s ++ (w ++ '\x7b' :: rest)))
      (readIdentifierLike (s ++ ' ' :: '\x7b' :: t)) := by
  have hnameFit : (readName (s ++ (w ++ '\x7b' :: rest))).2 ≤
      s.length + w.length := by
    have hfit := h.length
    rcases readIdentifierLike_cases (s ++ (w ++ '\x7b' :: rest)) with
      h | h | ⟨ending, n, h⟩ <;>
      rw [h] at hfit <;> dsimp only at hfit <;> omega
  have hgatePlain : (readName (s ++ ' ' :: '\x7b' :: t)).2 = s.length + 1 →
      readIdentifierLike (s ++ ' ' :: '\x7b' :: t) =
        (.identifier (readName (s ++ ' ' :: '\x7b' :: t)).1, s.length + 1) := by
    intro h
    rw [readIdentifierLike_plain, h]
    intro r
    rw [h, List.drop_length_add_append]
    rintro ⟨⟩
  rcases readName_before hw s rest t hnameFit with
    ⟨hsame, hle⟩ | ⟨hlong, hgate⟩ |
    ⟨front, rfl, hbreak, hfront, hgate⟩
  · obtain ⟨hequal, hshort⟩ := readIdentifierLike_inside hw t hsame hle h
    exact .inside hequal hshort
  · have hsource :=
      readIdentifierLike_plain (drop_before_ne hw s rest hlong hnameFit)
    rw [hsource, hgatePlain hgate]
    exact .name rfl rfl rfl hlong rfl
  · have hsource :
      readIdentifierLike (front ++ ['\\'] ++ (w ++ '\x7b' :: rest)) =
        (.identifier (readName (front ++ ['\\'] ++ (w ++ '\x7b' :: rest))).1,
          front.length) := by
      rw [readIdentifierLike_plain, hfront]
      intro r
      rw [hfront, List.append_assoc, List.drop_left]
      rintro ⟨⟩
    rw [hsource, hgatePlain hgate]
    exact .backslash hbreak (Or.inl rfl) rfl (fun h => by cases h) (by simp) rfl

/-! ## Identifiers and numbers -/

omit hw in
/-- A backslash before white space and a brace is an escape unless a line feed
follows it. -/
theorem startsEscape_before :
    startsEscape ('\\' :: (w ++ '\x7b' :: rest)) = (w.head? != some '\n') := by
  cases w with
  | nil => rfl
  | cons c w =>
    rw [List.cons_append, startsEscape_backslash]
    rfl

/-- Whether an identifier starts somewhere before both tails differs only for a
backslash before a line feed. -/
theorem startsIdentifier_before :
    startsIdentifier (s ++ (w ++ '\x7b' :: rest)) =
      startsIdentifier (s ++ ' ' :: '\x7b' :: t) ∨
      (w.head? = some '\n' ∧ (s = ['\\'] ∨ s = ['-', '\\']) ∧
        startsIdentifier (s ++ (w ++ '\x7b' :: rest)) = false ∧
        startsIdentifier (s ++ ' ' :: '\x7b' :: t) = true) := by
  by_cases hs : s = ['\\'] ∨ s = ['-', '\\']
  · have hsource : startsIdentifier (s ++ (w ++ '\x7b' :: rest)) =
        (w.head? != some '\n') := by
      have hescape : startsEscape ('\\' :: (w ++ '\x7b' :: rest)) =
          (w.head? != some '\n') :=
        startsEscape_before
      rw [← hescape]
      rcases hs with rfl | rfl <;> rfl
    have hgate : startsIdentifier (s ++ ' ' :: '\x7b' :: t) = true := by
      rcases hs with rfl | rfl <;> rfl
    by_cases hbreak : w.head? = some '\n'
    · exact Or.inr ⟨hbreak, hs, by rw [hsource, hbreak]; rfl, hgate⟩
    · exact Or.inl (by rw [hsource, hgate]; exact bne_iff_ne.mpr hbreak)
  · left
    obtain ⟨d, u, hd, hedge⟩ := (tail_before hw rest).exists_edge
    rw [hd]
    exact startsIdentifier_alike hedge rfl (not_or.mp hs) u _

omit hw in
/-- A backslash before one space and a brace is an escape. -/
theorem readName_backslash (hs : s = ['\\'] ∨ s = ['-', '\\']) :
    (readName (s ++ ' ' :: '\x7b' :: t)).2 = s.length + 1 := by
  rcases hs with rfl | rfl <;> rfl

theorem numberLength_before :
    numberLength (s ++ (w ++ '\x7b' :: rest)) = numberLength s := by
  obtain ⟨d, u, hd, hedge⟩ := (tail_before hw rest).exists_edge
  rw [hd, numberLength_halt (isHalt_of_isEdge hedge)]

theorem readNumeric?_none_before
    (h : readNumeric? (s ++ (w ++ '\x7b' :: rest)) = none) :
    readNumeric? (s ++ ' ' :: '\x7b' :: t) = none := by
  have hgate := numberLength_halt (isHalt_of_isEdge (d := ' ') rfl) s
    ('\x7b' :: t)
  rw [readNumeric?, Option.map_eq_none_iff, numberLength_before hw] at h
  rw [readNumeric?, Option.map_eq_none_iff, hgate, h]

/-- How a number with its unit is read. -/
theorem readNumeric?_before {answer : Kind × Nat}
    (hsource : readNumeric? (s ++ (w ++ '\x7b' :: rest)) = some answer)
    (hfit : answer.2 ≤ s.length + w.length) :
    ∃ gate, readNumeric? (s ++ ' ' :: '\x7b' :: t) = some gate ∧
      Before s w answer gate := by
  have hgateNumber :=
    numberLength_halt (isHalt_of_isEdge (d := ' ') rfl) s ('\x7b' :: t)
  rw [readNumeric?, Option.map_eq_some_iff, numberLength_before hw] at hsource
  obtain ⟨n, hnumber, rfl⟩ := hsource
  have hn := numberLength_le hnumber
  have hdrop : ∀ z, (s ++ z).drop n = s.drop n ++ z :=
    fun z => List.drop_append_of_le_length hn
  have hlength := List.length_drop (i := n) (l := s)
  refine ⟨_, by rw [readNumeric?, hgateNumber, hnumber, Option.map_some], ?_⟩
  simp only [hdrop] at hfit ⊢
  generalize hr : s.drop n = r at hfit hlength ⊢
  have hstart : startsIdentifier (r ++ (w ++ '\x7b' :: rest)) =
      startsIdentifier (r ++ ' ' :: '\x7b' :: t) ∨ _ :=
        startsIdentifier_before hw t
  rcases hstart with hsame | ⟨hbreak, hcases, hfalse, htrue⟩
  · rw [← hsame]
    by_cases hstart : startsIdentifier (r ++ (w ++ '\x7b' :: rest)) = true
    · rw [if_pos hstart] at hfit ⊢
      rw [if_pos hstart]
      rcases readName_before hw r rest t (by omega) with
        ⟨hname, hle⟩ | ⟨hlong, hgate⟩ |
        ⟨front, hfront, hbreak, hname, hgate⟩
      · refine .inside (by rw [hname]) ?_
        dsimp only
        omega
      · refine .name rfl rfl rfl ?_ ?_ <;> dsimp only <;> omega
      · refine .backslash hbreak (Or.inl rfl) rfl (fun h => by cases h) ?_ ?_
        · dsimp only
          rw [← List.drop_drop, hr, hname, hfront, List.drop_left]
          simp
        · dsimp only
          omega
    · rw [if_neg hstart, if_neg hstart]
      cases r with
      | nil =>
        obtain ⟨d, u, hd, hedge⟩ := (tail_before hw rest).exists_edge
        have hpercent : d ≠ '%' := by
          rintro rfl
          cases hedge
        rw [List.nil_append, List.nil_append, hd]
        refine .inside (by simp [hpercent]) ?_
        simpa [hpercent] using hn
      | cons e r =>
        refine .inside rfl ?_
        rw [List.length_cons] at hlength
        dsimp only
        split <;> omega
  · have hhead : (r ++ (w ++ '\x7b' :: rest)).head? ≠ some '%' := by
      rcases hcases with rfl | rfl <;> simp
    rw [hfalse, htrue, if_neg Bool.false_ne_true, if_neg hhead, if_pos rfl]
    refine .backslash hbreak (Or.inl rfl) rfl (fun h => by cases h) ?_ ?_
    · dsimp only
      rw [Nat.add_zero, hr]
      rcases hcases with rfl | rfl <;> simp
    · have hname := readName_backslash t hcases
      dsimp only
      omega

/-! ## Marks -/

omit hw in
/-- White space in front of other characters ends at these. -/
theorem spaceLength_of_exists (hlast : ∃ a ∈ s, isSpace a = false) (z : Text) :
    spaceLength (s ++ z) = spaceLength s := by
  rw [spaceLength, spaceLength]
  induction s with
  | nil => simp at hlast
  | cons a s ih =>
    rw [List.cons_append, List.takeWhile_cons, List.takeWhile_cons]
    by_cases ha : isSpace a = true
    · rw [if_pos ha, if_pos ha, List.length_cons, List.length_cons, ih]
      obtain ⟨b, hb, hspace⟩ := hlast
      rcases List.mem_cons.mp hb with rfl | hb
      · rw [ha] at hspace
        cases hspace
      · exact ⟨b, hb, hspace⟩
    · rw [if_neg ha, if_neg ha]

/-- Where a hash starts before both tails differs only for a backslash before a
line feed. -/
theorem startsHash_before :
    startsHash (s ++ (w ++ '\x7b' :: rest)) =
      startsHash (s ++ ' ' :: '\x7b' :: t) ∨
      (w.head? = some '\n' ∧ s = ['\\']) := by
  obtain ⟨d, u, hd, hedge⟩ := (tail_before hw rest).exists_edge
  match s with
  | [] =>
    left
    have hname : isNameChar d = false :=
      edge_false hedge ⟨rfl, rfl, rfl⟩ ⟨rfl, rfl, rfl⟩
    have hslash : d ≠ '\\' := by
      rintro rfl
      cases hedge
    rw [List.nil_append, List.nil_append, hd, startsHash, List.head?_cons,
      Option.any_some, hname, startsEscape_cons hslash]
    rfl
  | [a] =>
    by_cases hslash : a = '\\'
    · subst hslash
      by_cases hbreak : w.head? = some '\n'
      · exact Or.inr ⟨hbreak, rfl⟩
      · left
        have hsource : startsEscape ('\\' :: (w ++ '\x7b' :: rest)) =
            (w.head? != some '\n') :=
          startsEscape_before
        have hescape : (w.head? != some '\n') = true := bne_iff_ne.mpr hbreak
        rw [List.singleton_append, List.singleton_append, startsHash, hsource,
          hescape]
        rfl
    · left
      rw [List.singleton_append, List.singleton_append, startsHash, startsHash,
        startsEscape_cons hslash, startsEscape_cons hslash]
      rfl
  | a :: b :: s =>
    left
    by_cases hslash : a = '\\'
    · subst hslash
      simp only [startsHash, List.cons_append, startsEscape_backslash]
      rfl
    · simp only [startsHash, List.cons_append, startsEscape_cons hslash]
      rfl

/-- The texts that end in a backslash which is no escape before a line feed, and
the escape of which a name starts with before a space. -/
def deadTexts : List Text :=
  [['\\'], ['-', '\\'], ['@', '\\'], ['@', '-', '\\'], ['#', '\\']]

omit hw in
/-- A backslash before a line feed and what stands before it are delimiters. -/
theorem read_dead {c : Char} (h : c :: s ∈ deadTexts) (z : Text) :
    read c (s ++ '\n' :: z) = (.delimiter, 1) := by
  simp only [deadTexts, List.mem_cons, List.not_mem_nil, or_false,
    List.cons.injEq] at h
  rcases h with ⟨rfl, rfl⟩ | ⟨rfl, rfl⟩ | ⟨rfl, rfl⟩ | ⟨rfl, rfl⟩ | ⟨rfl,
    rfl⟩ <;> rfl

omit hw in
/-- Before a space they are a name. -/
theorem read_dead_gate {c : Char} (h : c :: s ∈ deadTexts) :
    (read c (s ++ ' ' :: '\x7b' :: t)).1.isName = true ∧
      (read c (s ++ ' ' :: '\x7b' :: t)).2 = (c :: s).length + 1 ∧
      (read c (s ++ ' ' :: '\x7b' :: t)).1.isAtKeyword = decide (c = '@') := by
  simp only [deadTexts, List.mem_cons, List.not_mem_nil, or_false,
    List.cons.injEq] at h
  rcases h with ⟨rfl, rfl⟩ | ⟨rfl, rfl⟩ | ⟨rfl, rfl⟩ | ⟨rfl, rfl⟩ | ⟨rfl,
    rfl⟩ <;>
    exact ⟨rfl, rfl, rfl⟩

theorem before_of_dead {c : Char} (h : c :: s ∈ deadTexts)
    (hbreak : w.head? = some '\n') :
    Before (c :: s) w (read c (s ++ (w ++ '\x7b' :: rest)))
      (read c (s ++ ' ' :: '\x7b' :: t)) := by
  obtain ⟨w', rfl⟩ : ∃ w', w = '\n' :: w' := List.head?_eq_some_iff.mp hbreak
  obtain ⟨hname, hlength, hat⟩ := read_dead_gate t h
  rw [List.cons_append, read_dead h]
  refine .backslash rfl (Or.inr ⟨rfl, ?_⟩) hname (fun hgate => Or.inr ?_)
    ?_ hlength
  all_goals
    simp only [deadTexts, List.mem_cons, List.not_mem_nil, or_false,
      List.cons.injEq] at h
  · rcases h with ⟨rfl, rfl⟩ | ⟨rfl, rfl⟩ | ⟨rfl, rfl⟩ | ⟨rfl, rfl⟩ | ⟨rfl,
      rfl⟩ <;> decide
  · have hc : c = '@' := by simpa [hat] using hgate
    rcases h with ⟨rfl, rfl⟩ | ⟨rfl, rfl⟩ | ⟨rfl, rfl⟩ | ⟨rfl, rfl⟩ | ⟨rfl,
      rfl⟩ <;>
      simp_all
  · rcases h with ⟨rfl, rfl⟩ | ⟨rfl, rfl⟩ | ⟨rfl, rfl⟩ | ⟨rfl, rfl⟩ | ⟨rfl,
      rfl⟩ <;> simp

/-- How a mark with a name after it is read. -/
theorem before_of_readName {c : Char} {kind : Text → Kind} {isAt : Bool}
    (hkind : ∀ name, (kind name).isName = true ∧ (kind name).isAtKeyword = isAt)
    (hfit : 1 + (readName (s ++ (w ++ '\x7b' :: rest))).2 ≤ (c :: s).length +
      w.length) :
    Before (c :: s) w
      (kind (readName (s ++ (w ++ '\x7b' :: rest))).1,
        1 + (readName (s ++ (w ++ '\x7b' :: rest))).2)
      (kind (readName (s ++ ' ' :: '\x7b' :: t)).1,
        1 + (readName (s ++ ' ' :: '\x7b' :: t)).2) := by
  rw [List.length_cons] at hfit
  rcases readName_before hw s rest t (by omega) with
    ⟨hname, hle⟩ | ⟨hlong, hgate⟩ |
    ⟨front, hfront, hbreak, hname, hgate⟩
  · refine .inside (by rw [hname]) ?_
    rw [List.length_cons]
    dsimp only
    omega
  · refine .name (hkind _).1 (hkind _).1 ((hkind _).2.trans (hkind _).2.symm)
      ?_ ?_ <;>
      rw [List.length_cons] <;> dsimp only <;> omega
  · refine .backslash hbreak (Or.inl (hkind _).1) (hkind _).1
      (fun h => Or.inl ?_) ?_ ?_
    · rw [(hkind _).2] at h ⊢
      exact h
    · dsimp only
      rw [hname, Nat.add_comm, List.drop_succ_cons, hfront, List.drop_left]
      simp
    · rw [List.length_cons]
      dsimp only
      omega

/-! ## The tests in their order -/

section Live

variable {c : Char} (hlive : ¬ (c :: s ∈ deadTexts ∧ w.head? = some '\n'))
include hlive

theorem startsIdentifier_live :
    startsIdentifier (c :: (s ++ (w ++ '\x7b' :: rest))) =
      startsIdentifier (c :: (s ++ ' ' :: '\x7b' :: t)) := by
  have hcases : startsIdentifier (c :: s ++ (w ++ '\x7b' :: rest)) =
      startsIdentifier (c :: s ++ ' ' :: '\x7b' :: t) ∨ _ :=
        startsIdentifier_before hw t
  rcases hcases with h | ⟨hbreak, hown, _⟩
  · exact h
  · refine absurd ⟨?_, hbreak⟩ hlive
    rcases hown with hown | hown <;> rw [hown] <;> simp [deadTexts]

theorem startsAtKeyword_live :
    (c = '@' && startsIdentifier (s ++ (w ++ '\x7b' :: rest))) =
      (c = '@' && startsIdentifier (s ++ ' ' :: '\x7b' :: t)) := by
  have hcases : startsIdentifier (s ++ (w ++ '\x7b' :: rest)) =
      startsIdentifier (s ++ ' ' :: '\x7b' :: t) ∨ _ :=
        startsIdentifier_before hw t
  rcases hcases with h | ⟨hbreak, hown, _⟩
  · rw [h]
  · have hc : c ≠ '@' := by
      rintro rfl
      refine absurd ⟨?_, hbreak⟩ hlive
      rcases hown with rfl | rfl <;> simp [deadTexts]
    rw [decide_eq_false hc, Bool.false_and, Bool.false_and]

theorem startsHash_live :
    (c = '#' && startsHash (s ++ (w ++ '\x7b' :: rest))) =
      (c = '#' && startsHash (s ++ ' ' :: '\x7b' :: t)) := by
  have hcases : startsHash (s ++ (w ++ '\x7b' :: rest)) = _ ∨ _ :=
    startsHash_before hw t
  rcases hcases with h | ⟨hbreak, rfl⟩
  · rw [h]
  · have hc : c ≠ '#' := by
      rintro rfl
      exact absurd ⟨by simp [deadTexts], hbreak⟩ hlive
    rw [decide_eq_false hc, Bool.false_and, Bool.false_and]

end Live

omit hw in
/-- A Unicode range ends before a halt. -/
theorem rangeLength_halt {c d : Char} (hd : isHalt d = true)
    (h : startsRange c s = true) (u : Text) :
    unicodeRangeLength ((s ++ d :: u).drop 1) =
      unicodeRangeLength (s.drop 1) := by
  cases s with
  | nil => simp [startsRange] at h
  | cons e s => exact unicodeRangeLength_halt hd s u

omit hw in
theorem rangeLength_le {c : Char} (h : startsRange c s = true) :
    2 + unicodeRangeLength (s.drop 1) ≤ (c :: s).length := by
  cases s with
  | nil => simp [startsRange] at h
  | cons e s =>
    have hle := unicodeRangeLength_le s
    rw [List.length_cons, List.length_cons, List.drop_succ_cons, List.drop_zero]
    omega

/-- What is read at a mark is the same before both tails. -/
theorem readMark_before {c : Char}
    (h : Fits (c :: s) w (readMark c (s ++ (w ++ '\x7b' :: rest)))) :
    readMark c (s ++ ' ' :: '\x7b' :: t) =
      readMark c (s ++ (w ++ '\x7b' :: rest)) ∧
      (readMark c (s ++ (w ++ '\x7b' :: rest))).2 ≤ (c :: s).length := by
  have hmark : ∀ z, Tail z →
      ['/', '*'].isPrefixOf (c :: (s ++ z)) =
        ['/', '*'].isPrefixOf (c :: s) := by
    intro z hz
    cases s with
    | nil =>
      obtain ⟨d, u, rfl, hedge⟩ := hz.exists_edge
      have hne : '*' ≠ d := by
        rintro rfl
        cases hedge
      simp [List.isPrefixOf, hne]
    | cons e s => rfl
  have hdelimiter : ∀ z, Tail z → delimiterLength (c :: (s ++ z)) =
      delimiterLength (c :: s) := by
    intro z hz
    obtain ⟨d, u, rfl, hedge⟩ := hz.exists_edge
    exact delimiterLength_halt (isHalt_of_isEdge hedge) s u c
  revert h
  unfold readMark
  rw [hmark _ (tail_before hw rest), hmark _ (tail_gate t),
    hdelimiter _ (tail_before hw rest), hdelimiter _ (tail_gate t)]
  split
  · exact fun _ => ⟨rfl, Nat.le_add_left 1 _⟩
  · exact fun _ => ⟨rfl, Nat.le_add_left 1 _⟩
  split
  · next hquote =>
    intro h
    have hfit : (readString c (s ++ (w ++ '\x7b' :: rest))).1 ≤
        s.length + w.length := by
      have hshort := h.length
      rw [List.length_cons] at hshort
      dsimp only at hshort
      omega
    rw [List.length_cons]
    obtain ⟨m, hm, hread, hreadGate⟩ :=
      before_of_readString hw t (by simpa using hquote) hfit
      fun hbroken => h.string (by rw [hbroken]; rfl)
    rw [hread, hreadGate]
    refine ⟨rfl, ?_⟩
    dsimp only
    omega
  split
  · next hcomment =>
    intro h
    cases s with
    | nil => simp [List.isPrefixOf] at hcomment
    | cons e s =>
      have hfit : (readComment (s ++ (w ++ '\x7b' :: rest))).1 ≤
          s.length + w.length := by
        have hshort := h.length
        rw [List.length_cons, List.length_cons] at hshort
        simp only [List.cons_append, List.drop_succ_cons,
          List.drop_zero] at hshort
        omega
      rw [List.length_cons, List.length_cons]
      simp only [List.cons_append, List.drop_succ_cons, List.drop_zero]
      obtain ⟨m, hm, hread, hreadGate⟩ := before_of_readComment hw t hfit
      rw [hread, hreadGate]
      refine ⟨rfl, ?_⟩
      dsimp only
      omega
  · exact fun _ => ⟨rfl, delimiterLength_le c s⟩

/-- What is read where no space, range, arrow, identifier or number starts. -/
theorem readSign_before {c : Char}
    (hlive : ¬ (c :: s ∈ deadTexts ∧ w.head? = some '\n'))
    (h : Fits (c :: s) w (readSign c (s ++ (w ++ '\x7b' :: rest)))) :
    Before (c :: s) w (readSign c (s ++ (w ++ '\x7b' :: rest)))
      (readSign c (s ++ ' ' :: '\x7b' :: t)) := by
  revert h
  unfold readSign
  rw [startsAtKeyword_live hw t hlive, startsHash_live hw t hlive]
  split
  · exact fun h => before_of_readName hw t (fun name => ⟨rfl, (rfl : _ = true)⟩)
      h.length
  split
  · exact fun h =>
      before_of_readName hw t (fun name => ⟨rfl, (rfl : _ = false)⟩) h.length
  · intro h
    obtain ⟨hequal, hshort⟩ := readMark_before hw t h
    exact .inside hequal hshort

/-- The three things that the first word can do before white space and a brace,
compared with one space and a brace. -/
theorem read_before {c : Char} (hlast : ∃ a ∈ c :: s, isSpace a = false)
    (h : Fits (c :: s) w (read c (s ++ (w ++ '\x7b' :: rest)))) :
    Before (c :: s) w (read c (s ++ (w ++ '\x7b' :: rest)))
      (read c (s ++ ' ' :: '\x7b' :: t)) := by
  by_cases hlive : c :: s ∈ deadTexts ∧ w.head? = some '\n'
  · exact before_of_dead hw t hlive.1 hlive.2
  obtain ⟨d, u, hd, hedge⟩ := (tail_before hw rest).exists_edge
  have hspace : ∀ z, spaceLength (c :: (s ++ z)) = spaceLength (c :: s) :=
    spaceLength_of_exists (s := c :: s) hlast
  have harrow : ∀ d u, isEdge d = true →
    ['-', '-', '>'].isPrefixOf (c :: (s ++ d :: u)) =
      ['-', '-', '>'].isPrefixOf (c :: s) :=
        fun d u hedge => arrow_edge (s := c :: s) hedge u
  have hstart : startsIdentifier (c :: (s ++ (w ++ '\x7b' :: rest))) =
      startsIdentifier (c :: (s ++ ' ' :: '\x7b' :: t)) :=
        startsIdentifier_live hw t hlive
  revert h
  rw [read_eq, read_eq, hstart, hspace, hspace]
  rw [hd, startsRange_edge hedge, harrow d u hedge, ← hd, startsRange_edge rfl,
    harrow ' ' _ rfl]
  split
  · exact fun _ => .inside rfl (length_takeWhile_le _)
  split
  · next hrange =>
    intro _
    rw [hd, rangeLength_halt (isHalt_of_isEdge hedge) hrange,
      rangeLength_halt rfl hrange]
    exact .inside rfl (rangeLength_le hrange)
  split
  · next harrow =>
    exact fun _ => .inside rfl (List.isPrefixOf_iff_prefix.mp harrow).length_le
  split
  · exact readIdentifierLike_before hw (s := c :: s) t
  cases hnumeric : readNumeric? (c :: (s ++ (w ++ '\x7b' :: rest))) with
  | some answer =>
    intro h
    obtain ⟨gate, hgate, hbefore⟩ :=
      readNumeric?_before hw (s := c :: s) t hnumeric h.length
    rw [List.cons_append] at hgate
    rw [hgate]
    exact hbefore
  | none =>
    have hgate := readNumeric?_none_before hw (s := c :: s) t hnumeric
    rw [List.cons_append] at hgate
    rw [hgate]
    exact readSign_before hw t hlive

/-- White space before a brace is one word. -/
theorem read_space_before {c : Char} (hc : isSpace c = true) :
    read c (w ++ '\x7b' :: rest) = (.space, 1 + w.length) := by
  have hall : ∀ a ∈ c :: w, isSpace a = true :=
    List.forall_mem_cons.mpr ⟨hc, hw⟩
  have hlength : spaceLength (c :: (w ++ '\x7b' :: rest)) = 1 + w.length := by
    rw [← List.cons_append, spaceLength, List.takeWhile_append_of_pos hall,
      List.length_append, List.length_cons, Nat.add_comm 1]
    rfl
  rw [read]
  dsimp only
  rw [if_pos hc, hlength]

end Before

end Lexeme

end OklchGate.Css
