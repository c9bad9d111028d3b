import OklchGate.Proofs.Css.Splices

/-!
# Words before white space

White space or a bound, which is an opening brace, a colon or a slash, ends a
word. What is read before such a tail is the same for all tails, with two
exceptions.  The space after a hexadecimal escape belongs to the escape, and a
backslash before a line feed is no escape, although it is one before a space.

There are four groups.

* `Tail`, and `isEdge` for the character that it starts with.
* `readName_tail`, the three things that a name can do before a tail.
* Strings, URLs and comments: one that is closed does not depend on what follows
  it.
* `Lexeme.startsIdentifier_alike`, `Lexeme.startsRange_edge` and
  `Lexeme.arrow_edge`: what starts at a place is the same before all edges, a
  backslash at the end apart.
-/

namespace OklchGate.Css

/-! ## Tails -/

/-- A character that is a word by itself after white space. -/
def isBound (c : Char) : Bool := c = '\x7b' || c = ':' || c = '/'

/-- White space and then a bound. -/
inductive Tail : Text → Prop where
  | bound {d : Char} (t : Text) (hd : isBound d = true) : Tail (d :: t)
  | space {c : Char} {x : Text} (hc : isSpace c = true) (hx : Tail x) :
    Tail (c :: x)

/-- White space or a bound. -/
def isEdge (c : Char) : Bool := isSpace c || isBound c

theorem edge_cases {d : Char} (hd : isEdge d = true) :
    (d = ' ' ∨ d = '\n' ∨ d = '\t') ∨ d = '\x7b' ∨ d = ':' ∨ d = '/' := by
  simpa [isEdge, isSpace, isBound, or_assoc] using hd

/-- What holds of white space and of the bounds holds of every edge. -/
theorem edge_false {p : Char → Bool} {d : Char} (hd : isEdge d = true)
    (hspace : p ' ' = false ∧ p '\n' = false ∧ p '\t' = false)
    (hbound : p '\x7b' = false ∧ p ':' = false ∧ p '/' = false) :
    p d = false := by
  rcases edge_cases hd with (rfl | rfl | rfl) | rfl | rfl | rfl
  · exact hspace.1
  · exact hspace.2.1
  · exact hspace.2.2
  · exact hbound.1
  · exact hbound.2.1
  · exact hbound.2.2

theorem isHalt_of_isEdge {d : Char} (hd : isEdge d = true) :
    isHalt d = true := by
  rcases edge_cases hd with (rfl | rfl | rfl) | rfl | rfl | rfl <;> rfl

/-- A tail starts with an edge. -/
theorem Tail.exists_edge {x : Text} (h : Tail x) :
    ∃ d t, x = d :: t ∧ isEdge d = true := by
  cases h with
  | bound t hd => exact ⟨_, t, rfl, by rw [isEdge, hd, Bool.or_true]⟩
  | space hc _ => exact ⟨_, _, rfl, by rw [isEdge, hc, Bool.true_or]⟩

/-- White space before a tail makes a tail. -/
theorem Tail.append_space {w x : Text} (hw : ∀ c ∈ w, isSpace c = true)
    (hx : Tail x) :
    Tail (w ++ x) := by
  induction w with
  | nil => exact hx
  | cons c w ih =>
    rw [List.forall_mem_cons] at hw
    exact .space hw.1 (ih hw.2)

/-- How much of a tail an escape before it takes. -/
def spaceTaken : Text → Nat
  | [] => 0
  | c :: _ => if isSpace c then 1 else 0

/-! ## Escapes and names -/

/-- One step of reading a name. -/
def nameStep (c : Char) (rest : Text) : Option (Char × Nat) :=
  if isNameChar c then some (c, 0)
  else if startsEscape (c :: rest) then some (readEscape rest)
  else none

theorem readName_eq (text : Text) : readName text = Pieces.run nameStep text :=
  rfl

theorem startsEscape_cons {c : Char} (hc : c ≠ '\\') (rest : Text) :
    startsEscape (c :: rest) = false := by
  simp [startsEscape, hc]

theorem startsEscape_backslash (c : Char) (rest : Text) :
    startsEscape ('\\' :: c :: rest) = (c != '\n') := by
  by_cases hc : c = '\n'
  · simp [startsEscape, hc]
  · simp [startsEscape, hc]

theorem nameStep_edge {d : Char} (hd : isEdge d = true) (t : Text) :
    nameStep d t = none := by
  have hname : isNameChar d = false :=
    edge_false hd ⟨rfl, rfl, rfl⟩ ⟨rfl, rfl, rfl⟩
  have hslash : d ≠ '\\' := by
    rintro rfl
    cases hd
  rw [nameStep, hname, startsEscape_cons hslash]
  rfl

/-- No name goes on with a tail. -/
theorem run_nameStep_tail {x : Text} (hx : Tail x) :
    Pieces.run nameStep x = ([], 0) := by
  obtain ⟨d, t, rfl, hd⟩ := hx.exists_edge
  rw [Pieces.run, Pieces.runAfter, nameStep_edge hd]

/-- An escape takes one white-space character of a tail, if it takes anything of
it. -/
theorem run_nameStep_taken {x : Text} (hx : Tail x) :
    (Pieces.runAfter nameStep (spaceTaken x) x) = ([], spaceTaken x) := by
  cases hx with
  | @bound d t hd =>
    have hspace : isSpace d = false := by
      simp only [isBound, Bool.or_eq_true, decide_eq_true_eq] at hd
      rcases hd with (rfl | rfl) | rfl <;> rfl
    rw [spaceTaken, hspace]
    exact run_nameStep_tail (.bound t hd)
  | @space c x hc hx =>
    have hrest : Pieces.runAfter nameStep 0 x = ([], 0) := run_nameStep_tail hx
    rw [spaceTaken, if_pos hc, Pieces.runAfter, hrest]

/-- An escape before a tail ends before it, or it takes the space at its
start. -/
theorem readEscape_tail {r : Text} (hr : r ≠ []) :
    (∃ answer : Char × Nat, answer.2 ≤ r.length ∧ ∀ x, Tail x →
      readEscape (r ++ x) = answer) ∨
      ∃ c, ∀ x, Tail x → readEscape (r ++ x) =
        (c, r.length + spaceTaken x) := by
  have hdigits : ∀ x, Tail x →
      ((r ++ x).take 6).takeWhile isHexDigit =
        (r.take 6).takeWhile isHexDigit := by
    intro x hx
    obtain ⟨d, t, rfl, hd⟩ := hx.exists_edge
    exact takeWhile_take_seal (isHexDigit_halt (isHalt_of_isEdge hd)) 6 r t
  have hlength : ((r.take 6).takeWhile isHexDigit).length ≤ r.length :=
    Nat.le_trans (length_takeWhile_le _) (List.length_take_le' 6 r)
  obtain ⟨digits, hdigitsEq⟩ :
      ∃ digits, digits = (r.take 6).takeWhile isHexDigit := ⟨_, rfl⟩
  rw [← hdigitsEq] at hdigits hlength
  cases hempty : digits.isEmpty with
  | true =>
    left
    obtain ⟨a, r', rfl⟩ := List.exists_cons_of_ne_nil hr
    refine ⟨(a, 1), by simp, fun x hx => ?_⟩
    unfold readEscape
    simp only [hdigits x hx, hempty]
    rfl
  | false =>
    rcases Nat.lt_or_ge digits.length r.length with hlt | hge
    · left
      obtain ⟨a, rest, hrest⟩ : ∃ a rest, r.drop digits.length = a :: rest :=
        List.exists_cons_of_ne_nil (by simpa using hlt)
      refine ⟨(charOfCodePoint
        (digits.foldl (fun n c => 16 * n + hexDigitValue c) 0),
        digits.length + if isSpace a then 1 else 0), ?_, fun x hx => ?_⟩
      · dsimp only
        split <;> omega
      · unfold readEscape
        simp [hdigits x hx, hempty, List.drop_append_of_le_length hlength,
          hrest]
    · right
      refine ⟨charOfCodePoint
        (digits.foldl (fun n c => 16 * n + hexDigitValue c) 0), fun x hx => ?_⟩
      have hr : r.drop digits.length = [] := List.drop_eq_nil_of_le hge
      unfold readEscape
      simp only [hdigits x hx, hempty, List.drop_append_of_le_length hlength,
        hr, List.nil_append]
      rw [Nat.le_antisymm hlength hge]
      cases x <;> rfl

/-- What the reading of a name takes of a text `s` before a tail. -/
inductive NameEnd (read : Text → Text × Nat) (s : Text) : Prop where
  /-- The name ends by itself. -/
  | inside (answer : Text × Nat) (hle : answer.2 ≤ s.length)
      (h : ∀ x, Tail x → read (s ++ x) = answer)
  /-- The name ends in a hexadecimal escape, to which one more space belongs. -/
  | escape (name : Text)
      (h : ∀ x, Tail x → read (s ++ x) = (name, s.length + spaceTaken x))
  /-- The name comes to a backslash at the end, which is an escape unless a line
  feed follows. -/
  | backslash (front : Text) (hs : s = front ++ ['\\'])
      (hbreak : ∀ x, Tail x → (read (s ++ '\n' :: x)).2 = front.length)
      (hspace : ∀ c x, isSpace c = true → c ≠ '\n' → Tail x →
        (read (s ++ c :: x)).2 = s.length + 1)
      (hbound : ∀ d t, isBound d = true → s.length < (read (s ++ d :: t)).2)

/-- One more character before the text. -/
theorem NameEnd.cons {read next : Text → Text × Nat} {s : Text} {a : Char}
    {f : Text → Text}
    (hnext : ∀ x, Tail x → next (a :: (s ++ x)) =
      (f (read (s ++ x)).1, (read (s ++ x)).2 + 1))
    (h : NameEnd read s) : NameEnd next (a :: s) := by
  cases h with
  | inside answer hle h =>
    refine .inside (f answer.1, answer.2 + 1) (Nat.succ_le_succ hle) fun x hx =>
      ?_
    rw [List.cons_append, hnext x hx, h x hx]
  | escape name h =>
    refine .escape (f name) fun x hx => ?_
    rw [List.cons_append, hnext x hx, h x hx, List.length_cons]
    simp only [Prod.mk.injEq, true_and]
    omega
  | backslash front hs hbreak hspace hbound =>
    refine .backslash (a :: front) (by rw [hs, List.cons_append])
      (fun x hx => ?_)
      (fun c x hc hne hx => ?_) fun d t hd => ?_
    · rw [List.cons_append, hnext _ (.space rfl hx)]
      simp [hbreak x hx]
    · rw [List.cons_append, hnext _ (.space hc hx)]
      simp [hspace c x hc hne hx]
    · rw [List.cons_append, hnext _ (.bound t hd)]
      simpa using hbound d t hd

/-- A backslash before a tail is an escape unless a line feed follows it. -/
theorem nameEnd_backslash : NameEnd (Pieces.runAfter nameStep 0) ['\\'] := by
  have hname : isNameChar '\\' = false := rfl
  have hescape : ∀ c rest, isEdge c = true → c ≠ '\n' →
      nameStep '\\' (c :: rest) = some (c, 1) := by
    intro c rest hc hne
    have hhex := isHexDigit_halt (isHalt_of_isEdge hc)
    rw [nameStep, hname, startsEscape_backslash]
    simp [hne, readEscape, hhex]
  refine .backslash [] rfl (fun x hx => ?_) (fun c x hc hne hx => ?_)
    fun d t hd => ?_
  · rfl
  · have hrest : Pieces.runAfter nameStep 0 x = ([], 0) := run_nameStep_tail hx
    rw [List.singleton_append, Pieces.runAfter,
      hescape c x (by rw [isEdge, hc, Bool.true_or]) hne]
    simp [Pieces.runAfter, hrest]
  · have hne : d ≠ '\n' := by
      rintro rfl
      cases hd
    rw [List.singleton_append, Pieces.runAfter,
      hescape d t (by rw [isEdge, hd, Bool.or_true]) hne]
    simp [Pieces.runAfter]

/-- The three things that a name can do before a tail. -/
theorem nameEnd_runAfter {skip : Nat} {s : Text} (h : skip ≤ s.length) :
    NameEnd (Pieces.runAfter nameStep skip) s := by
  induction s generalizing skip with
  | nil =>
    obtain rfl : skip = 0 := Nat.le_zero.mp h
    exact .inside ([], 0) (Nat.le_refl 0) fun x hx => run_nameStep_tail hx
  | cons a r ih =>
    cases skip with
    | succ skip =>
      exact (ih (Nat.le_of_succ_le_succ h)).cons (f := id) fun x _ => rfl
    | zero =>
      by_cases hname : isNameChar a = true
      · refine (ih (Nat.zero_le _)).cons (f := (a :: ·)) fun x _ => ?_
        rw [Pieces.runAfter, nameStep, if_pos hname]
      have hstep : ∀ rest, nameStep a rest =
          if startsEscape (a :: rest) then some (readEscape rest)
          else none := by
        intro rest
        rw [nameStep, if_neg hname]
      have hnone : ∀ (_ : ∀ x, Tail x → startsEscape (a :: (r ++ x)) = false),
          NameEnd (Pieces.runAfter nameStep 0) (a :: r) := by
        intro hescape
        refine .inside ([], 0) (Nat.zero_le _) fun x hx => ?_
        rw [List.cons_append, Pieces.runAfter, hstep, hescape x hx]
        rfl
      by_cases hslash : a = '\\'
      · subst hslash
        cases r with
        | nil => exact nameEnd_backslash
        | cons b r =>
          by_cases hb : b = '\n'
          · exact hnone fun x _ => by
              rw [List.cons_append, startsEscape_backslash, hb]; rfl
          · have hescape : ∀ x, nameStep '\\' (b :: r ++ x) =
                some (readEscape (b :: r ++ x)) := by
              intro x
              rw [hstep, List.cons_append, startsEscape_backslash]
              simp [hb]
            rcases readEscape_tail (List.cons_ne_nil b r) with
              ⟨answer, hle, h⟩ | ⟨c, h⟩
            · refine (ih hle).cons (f := (answer.1 :: ·)) fun x hx => ?_
              rw [Pieces.runAfter, hescape x, h x hx]
            · refine .escape [c] fun x hx => ?_
              have hrest := Pieces.runAfter_append nameStep (spaceTaken x)
                (b :: r) x
              rw [run_nameStep_taken hx] at hrest
              rw [List.cons_append, Pieces.runAfter, hescape x, h x hx]
              dsimp only
              rw [hrest]
              simp only [List.length_cons, Prod.mk.injEq, true_and]
              omega
      · exact hnone fun x _ => startsEscape_cons hslash _

/-- The three things that a name can do before a tail. -/
theorem readName_tail (s : Text) : NameEnd readName s :=
  nameEnd_runAfter (Nat.zero_le s.length)

/-! ## Words that a mark closes -/

/-- A character of a text stands in its front part if it is no white space and
the middle part is. -/
theorem lt_length_of_getElem? {s w z : Text} {q : Char} {k : Nat}
    (hw : ∀ a ∈ w, isSpace a = true) (hq : isSpace q = false)
    (hk : k < s.length + w.length) (h : (s ++ (w ++ z))[k]? = some q) :
    k < s.length := by
  rcases Nat.lt_or_ge k s.length with hlt | hge
  · exact hlt
  · rw [List.getElem?_append_right hge, List.getElem?_append_left (by omega)]
      at h
    rw [hw q (List.mem_of_getElem? h)] at hq
    cases hq

/-- A text cut at one of its characters. -/
theorem exists_cut_of_getElem? {s x : Text} {q : Char} {k : Nat}
    (hk : k < s.length) (h : (s ++ x)[k]? = some q) :
    ∃ p r, s = p ++ q :: r ∧ p.length = k := by
  rw [List.getElem?_append_left hk] at h
  refine ⟨s.take k, s.drop (k + 1), ?_, by simp [Nat.le_of_lt hk]⟩
  obtain ⟨_, hget⟩ := List.getElem?_eq_some_iff.mp h
  rw [← hget, List.getElem_cons_drop, List.take_append_drop]

/-- A string that is closed ends in its quote. -/
theorem readString_getElem? {quote : Char} {text : Text} {m : Nat}
    (h : readString quote text = (m, .closed)) :
    ∃ k, m = k + 1 ∧ (Pieces.run (stringStep quote) text).2 = k ∧ text[k]? =
      some quote := by
  rw [readString_eq] at h
  split at h
  · cases h
  · rename_i d rest hdrop
    split at h
    · rename_i hd
      subst hd
      rw [Prod.mk.injEq] at h
      refine ⟨_, h.1.symm, rfl, ?_⟩
      rw [← List.head?_drop, hdrop]
      rfl
    · cases h

/-- A string that is closed does not depend on what follows it. -/
theorem readString_closed {quote : Char} {s x : Text} {m : Nat}
    (hhex : isHexDigit quote = false) (hbreak : quote ≠ '\n')
    (hslash : quote ≠ '\\') (h : readString quote (s ++ x) = (m, .closed))
    (hm : m ≤ s.length) (y : Text) :
    readString quote (s ++ y) = (m, .closed) := by
  obtain ⟨k, rfl, hrun, hk⟩ := readString_getElem? h
  obtain ⟨p, r, rfl, rfl⟩ := exists_cut_of_getElem? (by omega) hk
  rw [List.append_assoc, List.cons_append] at hrun ⊢
  have hsame : (Pieces.run (stringStep quote) (p ++ quote :: (r ++ y))).2 =
      p.length := by
    rcases stringRun_alike hhex hbreak hslash quote p (r ++ x) (r ++ y) with
      h | h
    · rw [← h, hrun]
    · omega
  rw [readString_eq, hsame, List.drop_left]
  dsimp only
  rw [if_pos rfl]

/-- A string that nothing ends takes the whole text. -/
theorem readString_atEnd {quote : Char} {text : Text} {m : Nat}
    (h : readString quote text = (m, .atEnd)) : text.length ≤ m := by
  rw [readString_eq] at h
  split at h
  · rename_i hdrop
    rw [Prod.mk.injEq] at h
    rw [← h.1]
    exact List.drop_eq_nil_iff.mp hdrop
  · split at h <;> cases h

/-- A URL that is closed ends in its parenthesis. -/
theorem readUrl_eq_closed_iff {text : Text} {m : Nat} :
    readUrl text = (m, .closed) ↔ m = urlStop text + 1 ∧ text[urlStop text]? =
      some ')' := by
  rw [← List.head?_drop, readUrl_eq]
  cases text.drop (urlStop text) with
  | nil => simp [closeUrl]
  | cons c rest =>
    by_cases hc : c = ')'
    · simp [closeUrl, hc, eq_comm]
    · simp [closeUrl_cons hc, hc]

/-- A URL that nothing ends takes the whole text. -/
theorem readUrl_atEnd {text : Text} {m : Nat} (h : readUrl text = (m, .atEnd)) :
    text.length ≤ m := by
  rw [readUrl_eq, Prod.mk.injEq] at h
  cases hrest : text.drop (urlStop text) with
  | nil =>
    rw [← h.1]
    exact Nat.le_trans (List.drop_eq_nil_iff.mp hrest) (Nat.le_add_right _ _)
  | cons c rest =>
    rw [hrest] at h
    by_cases hc : c = ')' <;> simp [closeUrl, hc] at h

/-- A URL that comes to a parenthesis comes to it whatever follows. -/
theorem urlStop_of_closed {p t : Text} (h : urlStop (p ++ ')' :: t) = p.length)
    (t' : Text) :
    urlStop (p ++ ')' :: t') = p.length := by
  have hspace : ∀ (p t : Text), spaceLength (p ++ ')' :: t) =
      spaceLength p := by
    intro p t
    rw [spaceLength, takeWhile_seal rfl, spaceLength]
  have hstart : spaceLength p ≤ p.length := length_takeWhile_le p
  have hrun : Pieces.run urlStep (p.drop (spaceLength p) ++ ')' :: t) =
      Pieces.run urlStep (p.drop (spaceLength p) ++ ')' :: t') := by
    have halike :=
      urlRun_alike (d := ')') rfl (by decide) (p.drop (spaceLength p)) t t'
    rw [List.length_drop] at halike
    simp only [urlStop, hspace, drop_seal hstart] at h
    rcases halike with heq | hlong
    · exact heq
    · omega
  simp only [urlStop, hspace, drop_seal hstart, hrun] at h ⊢
  have hbody : spaceLength p +
    (Pieces.run urlStep (p.drop (spaceLength p) ++ ')' :: t')).2 ≤
      p.length := by
    omega
  rwa [drop_seal hbody, hspace] at h ⊢

/-- A URL that is closed does not depend on what follows it. -/
theorem readUrl_closed {s x : Text} {m : Nat}
    (h : readUrl (s ++ x) = (m, .closed)) (hm : m ≤ s.length) (y : Text) :
    readUrl (s ++ y) = (m, .closed) := by
  rw [readUrl_eq_closed_iff] at h ⊢
  obtain ⟨rfl, hk⟩ := h
  obtain ⟨p, r, rfl, hlength⟩ := exists_cut_of_getElem? (by omega) hk
  have htext : ∀ z, p ++ ')' :: r ++ z = p ++ ')' :: (r ++ z) := by simp
  rw [htext] at hlength
  have hstop := urlStop_of_closed hlength.symm (r ++ y)
  rw [htext, htext, ← hlength, hstop]
  simp

/-- A comment that is closed ends in a slash. -/
theorem readComment_getElem? {text : Text} {m : Nat}
    (h : readComment text = (m, true)) :
    ∃ n, m = n + 2 ∧ Text.find? ['*', '/'] text = some n ∧ text[n + 1]? =
      some '/' := by
  rw [readComment] at h
  split at h
  · rename_i n hn
    rw [Prod.mk.injEq] at h
    refine ⟨n, h.1.symm, hn, ?_⟩
    have hlast := Lexeme.getLast?_endMark hn
    have hle := Lexeme.find?_endMark_le hn
    rw [List.getLast?_eq_getElem?, List.length_take,
      Nat.min_eq_left hle] at hlast
    rwa [List.getElem?_take_of_lt (by omega)] at hlast
  · cases h

/-- A comment that nothing ends takes the whole text. -/
theorem readComment_open {text : Text} {m : Nat}
    (h : readComment text = (m, false)) :
    text.length ≤ m := by
  rw [readComment] at h
  split at h
  · cases h
  · rw [Prod.mk.injEq] at h
    exact Nat.le_of_eq h.1

/-- A comment that is closed does not depend on what follows it. -/
theorem readComment_closed {s x : Text} {m : Nat}
    (h : readComment (s ++ x) = (m, true)) (hm : m ≤ s.length) (y : Text) :
    readComment (s ++ y) = (m, true) := by
  obtain ⟨n, rfl, hfind, _⟩ := readComment_getElem? h
  have hmark := Lexeme.find?_endMark hfind (s.drop (n + 2) ++ y)
  rw [List.take_append_of_le_length hm, ← List.append_assoc,
    List.take_append_drop] at hmark
  rw [readComment, hmark]

/-! ## Lengths -/

/-- A Unicode range is no longer than the text. -/
theorem unicodeRangeLength_le (s : Text) : unicodeRangeLength s ≤ s.length := by
  have hdigits : ((s.take 6).takeWhile isHexDigit).length ≤ s.length :=
    Nat.le_trans (length_takeWhile_le _) (List.length_take_le' 6 s)
  have hpart : ∀ (p : Char → Bool) (n : Nat) (r : Text),
      ((r.take n).takeWhile p).length ≤ r.length := fun p n r =>
    Nat.le_trans (length_takeWhile_le _) (List.length_take_le' n r)
  have hmarks := hpart (fun c => decide (c = '?'))
    (6 - ((s.take 6).takeWhile isHexDigit).length)
    (s.drop ((s.take 6).takeWhile isHexDigit).length)
  rw [List.length_drop] at hmarks
  unfold unicodeRangeLength
  dsimp only
  split
  · omega
  · split
    · rename_i rest hdrop
      have hrest := congrArg List.length hdrop
      rw [List.length_drop, List.length_cons] at hrest
      have hbound := hpart isHexDigit 6 rest
      split <;> omega
    · exact hdigits

namespace Lexeme

/-- A delimiter is no longer than the text. -/
theorem delimiterLength_le (c : Char) (s : Text) :
    delimiterLength (c :: s) ≤ (c :: s).length := by
  unfold delimiterLength
  split
  · rename_i h
    exact (List.isPrefixOf_iff_prefix.mp h).length_le
  · split
    · rename_i h
      rw [h]
      simp
    · rename_i h
      rw [h]
      split <;> simp
    · simp

/-! ## What starts at an edge -/

theorem startsIdentifier_edge {d : Char} (hd : isEdge d = true) (u : Text) :
    startsIdentifier (d :: u) = false := by
  have hstart : isNameStart d = false :=
    edge_false hd ⟨rfl, rfl, rfl⟩ ⟨rfl, rfl, rfl⟩
  have hne : d ≠ '-' ∧ d ≠ '\\' := by
    constructor <;> rintro rfl <;> cases hd
  simp [startsIdentifier, hstart, hne.1, startsEscape, hne.2]

/-- What starts an identifier does not depend on what follows, unless it is a
backslash at the end. -/
theorem startsIdentifier_alike {s : Text} {d d' : Char} (hd : isEdge d = true)
    (hd' : isEdge d' = true) (hs : s ≠ ['\\'] ∧ s ≠ ['-', '\\']) (u u' : Text) :
    startsIdentifier (s ++ d :: u) = startsIdentifier (s ++ d' :: u') := by
  have hedge : ∀ {d : Char} (u : Text), isEdge d = true →
      (isNameStart d = false ∧ d ≠ '-' ∧ startsEscape (d :: u) = false) := by
    intro d u hd
    refine ⟨edge_false hd ⟨rfl, rfl, rfl⟩ ⟨rfl, rfl, rfl⟩, ?_, ?_⟩
    · rintro rfl
      cases hd
    · refine startsEscape_cons ?_ u
      rintro rfl
      cases hd
  obtain ⟨hstart, hdash, hescape⟩ := hedge u hd
  obtain ⟨hstart', hdash', hescape'⟩ := hedge u' hd'
  match s with
  | [] =>
    rw [List.nil_append, List.nil_append, startsIdentifier_edge hd,
      startsIdentifier_edge hd']
  | [a] =>
    have ha : startsEscape (a :: d :: u) = startsEscape (a :: d' :: u') := by
      rw [startsEscape_cons,
        startsEscape_cons] <;> rintro rfl <;> exact hs.1 rfl
    simp [startsIdentifier, hstart, hdash, hescape, hstart', hdash', hescape',
      ha]
  | [a, b] =>
    have hb : a = '-' → startsEscape (b :: d :: u) =
        startsEscape (b :: d' :: u') := by
      rintro rfl
      rw [startsEscape_cons,
        startsEscape_cons] <;> rintro rfl <;> exact hs.2 rfl
    have ha : startsEscape (a :: b :: d :: u) =
        startsEscape (a :: b :: d' :: u') := by
      by_cases hslash : a = '\\'
      · rw [hslash, startsEscape_backslash, startsEscape_backslash]
      · rw [startsEscape_cons hslash, startsEscape_cons hslash]
    by_cases hdash : a = '-'
    · simp [startsIdentifier, hdash, hb hdash]
    · simp [startsIdentifier, hdash, ha]
  | a :: b :: c :: s =>
    have h : ∀ a b r r', startsEscape (a :: b :: r) =
        startsEscape (a :: b :: r') := by
      intro a b r r'
      by_cases hslash : a = '\\'
      · rw [hslash, startsEscape_backslash, startsEscape_backslash]
      · rw [startsEscape_cons hslash, startsEscape_cons hslash]
    simp [startsIdentifier, h b c _ (s ++ d :: u), h a b _ (c :: (s ++ d :: u))]

/-- A Unicode range starts in a text before an edge or not at all. -/
theorem startsRange_edge {c d : Char} {s : Text} (hd : isEdge d = true)
    (u : Text) :
    startsRange c (s ++ d :: u) = startsRange c s := by
  have hhex := isHexDigit_halt (isHalt_of_isEdge hd)
  have hne : d ≠ '+' ∧ d ≠ '?' := by
    constructor <;> rintro rfl <;> cases hd
  match s with
  | [] => simp [startsRange, hne.1]
  | [a] => simp [startsRange, hhex, hne.2]
  | a :: b :: s => rfl

/-- An arrow stands in a text before an edge or not at all. -/
theorem arrow_edge {s : Text} {d : Char} (hd : isEdge d = true) (u : Text) :
    ['-', '-', '>'].isPrefixOf (s ++ d :: u) =
      ['-', '-', '>'].isPrefixOf s := by
  have hne : d ≠ '-' ∧ d ≠ '>' := by
    constructor <;> rintro rfl <;> cases hd
  exact isPrefixOf_seal (by simp [hne.1, hne.2]) s u

end Lexeme

end OklchGate.Css
