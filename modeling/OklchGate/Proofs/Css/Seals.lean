import OklchGate.Proofs.Css.Lexemes

/-!
# What a lexeme depends on

A reader may look at characters after the lexeme that it reads.  It never looks
past a seal, which is a brace, a semicolon, a colon or a slash, unless the seal
is itself part of the lexeme.

There are four groups.

* `isHalt`: numbers, ranges and marks of several characters end before a halt,
  and every seal is one.
* `isSeal`, and what looks ahead a bounded number of characters.  These answer
  the same whatever stands after a seal.
* `Alike`, which says that two readings are the same or both go past a seal, and
  the readers of names, strings, URLs and comments.
* `Lexeme.read_alike`, and `Lexeme.read_eq_of_seal`: a lexeme that ends before a
  seal does not depend on what follows the seal.
-/

namespace OklchGate.Css

/-! ## Seals -/

/-- A character that no reader looks past without reading it. -/
def isSeal (c : Char) : Bool := ['\x7b', '\x7d', ';', ':', '/'].contains c

theorem seal_cases {d : Char} (hd : isSeal d = true) :
    d = '\x7b' ∨ d = '\x7d' ∨ d = ';' ∨ d = ':' ∨ d = '/' := by
  simpa [isSeal] using hd

/-- What holds of the five seals holds of every seal. -/
theorem seal_false {p : Char → Bool} {d : Char} (hd : isSeal d = true)
    (hp : ['\x7b', '\x7d', ';', ':', '/'].all (fun c => !p c) = true) :
    p d = false := by
  have hall := List.all_eq_true.mp hp d (List.contains_iff_mem.mp hd)
  simpa using hall

/-- A run of characters of a class ends at a character outside of it. -/
theorem takeWhile_seal {p : Char → Bool} {d : Char} (hp : p d = false)
    (s t : Text) :
    (s ++ d :: t).takeWhile p = s.takeWhile p := by
  induction s with
  | nil => simp [hp]
  | cons c s ih =>
    rw [List.cons_append, List.takeWhile_cons, List.takeWhile_cons, ih]

theorem dropWhile_seal {p : Char → Bool} {d : Char} (hp : p d = false)
    (s t : Text) :
    (s ++ d :: t).dropWhile p = s.dropWhile p ++ d :: t := by
  induction s with
  | nil => simp [hp]
  | cons c s ih =>
    rw [List.cons_append, List.dropWhile_cons, List.dropWhile_cons, ih]
    split <;> rfl

/-- The same of a run that is bounded in length. -/
theorem takeWhile_take_seal {p : Char → Bool} {d : Char} (hp : p d = false)
    (n : Nat) (s t : Text) :
    ((s ++ d :: t).take n).takeWhile p = (s.take n).takeWhile p := by
  induction s generalizing n with
  | nil =>
    cases n with
    | zero => rfl
    | succ n => simp [hp]
  | cons c s ih =>
    cases n with
    | zero => rfl
    | succ n =>
      rw [List.cons_append, List.take_succ_cons, List.take_succ_cons,
        List.takeWhile_cons, List.takeWhile_cons, ih]

/-- What is left after some characters before a seal starts with a character
that is known. -/
theorem drop_seal {n : Nat} {s : Text} (h : n ≤ s.length) (d : Char)
    (t : Text) :
    (s ++ d :: t).drop n = s.drop n ++ d :: t :=
  List.drop_append_of_le_length h

theorem length_takeWhile_le {p : Char → Bool} (s : Text) :
    (s.takeWhile p).length ≤ s.length :=
  (List.takeWhile_sublist p).length_le

/-- A word without the seal is not looked for past it. -/
theorem isPrefixOf_seal {d : Char} {word : Text} (hword : d ∉ word)
    (s t : Text) :
    word.isPrefixOf (s ++ d :: t) = word.isPrefixOf s := by
  induction s generalizing word with
  | nil =>
    cases word with
    | nil => rfl
    | cons c word =>
      rw [List.mem_cons, not_or] at hword
      simp [List.isPrefixOf, Ne.symm hword.1]
  | cons e s ih =>
    cases word with
    | nil => rfl
    | cons c word =>
      rw [List.mem_cons, not_or] at hword
      rw [List.cons_append, List.isPrefixOf, List.isPrefixOf, ih hword.2]

/-! ## Lengths of the parts of a number -/

theorem signLength_le (s : Text) : signLength s ≤ s.length := by
  cases s with
  | nil => exact Nat.le_refl 0
  | cons c s =>
    rw [signLength, List.length_cons]
    split <;> omega

theorem digitLength_le (s : Text) : digitLength s ≤ s.length :=
  length_takeWhile_le s

theorem fractionLength_le (s : Text) : fractionLength s ≤ s.length := by
  unfold fractionLength
  split
  · rename_i rest
    have hle := digitLength_le rest
    dsimp only
    rw [List.length_cons]
    split <;> omega
  · exact Nat.zero_le _

theorem exponentLength_le (s : Text) : exponentLength s ≤ s.length := by
  cases s with
  | nil => exact Nat.le_refl 0
  | cons c s =>
    have hsign := signLength_le s
    have hdigits := digitLength_le (s.drop (signLength s))
    rw [List.length_drop] at hdigits
    rw [exponentLength, List.length_cons]
    split <;> omega

theorem numberLength_le {s : Text} {n : Nat} (h : numberLength s = some n) :
    n ≤ s.length := by
  have hsign := signLength_le s
  have hwhole := digitLength_le (s.drop (signLength s))
  have hfraction := fractionLength_le
    (s.drop (signLength s + digitLength (s.drop (signLength s))))
  have hexponent :=
    exponentLength_le
      (s.drop (signLength s + digitLength (s.drop (signLength s)) +
    fractionLength
      (s.drop (signLength s + digitLength (s.drop (signLength s))))))
  rw [List.length_drop] at hwhole hfraction hexponent
  unfold numberLength at h
  dsimp only at h
  split at h
  · cases h
  · rw [Option.some.injEq] at h
    omega

/-! ## Numbers, ranges and marks -/

/-- A character with which no number, no range and no mark of several characters
goes on. -/
def isHalt (c : Char) : Bool :=
  !isHexDigit c && !(['+', '-', '.', '?', '=', '|', '<', '!', '>'].contains c)

theorem isHalt_of_isSeal {d : Char} (hd : isSeal d = true) :
    isHalt d = true := by
  rcases seal_cases hd with rfl | rfl | rfl | rfl | rfl <;> rfl

/-- A halt is none of the other characters. -/
theorem halt_ne {c d : Char} (hd : isHalt d = true) (hc : isHalt c = false) :
    d ≠ c := by
  rintro rfl
  rw [hc] at hd
  cases hd

theorem seal_ne_backslash {d : Char} (hd : isSeal d = true) : d ≠ '\\' := by
  rintro rfl
  cases hd

theorem isHexDigit_seal {d : Char} (hd : isSeal d = true) :
    isHexDigit d = false :=
  seal_false hd rfl

section Halt

variable {d : Char} (hd : isHalt d = true) (s t : Text)
include hd

theorem isHexDigit_halt : isHexDigit d = false := by
  rw [isHalt, Bool.and_eq_true] at hd
  simpa using hd.1

theorem isDigit_halt : isDigit d = false := by
  have h := isHexDigit_halt hd
  rw [isHexDigit, Bool.or_eq_false_iff, Bool.or_eq_false_iff] at h
  exact h.1.1

theorem digitLength_halt : digitLength (s ++ d :: t) = digitLength s := by
  rw [digitLength, takeWhile_seal (isDigit_halt hd), digitLength]

theorem signLength_halt : signLength (s ++ d :: t) = signLength s := by
  cases s with
  | nil =>
    simp [signLength, halt_ne hd (c := '+') rfl, halt_ne hd (c := '-') rfl]
  | cons c s => rfl

theorem fractionLength_halt : fractionLength (s ++ d :: t) =
    fractionLength s := by
  cases s with
  | nil => simp [fractionLength, halt_ne hd (c := '.') rfl]
  | cons c s =>
    by_cases hc : c = '.'
    · simp [fractionLength, hc, digitLength_halt hd]
    · simp [fractionLength, hc]

theorem exponentLength_halt : exponentLength (s ++ d :: t) =
    exponentLength s := by
  cases s with
  | nil =>
    simp [exponentLength, halt_ne hd (c := 'e') rfl, halt_ne hd (c := 'E') rfl]
  | cons c s =>
    rw [List.cons_append, exponentLength, exponentLength, signLength_halt hd,
      drop_seal (signLength_le s), digitLength_halt hd]

theorem numberLength_halt : numberLength (s ++ d :: t) = numberLength s := by
  have hsign := signLength_le s
  have hwhole := digitLength_le (s.drop (signLength s))
  have hfraction := fractionLength_le
    (s.drop (signLength s + digitLength (s.drop (signLength s))))
  rw [List.length_drop] at hwhole hfraction
  unfold numberLength
  simp only [signLength_halt hd, drop_seal hsign, digitLength_halt hd]
  rw [drop_seal (by omega), fractionLength_halt hd, drop_seal (by omega),
    exponentLength_halt hd]

theorem unicodeRangeLength_halt :
    unicodeRangeLength (s ++ d :: t) = unicodeRangeLength s := by
  have hhex := isHexDigit_halt hd
  have hmark : decide (d = '?') = false := decide_eq_false (halt_ne hd rfl)
  have hlength : ((s.take 6).takeWhile isHexDigit).length ≤ s.length :=
    Nat.le_trans (length_takeWhile_le _) (List.length_take_le' 6 s)
  unfold unicodeRangeLength
  simp only [takeWhile_take_seal hhex, drop_seal hlength]
  generalize s.drop ((s.take 6).takeWhile isHexDigit).length = after
  rw [takeWhile_take_seal (p := fun c => decide (c = '?')) hmark]
  split
  · rfl
  · cases after with
    | nil => simp [halt_ne hd (c := '-') rfl]
    | cons c after =>
      by_cases hc : c = '-'
      · simp only [List.cons_append, hc, takeWhile_take_seal hhex]
      · simp [hc]

theorem delimiterLength_halt (c : Char) :
    Lexeme.delimiterLength (c :: (s ++ d :: t)) =
      Lexeme.delimiterLength (c :: s) := by
  have hopen : ['<', '!', '-', '-'].isPrefixOf (c :: (s ++ d :: t)) =
      ['<', '!', '-', '-'].isPrefixOf (c :: s) := by
    refine isPrefixOf_seal ?_ (c :: s) t
    simp [halt_ne hd (c := '<') rfl, halt_ne hd (c := '!') rfl,
      halt_ne hd (c := '-') rfl]
  unfold Lexeme.delimiterLength
  rw [hopen]
  split
  · rfl
  · cases s with
    | nil => simp [halt_ne hd (c := '=') rfl, halt_ne hd (c := '|') rfl]
    | cons e s =>
      by_cases he : e = '='
      · simp [he]
      · by_cases he' : e = '|'
        · by_cases hc : c = '|' <;> simp [he', hc]
        · simp [he, he']

end Halt

/-! ## Looking ahead -/

/-- An escape looks one character ahead. -/
theorem startsEscape_alike {d : Char} (hd : d ≠ '\\') (s t t' : Text) :
    startsEscape (s ++ d :: t) = startsEscape (s ++ d :: t') := by
  match s with
  | [] => simp [startsEscape, hd]
  | [c] =>
    by_cases hc : c = '\\'
    · by_cases hbreak : d = '\n' <;> simp [startsEscape, hc, hbreak]
    · simp [startsEscape, hc]
  | c :: e :: s =>
    by_cases hc : c = '\\'
    · by_cases he : e = '\n' <;> simp [startsEscape, hc, he]
    · simp [startsEscape, hc]

/-- An escape does not go past a character that is no hexadecimal digit without
reading it. -/
theorem readEscape_alike {d : Char} (hd : isHexDigit d = false)
    (s t t' : Text) :
    readEscape (s ++ d :: t) = readEscape (s ++ d :: t') := by
  have hlength : ((s.take 6).takeWhile isHexDigit).length ≤ s.length :=
    Nat.le_trans (length_takeWhile_le _) (List.length_take_le' 6 s)
  unfold readEscape
  simp only [takeWhile_take_seal hd, drop_seal hlength]
  congr 1
  · cases s <;> rfl
  · cases s.drop ((s.take 6).takeWhile isHexDigit).length <;> rfl

section Ahead

variable {d : Char} (hd : isSeal d = true) (s t t' : Text)
include hd

theorem spaceLength_seal : spaceLength (s ++ d :: t) = spaceLength s := by
  rw [spaceLength, takeWhile_seal (seal_false hd rfl), spaceLength]

theorem startsIdentifier_seal :
    startsIdentifier (s ++ d :: t) = startsIdentifier (s ++ d :: t') := by
  match s with
  | [] =>
    have hescape := startsEscape_alike (seal_ne_backslash hd) [] t t'
    rw [List.nil_append, List.nil_append] at hescape
    have hdash : d ≠ '-' := by
      rintro rfl
      exact absurd hd (by decide)
    simp only [List.nil_append, startsIdentifier, hdash, if_false, hescape]
  | [c] =>
    have hescape := startsEscape_alike (seal_ne_backslash hd) [c] t t'
    have hescape' := startsEscape_alike (seal_ne_backslash hd) [] t t'
    rw [List.nil_append, List.nil_append] at hescape'
    simp only [List.singleton_append] at hescape ⊢
    simp only [startsIdentifier, hescape, hescape']
  | c :: e :: s =>
    have hescape := startsEscape_alike (seal_ne_backslash hd) (c :: e :: s) t t'
    have hescape' := startsEscape_alike (seal_ne_backslash hd) (e :: s) t t'
    simp only [List.cons_append] at hescape hescape' ⊢
    simp only [startsIdentifier, hescape, hescape']

end Ahead

/-! ## Readings that go past a seal -/

/-- Two answers are the same, or both are longer than `n`. -/
def Alike {α : Type} (length : α → Nat) (n : Nat) (a b : α) : Prop :=
  a = b ∨ (n < length a ∧ n < length b)

/-- Either both readings are the same and end before the seal, or both go past
it. -/
theorem Alike.cases {α : Type} {length : α → Nat} {n : Nat} {a b : α}
    (h : Alike length n a b) :
    (a = b ∧ length b ≤ n) ∨ (n < length a ∧ n < length b) := by
  rcases h with rfl | h
  · rcases Nat.lt_or_ge n (length a) with hlt | hge
    · exact Or.inr ⟨hlt, hlt⟩
    · exact Or.inl ⟨rfl, hge⟩
  · exact Or.inr h

theorem Alike.refl {α : Type} {length : α → Nat} {n : Nat} (a : α) :
    Alike length n a a :=
  Or.inl rfl

/-- What is made of two such answers is the same, or longer than `m`. -/
theorem Alike.map {α β : Type} {length : α → Nat} {length' : β → Nat}
    {n m : Nat} {a b : α} (h : Alike length n a b) (f : α → β)
    (hf : ∀ x, n < length x → m < length' (f x)) :
    Alike length' m (f a) (f b) :=
  h.imp (congrArg f) (And.imp (hf a) (hf b))

/-- Reading pieces before a seal does not depend on what follows it, if no step
does. -/
theorem runAfter_seal {β : Type} (step : Char → Text → Option (β × Nat))
    {d : Char} {t t' : Text}
    (hstep : ∀ a r, step a (r ++ d :: t) = step a (r ++ d :: t'))
    (hseal : (step d t).isSome = (step d t').isSome) (skip : Nat) (s : Text) :
    Alike Prod.snd s.length (Pieces.runAfter step skip (s ++ d :: t))
      (Pieces.runAfter step skip (s ++ d :: t')) := by
  induction s generalizing skip with
  | nil =>
    cases skip with
    | succ skip => exact Or.inr ⟨Nat.succ_pos _, Nat.succ_pos _⟩
    | zero =>
      rw [List.nil_append, List.nil_append, Pieces.runAfter, Pieces.runAfter]
      cases h : step d t <;> cases h' : step d t' <;> rw [h, h'] at hseal
      · exact Or.inl rfl
      · cases hseal
      · cases hseal
      · exact Or.inr ⟨Nat.succ_pos _, Nat.succ_pos _⟩
  | cons a r ih =>
    cases skip with
    | succ skip =>
      rw [List.cons_append, List.cons_append, Pieces.runAfter, Pieces.runAfter]
      rcases ih skip with h | h
      · rw [h]
        exact Or.inl rfl
      · right
        dsimp only
        rw [List.length_cons]
        omega
    | zero =>
      rw [List.cons_append, List.cons_append, Pieces.runAfter, Pieces.runAfter,
        hstep]
      cases step a (r ++ d :: t') with
      | none => exact Or.inl rfl
      | some answer =>
        rcases ih answer.2 with h | h
        · dsimp only
          rw [h]
          exact Or.inl rfl
        · right
          dsimp only
          rw [List.length_cons]
          omega

/-- One step of reading a string. -/
def stringStep (quote c : Char) (rest : Text) : Option (Unit × Nat) :=
  if c = quote ∨ c = '\n' then none
  else if c = '\\' then
    match rest with
    | '\n' :: _ => some ((), 1)
    | _ => some ((), (readEscape rest).2)
  else some ((), 0)

theorem readString_eq (quote : Char) (text : Text) :
    readString quote text =
      match text.drop (Pieces.run (stringStep quote) text).2 with
      | [] => ((Pieces.run (stringStep quote) text).2, .atEnd)
      | c :: _ =>
        if c = quote then ((Pieces.run (stringStep quote) text).2 + 1, .closed)
        else ((Pieces.run (stringStep quote) text).2, .broken) := rfl

/-- One step of reading a URL without quotes. -/
def urlStep (c : Char) (rest : Text) : Option (Unit × Nat) :=
  if c = ')' ∨ isSpace c then none
  else if startsEscape (c :: rest) then some ((), (readEscape rest).2)
  else if c = '"' ∨ c = '\'' ∨ c = '(' ∨ isNonPrintable c then none
  else some ((), 0)

/-- One step of skipping the rest of a broken URL. -/
def brokenUrlStep (c : Char) (rest : Text) : Option (Unit × Nat) :=
  match c, rest with
  | ')', _ => none
  | '\\', ')' :: _ => some ((), 1)
  | _, _ => some ((), 0)

theorem brokenUrlLength_eq (text : Text) :
    brokenUrlLength text =
      if (Pieces.run brokenUrlStep text).2 < text.length then
        (Pieces.run brokenUrlStep text).2 + 1
      else (Pieces.run brokenUrlStep text).2 := rfl

/-- Where the reading of a URL comes to something else than white space and URL
characters. -/
def urlStop (text : Text) : Nat :=
  let start := spaceLength text
  let body := start + (Pieces.run urlStep (text.drop start)).2
  body + spaceLength (text.drop body)

/-- How a URL ends where its characters do. -/
def closeUrl : Text → Nat × Ending
  | [] => (0, .atEnd)
  | ')' :: _ => (1, .closed)
  | text => (brokenUrlLength text, .broken)

theorem readUrl_eq (text : Text) :
    readUrl text = (urlStop text + (closeUrl (text.drop (urlStop text))).1,
      (closeUrl (text.drop (urlStop text))).2) := by
  unfold readUrl
  dsimp only
  split
  · next hend =>
    change text.drop (urlStop text) = [] at hend
    rw [hend]
    rfl
  · next rest hend =>
    change text.drop (urlStop text) = ')' :: rest at hend
    rw [hend]
    rfl
  · next hnil hparen =>
    rw [closeUrl]
    · rfl
    · exact hnil
    · exact hparen

theorem closeUrl_cons {c : Char} (hc : c ≠ ')') (rest : Text) :
    closeUrl (c :: rest) = (brokenUrlLength (c :: rest), .broken) := by
  simp [closeUrl, hc]

/-- Skipping the rest of a broken URL looks at one character ahead. -/
theorem brokenUrlStep_cons (a e : Char) (r : Text) :
    brokenUrlStep a (e :: r) =
      if a = ')' then none else if a = '\\' ∧ e = ')' then some ((), 1)
      else some ((), 0) := by
  unfold brokenUrlStep
  split
  · simp
  · rename_i h
    simp [(List.cons.inj h).1]
  · rename_i hclose hescaped
    rw [if_neg hclose, if_neg]
    rintro ⟨ha, rfl⟩
    exact hescaped r ha rfl

theorem brokenUrlLength_pos (c : Char) (rest : Text) :
    1 ≤ brokenUrlLength (c :: rest) := by
  rw [brokenUrlLength_eq]
  split
  · omega
  · rename_i h
    rw [List.length_cons] at h
    omega

/-- The end mark of a comment is found before the seal, or not before it. -/
theorem findEnd_alike (s : Text) (d : Char) (t t' : Text) :
    Text.find? ['*', '/'] (s ++ d :: t) = Text.find? ['*', '/'] (s ++ d :: t') ∨
      (∀ n ∈ Text.find? ['*', '/'] (s ++ d :: t), s.length < n + 2) ∧
        ∀ n ∈ Text.find? ['*', '/'] (s ++ d :: t'), s.length < n + 2 := by
  induction s with
  | nil =>
    right
    constructor <;> intro n _ <;> exact Nat.succ_pos _
  | cons c s ih =>
    have hmark : ['*', '/'].isPrefixOf (c :: (s ++ d :: t)) =
        ['*', '/'].isPrefixOf (c :: (s ++ d :: t')) := by
      cases s <;> rfl
    rw [List.cons_append, List.cons_append, Text.find?, Text.find?, hmark]
    split
    · exact Or.inl rfl
    · rcases ih with h | ⟨hleft, hright⟩
      · rw [h]
        exact Or.inl rfl
      · right
        constructor <;> intro n hn <;> rw [Option.mem_def,
          Option.map_eq_some_iff] at hn <;>
          obtain ⟨m, hm, rfl⟩ := hn
        · have hlt := hleft m hm
          rw [List.length_cons]
          omega
        · have hlt := hright m hm
          rw [List.length_cons]
          omega

theorem readComment_alike (s : Text) (d : Char) (t t' : Text) :
    Alike Prod.fst s.length (readComment (s ++ d :: t))
      (readComment (s ++ d :: t')) := by
  have hlong : ∀ text : Text,
    (∀ n ∈ Text.find? ['*', '/'] text, s.length < n + 2) →
      s.length < text.length → s.length < (readComment text).1 := by
    intro text hmark hlength
    rw [readComment]
    split
    · rename_i n hn
      exact hmark n hn
    · exact hlength
  rcases findEnd_alike s d t t' with h | ⟨hleft, hright⟩
  · cases hfind : Text.find? ['*', '/'] (s ++ d :: t') with
    | some n =>
      left
      rw [readComment, readComment, h, hfind]
    | none =>
      right
      rw [hfind] at h
      refine ⟨hlong _ ?_ (by simp), hlong _ ?_ (by simp)⟩ <;> simp [h, hfind]
  · exact Or.inr ⟨hlong _ hleft (by simp), hlong _ hright (by simp)⟩

/-- The run of a string stops alike at a character that is neither escaped nor
part of an escape. -/
theorem stringRun_alike {d : Char} (hhex : isHexDigit d = false)
    (hbreak : d ≠ '\n') (hslash : d ≠ '\\') (quote : Char) (s t t' : Text) :
    Alike Prod.snd s.length (Pieces.run (stringStep quote) (s ++ d :: t))
      (Pieces.run (stringStep quote) (s ++ d :: t')) := by
  refine runAfter_seal _ ?_ ?_ 0 s
  · intro a r
    have hescape := readEscape_alike hhex r t t'
    cases r with
    | nil =>
      rw [List.nil_append, List.nil_append] at hescape ⊢
      unfold stringStep
      split
      · rfl
      · split
        · split
          · rename_i h
            exact absurd (List.cons.inj h).1 hbreak
          · split
            · rename_i h
              exact absurd (List.cons.inj h).1 hbreak
            · rw [hescape]
        · rfl
    | cons e r =>
      rw [List.cons_append, List.cons_append] at hescape ⊢
      by_cases he : e = '\n'
      · rw [he]
        rfl
      · simp [stringStep, he, hescape]
  · by_cases hd : d = quote <;> simp [stringStep, hd, hbreak, hslash]

/-- The run of a URL stops alike at such a character. -/
theorem urlRun_alike {d : Char} (hhex : isHexDigit d = false)
    (hslash : d ≠ '\\') (s t t' : Text) :
    Alike Prod.snd s.length (Pieces.run urlStep (s ++ d :: t))
      (Pieces.run urlStep (s ++ d :: t')) := by
  have hescape : ∀ r, startsEscape (d :: r) = false := by
    intro r
    simp [startsEscape, hslash]
  refine runAfter_seal _ ?_ ?_ 0 s
  · intro a r
    have ha := startsEscape_alike hslash (a :: r) t t'
    rw [List.cons_append, List.cons_append] at ha
    simp only [urlStep, ha, readEscape_alike hhex r t t']
  · simp only [urlStep, hescape, Bool.false_eq_true, if_false]

section Past

variable {d : Char} (hd : isSeal d = true) (s t t' : Text)
include hd

theorem readName_alike :
    Alike Prod.snd s.length (readName (s ++ d :: t))
      (readName (s ++ d :: t')) := by
  have hname : isNameChar d = false := seal_false hd rfl
  have hescape : ∀ r, startsEscape (d :: r) = false := by
    intro r
    rcases seal_cases hd with rfl | rfl | rfl | rfl | rfl <;> rfl
  refine runAfter_seal _ ?_ ?_ 0 s
  · intro a r
    have ha := startsEscape_alike (seal_ne_backslash hd) (a :: r) t t'
    rw [List.cons_append, List.cons_append] at ha
    simp only [ha, readEscape_alike (isHexDigit_seal hd) r t t']
  · simp [hname, hescape]

theorem readString_alike (quote : Char) :
    Alike Prod.fst s.length (readString quote (s ++ d :: t))
      (readString quote (s ++ d :: t')) := by
  have hle : ∀ text, (Pieces.run (stringStep quote) text).2 ≤
      (readString quote text).1 := by
    intro text
    rw [readString_eq]
    split
    · exact Nat.le_refl _
    · split
      · exact Nat.le_succ _
      · exact Nat.le_refl _
  have hbreak : d ≠ '\n' := by
    rintro rfl
    cases hd
  have hleft := hle (s ++ d :: t)
  have hright := hle (s ++ d :: t')
  rcases stringRun_alike (isHexDigit_seal hd) hbreak (seal_ne_backslash hd)
    quote s t t' with h | h
  · rw [h] at hleft
    rcases Nat.lt_or_ge s.length
      (Pieces.run (stringStep quote) (s ++ d :: t')).2 with hlt | hge
    · right
      omega
    · left
      rw [readString_eq, readString_eq, h, drop_seal hge, drop_seal hge]
      cases s.drop (Pieces.run (stringStep quote) (s ++ d :: t')).2 <;> rfl
  · right
    omega

theorem brokenUrlLength_alike :
    Alike id s.length (brokenUrlLength (s ++ d :: t))
      (brokenUrlLength (s ++ d :: t')) := by
  have hd' : d ≠ ')' ∧ d ≠ '\\' := by
    rcases seal_cases hd with rfl | rfl | rfl | rfl | rfl <;> decide
  have hrun : Alike Prod.snd s.length (Pieces.run brokenUrlStep (s ++ d :: t))
      (Pieces.run brokenUrlStep (s ++ d :: t')) := by
    refine runAfter_seal _ ?_ ?_ 0 s
    · intro a r
      cases r <;> simp only [List.nil_append, List.cons_append,
        brokenUrlStep_cons]
    · have hsome : ∀ r, (brokenUrlStep d r).isSome = true := by
        intro r
        cases r with
        | nil => simp [brokenUrlStep, hd'.1]
        | cons e r => simp [brokenUrlStep_cons, hd'.1, hd'.2]
      rw [hsome, hsome]
  have hle : ∀ text, (Pieces.run brokenUrlStep text).2 ≤
      brokenUrlLength text := by
    intro text
    rw [brokenUrlLength_eq]
    split <;> omega
  rcases hrun.cases with ⟨h, hn⟩ | h
  · left
    rw [brokenUrlLength_eq, brokenUrlLength_eq, h, if_pos,
      if_pos] <;> simp <;> omega
  · have hleft := hle (s ++ d :: t)
    have hright := hle (s ++ d :: t')
    right
    dsimp only [id]
    omega

theorem urlStop_alike :
    Alike id s.length (urlStop (s ++ d :: t)) (urlStop (s ++ d :: t')) := by
  have hstart : spaceLength s ≤ s.length := length_takeWhile_le s
  have hrun := urlRun_alike (isHexDigit_seal hd) (seal_ne_backslash hd)
    (s.drop (spaceLength s)) t t'
  rw [List.length_drop] at hrun
  unfold urlStop
  simp only [spaceLength_seal hd, drop_seal hstart]
  rcases hrun.cases with ⟨h, hn⟩ | h
  · have hbody : spaceLength s +
        (Pieces.run urlStep (s.drop (spaceLength s) ++ d :: t')).2 ≤
          s.length := by
      omega
    simp only [h, drop_seal hbody, spaceLength_seal hd]
    exact .refl _
  · right
    dsimp only [id]
    omega

theorem closeUrl_alike :
    Alike Prod.fst s.length (closeUrl (s ++ d :: t))
      (closeUrl (s ++ d :: t')) := by
  have hd' : d ≠ ')' := by
    rcases seal_cases hd with rfl | rfl | rfl | rfl | rfl <;> decide
  cases s with
  | nil =>
    rw [List.nil_append, List.nil_append, closeUrl_cons hd', closeUrl_cons hd']
    exact Or.inr ⟨brokenUrlLength_pos d t, brokenUrlLength_pos d t'⟩
  | cons e s =>
    have hbroken := brokenUrlLength_alike hd (e :: s) t t'
    rw [List.cons_append, List.cons_append] at hbroken ⊢
    by_cases he : e = ')'
    · rw [he]
      exact .refl _
    · rw [closeUrl_cons he, closeUrl_cons he]
      exact hbroken.map (fun n => (n, Ending.broken)) fun _ h => h

theorem readUrl_alike :
    Alike Prod.fst s.length (readUrl (s ++ d :: t))
      (readUrl (s ++ d :: t')) := by
  rw [readUrl_eq, readUrl_eq]
  rcases (urlStop_alike hd s t t').cases with ⟨h, hn⟩ | h
  · dsimp only [id] at hn
    have hclose := closeUrl_alike hd (s.drop (urlStop (s ++ d :: t'))) t t'
    rw [List.length_drop] at hclose
    rw [h, drop_seal hn, drop_seal hn]
    refine hclose.map (fun answer =>
      (urlStop (s ++ d :: t') + answer.1, answer.2)) fun _ h => ?_
    dsimp only
    omega
  · right
    dsimp only [id] at h ⊢
    omega

theorem startsQuoted_seal :
    Lexeme.startsQuoted (s ++ d :: t) = Lexeme.startsQuoted (s ++ d :: t') := by
  rw [Lexeme.startsQuoted, Lexeme.startsQuoted,
    dropWhile_seal (seal_false hd rfl), dropWhile_seal (seal_false hd rfl)]
  cases s.dropWhile isSpace <;> rfl

end Past

namespace Lexeme

/-! ## Lexemes -/

section Read

variable {d : Char} (hd : isSeal d = true) (s t t' : Text)
include hd

theorem readIdentifierLike_alike :
    Alike Prod.snd s.length (readIdentifierLike (s ++ d :: t))
      (readIdentifierLike (s ++ d :: t')) := by
  have hd' : d ≠ '(' := by
    rcases seal_cases hd with rfl | rfl | rfl | rfl | rfl <;> decide
  have hlong : ∀ text, (readName text).2 ≤ (readIdentifierLike text).2 := by
    intro text
    rcases readIdentifierLike_cases text with h | h | ⟨ending, n, h⟩ <;>
      rw [h] <;> dsimp only <;> omega
  rcases (readName_alike hd s t t').cases with ⟨h, hn⟩ | h
  · have hdrop : ∀ u, (s ++ d :: u).drop (readName (s ++ d :: t')).2 =
        s.drop (readName (s ++ d :: t')).2 ++ d :: u :=
          fun u => drop_seal hn d u
    by_cases hparen : ∃ rest, s.drop (readName (s ++ d :: t')).2 = '(' :: rest
    · obtain ⟨rest, hrest⟩ := hparen
      have hlength := congrArg List.length hrest
      rw [List.length_drop, List.length_cons] at hlength
      rw [readIdentifierLike_paren (r := rest ++ d :: t)
        (by rw [h, hdrop, hrest]; rfl),
        readIdentifierLike_paren (r := rest ++ d :: t')
          (by rw [hdrop, hrest]; rfl), h,
        startsQuoted_seal hd rest t t']
      split
      · refine (readUrl_alike hd rest t t').map (fun answer =>
          (urlKind answer.2, (readName (s ++ d :: t')).2 + 1 + answer.1))
            fun _ hlt => ?_
        dsimp only
        omega
      · exact .refl _
    · have hplain : ∀ u r, (s ++ d :: u).drop (readName (s ++ d :: t')).2 ≠
          '(' :: r := by
        intro u r hr
        rw [hdrop] at hr
        cases hcut : s.drop (readName (s ++ d :: t')).2 with
        | nil =>
          rw [hcut] at hr
          exact hd' (List.cons.inj hr).1
        | cons e rest =>
          rw [hcut] at hr
          exact hparen ⟨rest, by rw [hcut, (List.cons.inj hr).1]⟩
      rw [readIdentifierLike_plain (by rw [h]; exact hplain t),
        readIdentifierLike_plain (hplain t'), h]
      exact .refl _
  · have hleft := hlong (s ++ d :: t)
    have hright := hlong (s ++ d :: t')
    right
    omega

theorem readNumeric?_alike :
    readNumeric? (s ++ d :: t) = readNumeric? (s ++ d :: t') ∨
      ∃ left right, readNumeric? (s ++ d :: t) = some left ∧
        readNumeric? (s ++ d :: t') = some right ∧ s.length < left.2 ∧
          s.length < right.2 := by
  rw [readNumeric?, readNumeric?, numberLength_halt (isHalt_of_isSeal hd),
    numberLength_halt (isHalt_of_isSeal hd)]
  cases hnumber : numberLength s with
  | none => exact Or.inl rfl
  | some n =>
    have hn := numberLength_le hnumber
    have hpercent : (s.drop n ++ d :: t).head? =
        (s.drop n ++ d :: t').head? := by
      cases s.drop n <;> rfl
    rw [Option.map_some, Option.map_some]
    simp only [drop_seal hn, startsIdentifier_seal hd (s.drop n) t t', hpercent]
    split
    · have hunit := readName_alike hd (s.drop n) t t'
      rw [List.length_drop] at hunit
      rcases hunit with hunit | hunit
      · rw [hunit]
        exact Or.inl rfl
      · exact Or.inr ⟨_, _, rfl,
          rfl, by dsimp only; omega, by dsimp only; omega⟩
    · exact Or.inl rfl

theorem startsRange_seal (c : Char) :
    startsRange c (s ++ d :: t) = startsRange c (s ++ d :: t') := by
  have hd' : d ≠ '+' := by
    rcases seal_cases hd with rfl | rfl | rfl | rfl | rfl <;> decide
  match s with
  | [] => simp [startsRange, hd']
  | [e] => rfl
  | e :: e' :: s => rfl

theorem rangeLength_seal {c : Char} (h : startsRange c (s ++ d :: t) = true) :
    unicodeRangeLength ((s ++ d :: t).drop 1) =
      unicodeRangeLength ((s ++ d :: t').drop 1) := by
  have hhalt := isHalt_of_isSeal hd
  cases s with
  | nil =>
    have hd' : d ≠ '+' := by
      rcases seal_cases hd with rfl | rfl | rfl | rfl | rfl <;> decide
    simp [startsRange, hd'] at h
  | cons e s =>
    exact (unicodeRangeLength_halt hhalt s t).trans
      (unicodeRangeLength_halt hhalt s t').symm

theorem startsHash_seal :
    startsHash (s ++ d :: t) = startsHash (s ++ d :: t') := by
  rw [startsHash, startsHash, startsEscape_alike (seal_ne_backslash hd) s t t']
  cases s <;> rfl

/-- Reading at a mark does not go past the seal, except in a string or a
comment. -/
theorem readMark_alike (c : Char) :
    Alike Prod.snd (1 + s.length) (readMark c (s ++ d :: t))
      (readMark c (s ++ d :: t')) := by
  have hhalt := isHalt_of_isSeal hd
  have hdelimiter :=
    (delimiterLength_halt hhalt s t c).trans
      (delimiterLength_halt hhalt s t' c).symm
  have hmark : ['/', '*'].isPrefixOf (c :: (s ++ d :: t)) =
      ['/', '*'].isPrefixOf (c :: (s ++ d :: t')) := by
    cases s <;> rfl
  unfold readMark
  rw [hdelimiter, hmark]
  split
  · exact .refl _
  · exact .refl _
  split
  · refine (readString_alike hd s t t' c).map
      (fun answer => (stringKind answer.2, 1 + answer.1)) fun _ h => ?_
    exact Nat.add_lt_add_left h 1
  split
  · next hcomment =>
    cases s with
    | nil =>
      have hd' : d ≠ '*' := by
        rcases seal_cases hd with rfl | rfl | rfl | rfl | rfl <;> decide
      simp [List.isPrefixOf, hd'.symm] at hcomment
    | cons e s =>
      refine (readComment_alike s d t t').map
        (fun answer => (Kind.comment answer.2, 2 + answer.1)) fun _ h => ?_
      rw [List.length_cons]
      dsimp only
      omega
  · exact .refl _

theorem readSign_alike (c : Char) :
    Alike Prod.snd (1 + s.length) (readSign c (s ++ d :: t))
      (readSign c (s ++ d :: t')) := by
  have hname := readName_alike hd s t t'
  unfold readSign
  rw [startsIdentifier_seal hd s t t', startsHash_seal hd s t t']
  split
  · refine hname.map (fun name => (Kind.atKeyword name.1, 1 + name.2))
      fun _ h => ?_
    exact Nat.add_lt_add_left h 1
  split
  · refine hname.map (fun name => (Kind.hash name.1, 1 + name.2)) fun _ h => ?_
    exact Nat.add_lt_add_left h 1
  · exact readMark_alike hd s t t' c

/-- Two readings of a lexeme are the same or both go past the seal. -/
theorem read_alike (c : Char) :
    Alike Prod.snd (1 + s.length) (read c (s ++ d :: t))
      (read c (s ++ d :: t')) := by
  have hspace : spaceLength (c :: (s ++ d :: t)) =
      spaceLength (c :: (s ++ d :: t')) :=
    (spaceLength_seal hd (c :: s) t).trans
      (spaceLength_seal hd (c :: s) t').symm
  have harrow : ['-', '-', '>'].isPrefixOf (c :: (s ++ d :: t)) =
      ['-', '-', '>'].isPrefixOf (c :: (s ++ d :: t')) := by
    have hmem : d ∉ ['-', '-', '>'] := by
      rcases seal_cases hd with rfl | rfl | rfl | rfl | rfl <;> decide
    exact (isPrefixOf_seal hmem (c :: s) t).trans
      (isPrefixOf_seal hmem (c :: s) t').symm
  have hstart : startsIdentifier (c :: (s ++ d :: t)) =
      startsIdentifier (c :: (s ++ d :: t')) :=
    startsIdentifier_seal hd (c :: s) t t'
  have hword := readIdentifierLike_alike hd (c :: s) t t'
  have hnumeric := readNumeric?_alike hd (c :: s) t t'
  rw [List.length_cons, Nat.add_comm, List.cons_append,
    List.cons_append] at hword hnumeric
  rw [read_eq, read_eq, hspace, harrow, hstart, startsRange_seal hd s t t' c]
  split
  · exact .refl _
  split
  · next hrange =>
    rw [rangeLength_seal hd s t t'
      ((startsRange_seal hd s t t' c).trans hrange)]
    exact .refl _
  split
  · exact .refl _
  split
  · exact hword
  · rcases hnumeric with hsame | ⟨left, right, hleft, hright, hlong⟩
    · rw [hsame]
      cases readNumeric? (c :: (s ++ d :: t')) with
      | some answer => exact .refl _
      | none => exact readSign_alike hd s t t' c
    · rw [hleft, hright]
      exact Or.inr hlong

/-- A lexeme that ends before a seal does not depend on what follows the
seal. -/
theorem read_eq_of_seal {s t : Text} {c : Char} (t' : Text)
    (h : (read c (s ++ d :: t)).2 ≤ 1 + s.length) :
    read c (s ++ d :: t') = read c (s ++ d :: t) := by
  rcases read_alike hd s t t' c with heq | hlong
  · exact heq.symm
  · omega

end Read

end Lexeme

end OklchGate.Css
