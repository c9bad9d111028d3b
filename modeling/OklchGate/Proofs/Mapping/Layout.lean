import OklchGate.Proofs.Mapping.Lines

/-!
# Mapping literals in conventional layout

A file holds one mapping literal, line by line: a line opens a mapping, closes
one or holds an entry, and is indented by one tab for each mapping around it.
The gated entry of such a file goes to the end of a line, which need not be in
the mapping of its anchor.

There are five groups.

* `Line` and `MappingFile`, with the text of a file.
* `hexPairs_text`: the pairs of a file are those of its entry lines.
* `Line.closesPlainly`, the lines in front of which a gated entry is put.
* `opened`, the mappings that are open after some lines, and `opened_eq_iff`:
  the same ones are open again after lines that are balanced, and only after
  such.
* `insertion_stays_iff`: where the gated entry goes, and when that is in the
  mapping of the last entry.
-/

namespace OklchGate.Mapping

/-! ## Lines and files -/

/-- What comes after the closing brace of a mapping. -/
inductive Ending where
  | none
  | comma
  | semicolon
  deriving DecidableEq, Repr

/-- A line of a mapping literal.  The key of a line that opens a mapping may
stand in quotes. -/
inductive Line where
  | opener (isQuoted : Bool) (key : Text)
  | entry (key value : Text)
  | closer (ending : Ending)
  deriving DecidableEq, Repr

/-- The text of an ending. -/
def Ending.text : Ending → Text
  | none => []
  | comma => [',']
  | semicolon => [';']

/-- A text without quotes and line breaks. -/
def PlainText (text : Text) : Prop := '\'' ∉ text ∧ '\n' ∉ text ∧ '\r' ∉ text

instance (text : Text) : Decidable (PlainText text) :=
  inferInstanceAs (Decidable (_ ∧ _ ∧ _))

namespace Line

/-- The line without its indent. -/
def body : Line → Text
  | opener true key => '\'' :: (key ++ ['\'', ':', ' ', '\x7b'])
  | opener false key => key ++ [':', ' ', '\x7b']
  | entry key value =>
    '\'' :: (key ++ '\'' :: ':' :: ' ' :: '\'' :: (value ++ ['\'', ',']))
  | closer ending => '\x7d' :: ending.text

/-- The keys and values of a line are plain. -/
def Plain : Line → Prop
  | opener _ key => PlainText key
  | entry key value => PlainText key ∧ PlainText value
  | closer _ => True

instance (line : Line) : Decidable line.Plain := by
  cases line
  · exact inferInstanceAs (Decidable (PlainText _))
  · exact inferInstanceAs (Decidable (_ ∧ _))
  · exact inferInstanceAs (Decidable True)

/-- The number of mappings around a line where `depth` mappings are open before
it. -/
def depth (depth : Nat) : Line → Nat
  | closer _ => depth - 1
  | _ => depth

/-- The number of mappings that are open after a line. -/
def depthAfter (depth : Nat) : Line → Nat
  | opener .. => depth + 1
  | entry .. => depth
  | closer _ => depth - 1

end Line

/-- The texts of some lines, with one tab for each mapping around a line. -/
def lineTexts (depth : Nat) : List Line → List Text
  | [] => []
  | line :: rest =>
    (List.replicate (line.depth depth) '\t' ++ line.body) ::
      lineTexts (line.depthAfter depth) rest

/-- Some lines close the mappings that are open before them, and the last of
them is the last line. -/
def closesAll : Nat → List Line → Bool
  | 0, lines => lines.isEmpty
  | _ + 1, [] => false
  | depth + 1, .opener .. :: rest => closesAll (depth + 2) rest
  | depth + 1, .entry .. :: rest => closesAll (depth + 1) rest
  | depth + 1, .closer _ :: rest => closesAll depth rest

/-- A file that is one mapping literal in conventional layout. -/
structure MappingFile where
  lines : List Line
  /-- Lines end in CR LF. -/
  endsInReturn : Bool
  /-- The last line ends in a line break. -/
  endsInBreak : Bool
  plain : ∀ line ∈ lines, line.Plain
  opens : ∃ isQuoted key rest, lines = .opener isQuoted key :: rest ∧
    closesAll 1 rest = true

namespace MappingFile

/-- What stands before the line feed of a line break. -/
def beforeFeed (file : MappingFile) : Text :=
  if file.endsInReturn then ['\r'] else []

/-- The line break of a file. -/
def newline (file : MappingFile) : Text := file.beforeFeed ++ ['\n']

/-- What stands after the last line. -/
def final (file : MappingFile) : Text :=
  if file.endsInBreak then file.newline else []

/-- The texts of the lines of a file. -/
def texts (file : MappingFile) : List Text := lineTexts 0 file.lines

/-- The text of a file. -/
def text (file : MappingFile) : Text :=
  Text.joinWith file.newline file.texts ++ file.final

/-- The offset at which the first `count` lines end. -/
def endOf (file : MappingFile) (count : Nat) : Nat :=
  endOfLines file.newline file.texts count

theorem isReturn (file : MappingFile) : IsReturn file.beforeFeed := by
  rw [beforeFeed]
  split
  · exact Or.inr rfl
  · exact Or.inl rfl

theorem final_eq (file : MappingFile) :
    file.final = [] ∨ file.final = file.beforeFeed ++ ['\n'] := by
  rw [final]
  split
  · exact Or.inr rfl
  · exact Or.inl rfl

end MappingFile

/-! ## The pairs of a file -/

/-- The value of an entry is read as a hex text. -/
def isHexValue : Text → Bool
  | '#' :: digits =>
    3 ≤ digits.length && digits.length ≤ 8 && digits.all isHexDigit
  | _ => false

/-- The pair of a line. -/
def Line.pair? : Line → Option (Text × Text)
  | entry key value => if isHexValue value then some (key, value) else none
  | _ => none

theorem hexPairs_quote (rest : Text) :
    hexPairs ('\'' :: rest) =
      match readEntry? rest with
      | some (key, hex, length) => (key, hex) :: hexPairs (rest.drop length)
      | none => hexPairs rest := by
  rw [hexPairs, Pieces.cut_cons, if_pos rfl]
  cases readEntry? rest <;> rfl

theorem hexPairs_append {before : Text} (h : '\'' ∉ before) (rest : Text) :
    hexPairs (before ++ rest) = hexPairs rest := by
  induction before with
  | nil => rfl
  | cons c before ih =>
    rw [List.mem_cons, not_or] at h
    rw [← ih h.2, List.cons_append, hexPairs, Pieces.cut_cons,
      if_neg (Ne.symm h.1)]
    rfl

/-- Up to its first quote, an entry that is read is its key. -/
theorem takeWhile_key {key : Text} (h : '\'' ∉ key) (rest : Text) :
    (key ++ '\'' :: rest).takeWhile (· ≠ '\'') = key := by
  induction key with
  | nil => rfl
  | cons c key ih =>
    rw [List.mem_cons, not_or] at h
    rw [List.cons_append,
      List.takeWhile_cons_of_pos (by simpa using Ne.symm h.1), ih h.2]

/-- What is read of an entry after its key and the quote that ends it. -/
def readValue? (key : Text) : Text → Option (Text × Text × Nat)
  | ':' :: rest =>
    let blanks := rest.takeWhile isBlank
    match rest.drop blanks.length with
    | '\'' :: '#' :: value =>
      let digits := value.takeWhile isHexDigit
      if 3 ≤ digits.length ∧ digits.length ≤ 8 ∧
          (value.drop digits.length).head? = some '\'' then
        some (key, '#' :: digits,
          key.length + blanks.length + digits.length + 5)
      else none
    | _ => none
  | _ => none

theorem readEntry?_key {key : Text} (h : '\'' ∉ key) (rest : Text) :
    readEntry? (key ++ '\'' :: rest) = readValue? key rest := by
  unfold readEntry?
  rw [takeWhile_key h]
  dsimp only
  rw [List.drop_left]
  cases rest with
  | nil => rfl
  | cons c rest =>
    by_cases hc : c = ':'
    · subst hc
      rfl
    · simp [readValue?, hc]

/-- The hex text of a value is read after the blanks. -/
theorem readValue?_blanks (key : Text) {blanks : Text}
    (h : ∀ c ∈ blanks, isBlank c = true) (value : Text) :
    readValue? key (':' :: (blanks ++ '\'' :: '#' :: value)) =
      if 3 ≤ (value.takeWhile isHexDigit).length ∧
        (value.takeWhile isHexDigit).length ≤ 8 ∧
          (value.drop (value.takeWhile isHexDigit).length).head? =
            some '\'' then
        some (key, '#' :: value.takeWhile isHexDigit,
          key.length + blanks.length + (value.takeWhile isHexDigit).length + 5)
      else none := by
  have htake : (blanks ++ '\'' :: '#' :: value).takeWhile isBlank = blanks := by
    rw [List.takeWhile_append_of_pos h, List.takeWhile_cons_of_neg (by decide),
      List.append_nil]
  rw [readValue?]
  dsimp only
  rw [htake, List.drop_left]
  rfl

theorem takeWhile_eq_self {isIn : Char → Bool} {text : Text}
    (h : ∀ c ∈ text, isIn c = true) :
    text.takeWhile isIn = text := by
  induction text with
  | nil => rfl
  | cons c text ih =>
    rw [List.forall_mem_cons] at h
    rw [List.takeWhile_cons_of_pos h.1, ih h.2]

/-- Without a quote no entry is read. -/
theorem readEntry?_of_not_mem {text : Text} (h : '\'' ∉ text) :
    readEntry? text = none := by
  have htake : text.takeWhile (· ≠ '\'') = text :=
    takeWhile_eq_self fun c hc => by
      simpa using fun heq : c = '\'' => h (heq ▸ hc)
  unfold readEntry?
  rw [htake]
  dsimp only
  rw [List.drop_length]

/-- No value is read if no hex text starts after the next quote. -/
theorem readValue?_of_next (key : Text) {before next : Text} (h : '\'' ∉ before)
    (hnext : next.head? ≠ some '#') :
    readValue? key (before ++ '\'' :: next) = none := by
  cases before with
  | nil => rfl
  | cons c before =>
    rw [List.mem_cons, not_or] at h
    by_cases hc : c = ':'
    · subst hc
      obtain ⟨blanks, hblanks⟩ :
          ∃ blanks, blanks = (before ++ '\'' :: next).takeWhile isBlank :=
        ⟨_, rfl⟩
      have hparts := takeWhile_append_drop isBlank (before ++ '\'' :: next)
      rw [List.cons_append, readValue?]
      dsimp only
      rw [← hblanks] at hparts ⊢
      have hquote : '\'' ∉ blanks := fun hmem =>
        absurd (List.all_eq_true.mp List.all_takeWhile _ (hblanks ▸ hmem))
          (by decide)
      split
      · next value hvalue =>
        rw [hvalue] at hparts
        have hbegins : blanks ++ '\'' :: ('#' :: value) <+: before ++
            '\'' :: next :=
          hparts ▸ List.prefix_rfl
        obtain ⟨after, rfl⟩ :=
          ((Text.quoted_prefix_iff hquote h.2).mp hbegins).2
        exact absurd rfl hnext
      · rfl
    · simp [readValue?, hc]

theorem isHexValue_cons (digits : Text) :
    isHexValue ('#' :: digits) = true ↔
      3 ≤ digits.length ∧ digits.length ≤ 8 ∧ ∀ c ∈ digits,
        isHexDigit c = true := by
  simp [isHexValue, and_assoc]

/-- Digits that end before a quote are all there is before it. -/
theorem takeWhile_digits {digits : Text} (h : '\'' ∉ digits) (next : Text) :
    ((digits ++ '\'' :: next).drop
        ((digits ++ '\'' :: next).takeWhile isHexDigit).length).head? =
          some '\'' ↔
      ∀ c ∈ digits, isHexDigit c = true := by
  obtain ⟨read, hread⟩ :
      ∃ read, read = (digits ++ '\'' :: next).takeWhile isHexDigit := ⟨_, rfl⟩
  have hparts := takeWhile_append_drop isHexDigit (digits ++ '\'' :: next)
  have hhex : ∀ c ∈ read, isHexDigit c = true := fun c hc =>
    List.all_eq_true.mp List.all_takeWhile c (hread ▸ hc)
  rw [← hread] at hparts ⊢
  constructor
  · intro hhead
    obtain ⟨after, hafter⟩ := List.head?_eq_some_iff.mp hhead
    have hquote : '\'' ∉ read := fun hmem => absurd (hhex _ hmem) (by decide)
    rw [hafter] at hparts
    have hbegins : read ++ '\'' :: after <+: digits ++ '\'' :: next := hparts ▸
      List.prefix_rfl
    exact ((Text.quoted_prefix_iff hquote h).mp hbegins).1 ▸ hhex
  · intro hall
    have hdigits : read = digits := by
      rw [hread, List.takeWhile_append_of_pos hall,
        List.takeWhile_cons_of_neg (by decide), List.append_nil]
    rw [hdigits, List.drop_left]
    rfl

theorem quote_not_mem_blanks {blanks : Text}
    (h : ∀ c ∈ blanks, isBlank c = true) :
    '\'' ∉ blanks := fun hmem => absurd (h _ hmem) (by decide)

/-- A value is read exactly if it is a hex text. -/
theorem readValue?_value (key : Text) {blanks value : Text}
    (hblanks : ∀ c ∈ blanks, isBlank c = true) (h : '\'' ∉ value)
    (next : Text) :
    readValue? key (':' :: (blanks ++ '\'' :: (value ++ '\'' :: next))) =
      if isHexValue value then
        some (key, value, key.length + blanks.length + value.length + 4)
      else none := by
  have hcolon : '\'' ∉ ':' :: blanks := fun hmem =>
    (List.mem_cons.mp hmem).elim (by decide) (quote_not_mem_blanks hblanks)
  cases value with
  | nil => exact readValue?_of_next key hcolon nofun
  | cons c digits =>
    rw [List.mem_cons, not_or] at h
    by_cases hc : c = '#'
    · subst hc
      rw [List.cons_append, readValue?_blanks key hblanks]
      have hread : (∀ c ∈ digits, isHexDigit c = true) →
          (digits ++ '\'' :: next).takeWhile isHexDigit = digits :=
            fun hall => by
        rw [List.takeWhile_append_of_pos hall,
          List.takeWhile_cons_of_neg (by decide),
          List.append_nil]
      by_cases hhex : isHexValue ('#' :: digits) = true
      · obtain ⟨hle, hge, hall⟩ := (isHexValue_cons digits).mp hhex
        have hhead := (takeWhile_digits h.2 next).mpr hall
        rw [hread hall] at hhead ⊢
        rw [if_pos ⟨hle, hge, hhead⟩, if_pos hhex]
        simp only [List.length_cons, Option.some.injEq, Prod.mk.injEq, true_and]
        omega
      · rw [if_neg hhex, if_neg]
        rintro ⟨hle, hge, hhead⟩
        have hall := (takeWhile_digits h.2 next).mp hhead
        rw [hread hall] at hle hge
        exact hhex ((isHexValue_cons digits).mpr ⟨hle, hge, hall⟩)
    · have hvalue : isHexValue (c :: digits) = false := by
        simp [isHexValue, hc]
      have hhead : (c :: (digits ++ '\'' :: next)).head? ≠ some '#' :=
        fun heq =>
        hc (Option.some.inj heq)
      rw [hvalue, if_neg Bool.false_ne_true]
      exact readValue?_of_next key hcolon hhead

/-- After some text, no entry is read that starts before it. -/
def Dead (rest : Text) : Prop :=
  ∀ before, '\'' ∉ before → readEntry? (before ++ rest) = none

theorem Dead.append {before rest : Text} (h : '\'' ∉ before)
    (hrest : Dead rest) :
    Dead (before ++ rest) := by
  intro front hfront
  rw [← List.append_assoc]
  exact hrest _ fun hmem => (List.mem_append.mp hmem).elim hfront h

theorem dead_of_not_mem {rest : Text} (h : '\'' ∉ rest) : Dead rest :=
  fun _ hfront =>
  readEntry?_of_not_mem fun hmem => (List.mem_append.mp hmem).elim hfront h

/-- A key in quotes that a colon follows ends what is read before it. -/
theorem dead_of_key {key : Text} (h : '\'' ∉ key) (rest : Text) :
    Dead ('\'' :: (key ++ '\'' :: ':' :: rest)) := by
  intro front hfront
  rw [readEntry?_key hfront]
  exact readValue?_of_next front h nofun

/-- A key and a value in quotes are read as one pair or as none, whatever no
entry is read across may follow but a colon or a hash. -/
theorem hexPairs_pair {key blanks value rest : Text} (hkey : '\'' ∉ key)
    (hblanks : ∀ c ∈ blanks, isBlank c = true) (hvalue : '\'' ∉ value)
    (hrest : Dead rest) (hcolon : rest.head? ≠ some ':')
    (hhash : rest.head? ≠ some '#') :
    hexPairs ('\'' ::
      (key ++ '\'' :: ':' :: (blanks ++ '\'' :: (value ++ '\'' :: rest)))) =
      (if isHexValue value then some (key, value) else none).toList ++
        hexPairs rest := by
  have hbetween : '\'' ∉ ':' :: blanks := fun hmem =>
    (List.mem_cons.mp hmem).elim (by decide) (quote_not_mem_blanks hblanks)
  rw [hexPairs_quote, readEntry?_key hkey, readValue?_value key hblanks hvalue]
  by_cases hhex : isHexValue value = true
  · have hdrop :
      (key ++ '\'' :: ':' :: (blanks ++ '\'' :: (value ++ '\'' :: rest))).drop
        (key.length + blanks.length + value.length + 4) = rest := by
      have hparts : key ++
        '\'' :: ':' :: (blanks ++ '\'' :: (value ++ '\'' :: rest)) =
          (key ++ ['\'', ':'] ++ blanks ++ ['\''] ++ value ++ ['\'']) ++
            rest := by simp
      rw [hparts]
      exact List.drop_left' (by simp; omega)
    rw [if_pos hhex, if_pos hhex]
    dsimp only
    rw [hdrop]
    rfl
  · -- No quote of the pair starts an entry.
    have hfirst : readEntry?
        (':' :: (blanks ++ '\'' :: (value ++ '\'' :: rest))) = none :=
      (readEntry?_key hbetween _).trans (readValue?_of_next _ hvalue hhash)
    have hsecond : readEntry? (value ++ '\'' :: rest) = none := by
      rw [readEntry?_key hvalue]
      cases rest with
      | nil => rfl
      | cons c rest =>
        simp [readValue?, show c ≠ ':' from fun heq =>
          hcolon (congrArg some heq)]
    have hthird : readEntry? rest = none := hrest [] List.not_mem_nil
    have hskip : hexPairs (':' :: (blanks ++ '\'' :: (value ++ '\'' :: rest))) =
        hexPairs ('\'' :: (value ++ '\'' :: rest)) := hexPairs_append hbetween _
    rw [if_neg hhex, if_neg hhex]
    dsimp only
    rw [hexPairs_append hkey, hexPairs_quote, hfirst]
    dsimp only
    rw [hskip, hexPairs_quote, hsecond]
    dsimp only
    rw [hexPairs_append hvalue, hexPairs_quote, hthird]
    rfl

/-- The pairs of a line among lines, and that no entry is read across its
start. -/
theorem hexPairs_line {line : Line} (hline : line.Plain) {before rest : Text}
    (hbefore : '\'' ∉ before) (hrest : Dead rest) :
    hexPairs (before ++ line.body ++ rest) = line.pair?.toList ++
      hexPairs rest ∧ Dead (before ++ line.body ++ rest) := by
  rw [List.append_assoc, hexPairs_append hbefore]
  suffices h : hexPairs (line.body ++ rest) = line.pair?.toList ++
    hexPairs rest ∧ Dead (line.body ++ rest) from ⟨h.1, h.2.append hbefore⟩
  cases line with
  | closer ending =>
    have hquote : '\'' ∉ (Line.closer ending).body := by cases ending <;> decide
    exact ⟨hexPairs_append hquote rest, hrest.append hquote⟩
  | opener isQuoted key =>
    cases isQuoted with
    | false =>
      have hquote : '\'' ∉ (Line.opener false key).body := fun hmem =>
        (List.mem_append.mp hmem).elim hline.1 (by decide)
      exact ⟨hexPairs_append hquote rest, hrest.append hquote⟩
    | true =>
      have hbody : (Line.opener true key).body ++ rest =
          '\'' :: (key ++ '\'' :: ':' :: ([' ', '\x7b'] ++ rest)) := by
        simp [Line.body]
      rw [hbody]
      refine ⟨?_, dead_of_key hline.1 _⟩
      have hopens : readValue? key (':' :: ([' ', '\x7b'] ++ rest)) = none :=
        rfl
      have hcolon : readEntry? ([':', ' ', '\x7b'] ++ rest) = none :=
        hrest _ (by decide)
      rw [hexPairs_quote, readEntry?_key hline.1, hopens]
      dsimp only
      rw [hexPairs_append hline.1, hexPairs_quote, ← List.cons_append, hcolon]
      exact hexPairs_append (by decide) rest
  | entry key value =>
    have hbody : (Line.entry key value).body ++ rest =
        '\'' :: (key ++ '\'' :: ':' ::
          ([' '] ++ '\'' :: (value ++ '\'' :: ([','] ++ rest)))) := by
      simp [Line.body]
    have hspace : ∀ c ∈ [' '], isBlank c = true :=
      List.forall_mem_singleton.mpr rfl
    have hcomma : '\'' ∉ [','] := by decide
    rw [hbody]
    refine ⟨?_, dead_of_key hline.1.1 _⟩
    rw [hexPairs_pair hline.1.1 hspace hline.2.1 (hrest.append hcomma) (by simp)
      (by simp),
      hexPairs_append hcomma]
    rfl

theorem not_mem_tabs (c : Char) (h : c ≠ '\t') (count : Nat) :
    c ∉ List.replicate count '\t' :=
  fun hmem => h (List.mem_replicate.mp hmem).2

/-- The pairs of some lines that follow others. -/
theorem hexPairs_linesText {newline final : Text} (hnewline : '\'' ∉ newline)
    (hfinal : '\'' ∉ final) {lines : List Line}
    (hlines : ∀ line ∈ lines, line.Plain) (depth : Nat) :
    hexPairs (linesText newline (lineTexts depth lines) ++ final) =
      lines.filterMap Line.pair? ∧
      Dead (linesText newline (lineTexts depth lines) ++ final) := by
  induction lines generalizing depth with
  | nil =>
    have hpairs := hexPairs_append hfinal []
    rw [List.append_nil] at hpairs
    exact ⟨hpairs, dead_of_not_mem hfinal⟩
  | cons line rest ih =>
    obtain ⟨hline, hrest⟩ := List.forall_mem_cons.mp hlines
    obtain ⟨hpairs, hdead⟩ := ih hrest (line.depthAfter depth)
    have hbefore : '\'' ∉ newline ++ List.replicate (line.depth depth) '\t' :=
      fun hmem =>
      (List.mem_append.mp hmem).elim hnewline (not_mem_tabs _ (by decide) _)
    obtain ⟨hown, hownDead⟩ := hexPairs_line hline hbefore hdead
    have hparts : linesText newline (lineTexts depth (line :: rest)) ++ final =
        newline ++ List.replicate (line.depth depth) '\t' ++ line.body ++
          (linesText newline (lineTexts (line.depthAfter depth) rest) ++
            final) := by
      rw [lineTexts, linesText_cons]
      simp only [List.append_assoc]
    rw [hparts, hown, hpairs, List.filterMap_cons]
    exact ⟨by cases line.pair? <;> rfl, hownDead⟩

namespace MappingFile

variable (file : MappingFile)

theorem quote_not_mem : '\'' ∉ file.newline ∧ '\'' ∉ file.final := by
  rw [final, newline, beforeFeed]
  constructor
  · split <;> decide
  · split
    · split <;> decide
    · decide

/-- The pairs of a file are those of its entry lines. -/
theorem hexPairs_text : hexPairs file.text =
    file.lines.filterMap Line.pair? := by
  obtain ⟨isQuoted, key, rest, hlines, _⟩ := file.opens
  obtain ⟨hline, hrest⟩ := List.forall_mem_cons.mp (hlines ▸ file.plain)
  obtain ⟨hpairs, hdead⟩ :=
    hexPairs_linesText file.quote_not_mem.1 file.quote_not_mem.2 hrest 1
  have hown := (hexPairs_line hline (List.not_mem_nil (a := '\'')) hdead).1
  have hparts : file.text = [] ++ (Line.opener isQuoted key).body ++
      (linesText file.newline (lineTexts 1 rest) ++ file.final) := by
    rw [text, texts, hlines, lineTexts, joinWith_cons]
    exact List.append_assoc ..
  rw [hparts, hown, hpairs, hlines]
  rfl

end MappingFile

/-! ## Lines in front of which a gated entry is put -/

/-- The line closes a mapping and has no semicolon. -/
def Line.closesPlainly : Line → Bool
  | closer ending => decide (ending ≠ .semicolon)
  | _ => false

/-- A line that opens a mapping is no closing line. -/
theorem startsWithClosingLine_of_opening {text : Text} (hopens : '\x7b' ∈ text)
    (hbreak : '\n' ∉ text) : startsWithClosingLine text = false := by
  rw [startsWithClosingLine_eq]
  split
  · next rest hrest =>
    have hmem : '\x7b' ∈ text.dropWhile isBlank := by
      rw [← List.takeWhile_append_dropWhile (p := isBlank) (l := text),
        List.mem_append] at hopens
      refine hopens.resolve_left fun hblank => ?_
      exact absurd (List.all_eq_true.mp List.all_takeWhile _ hblank) (by decide)
    rw [hrest, List.mem_cons] at hmem
    have hrestMem : '\x7b' ∈ rest := hmem.resolve_left (by decide)
    have hrestBreak : '\n' ∉ rest := fun hmem => hbreak
      ((List.dropWhile_suffix isBlank).subset
        (hrest ▸ List.mem_cons_of_mem _ hmem))
    obtain ⟨shown, hshown⟩ :
        ∃ shown, shown = if rest.head? = some ',' then rest.tail else rest :=
          ⟨_, rfl⟩
    have hshownMem : '\x7b' ∈ shown := by
      rw [hshown]
      split
      · next hcomma =>
        obtain ⟨after, rfl⟩ := List.head?_eq_some_iff.mp hcomma
        exact (List.mem_cons.mp hrestMem).resolve_left (by decide)
      · exact hrestMem
    have hshownBreak : '\n' ∉ shown := by
      rw [hshown]
      split
      · exact fun hmem => hrestBreak (List.mem_of_mem_tail hmem)
      · exact hrestBreak
    have hblank :=
      blankToEnd_append (Or.inl rfl) hshownBreak (Or.inl rfl : Follows [] [])
    rw [List.append_nil] at hblank
    rw [← hshown, hblank, List.all_eq_false]
    exact ⟨'\x7b', hshownMem, by decide⟩
  · rfl

theorem Line.noBreak {line : Line} (h : line.Plain) :
    '\n' ∉ line.body ∧ '\r' ∉ line.body := by
  cases line with
  | closer ending => cases ending <;> decide
  | opener isQuoted key =>
    obtain ⟨_, hfeed, hreturn⟩ := h
    cases isQuoted <;> simp [body, hfeed, hreturn]
  | entry key value =>
    obtain ⟨⟨_, hkeyFeed, hkeyReturn⟩, _, hvalueFeed, hvalueReturn⟩ := h
    simp [body, hkeyFeed, hkeyReturn, hvalueFeed, hvalueReturn]

theorem Line.notBlank (line : Line) : ∃ c ∈ line.body, isBlank c = false := by
  cases line with
  | closer ending => exact ⟨'\x7d', List.mem_cons_self, by decide⟩
  | opener isQuoted key =>
    refine ⟨'\x7b', ?_, by decide⟩
    cases isQuoted <;> simp [body]
  | entry key value => exact ⟨'\'', List.mem_cons_self, by decide⟩

/-- A line of a file, with its tabs, is a line. -/
theorem plainLine_of_plain {line : Line} (h : line.Plain) (count : Nat) :
    PlainLine (List.replicate count '\t' ++ line.body) where
  noBreak := by
    obtain ⟨hfeed, hreturn⟩ := line.noBreak h
    simp only [List.mem_append, not_or]
    exact ⟨⟨not_mem_tabs _ (by decide) _, hfeed⟩, not_mem_tabs _ (by decide) _,
      hreturn⟩
  notBlank := by
    obtain ⟨c, hc, hblank⟩ := line.notBlank
    exact ⟨c, List.mem_append_right _ hc, hblank⟩

theorem dropWhile_tabs (count : Nat) (text : Text) :
    (List.replicate count '\t' ++ text).dropWhile isBlank =
      text.dropWhile isBlank :=
  List.dropWhile_append_of_pos fun c hc => by
    rw [(List.mem_replicate.mp hc).2]; rfl

/-- The closing lines of a file are those that close a mapping without a
semicolon. -/
theorem startsWithClosingLine_line {line : Line} (h : line.Plain)
    (count : Nat) :
    startsWithClosingLine (List.replicate count '\t' ++ line.body) =
      line.closesPlainly := by
  cases line with
  | opener isQuoted key =>
    have hopens : '\x7b' ∈ (Line.opener isQuoted key).body := by
      cases isQuoted <;> simp [Line.body]
    exact startsWithClosingLine_of_opening (List.mem_append_right _ hopens)
      (plainLine_of_plain h count).noBreak.1
  | entry key value =>
    rw [startsWithClosingLine_eq, dropWhile_tabs]
    rfl
  | closer ending =>
    rw [startsWithClosingLine_eq, dropWhile_tabs]
    cases ending <;> decide

theorem plainLine_of_mem_lineTexts {lines : List Line}
    (hlines : ∀ line ∈ lines, line.Plain) (depth : Nat) :
    ∀ text ∈ lineTexts depth lines, PlainLine text := by
  induction lines generalizing depth with
  | nil => exact nofun
  | cons line rest ih =>
    obtain ⟨hline, hrest⟩ := List.forall_mem_cons.mp hlines
    exact List.forall_mem_cons.mpr ⟨plainLine_of_plain hline _, ih hrest _⟩

theorem map_startsWithClosingLine {lines : List Line}
    (hlines : ∀ line ∈ lines, line.Plain) (depth : Nat) :
    (lineTexts depth lines).map startsWithClosingLine =
      lines.map Line.closesPlainly := by
  induction lines generalizing depth with
  | nil => rfl
  | cons line rest ih =>
    obtain ⟨hline, hrest⟩ := List.forall_mem_cons.mp hlines
    rw [lineTexts, List.map_cons, List.map_cons,
      startsWithClosingLine_line hline, ih hrest]

theorem getElem?_lineTexts {lines : List Line} {index : Nat} {line : Line}
    (h : lines[index]? = some line) (depth : Nat) :
    ∃ count, (lineTexts depth lines)[index]? =
      some (List.replicate count '\t' ++ line.body) := by
  induction lines generalizing index depth with
  | nil => cases h
  | cons first rest ih =>
    cases index with
    | zero =>
      cases h
      exact ⟨_, rfl⟩
    | succ index => exact ih h _

/-! ## Open mappings -/

/-- The mappings that are open after some lines, by the numbers of the lines
that open them, the innermost first.  The lines are numbered from `number`
on. -/
def opened (number : Nat) (stack : List Nat) : List Line → List Nat
  | [] => stack
  | .opener .. :: rest => opened (number + 1) (number :: stack) rest
  | .entry .. :: rest => opened (number + 1) stack rest
  | .closer _ :: rest => opened (number + 1) stack.tail rest

/-- Some lines close what they open, and no more, when they come after lines
that opened `depth` mappings. -/
def isBalanced : Nat → List Line → Bool
  | depth, [] => depth == 0
  | depth, .opener .. :: rest => isBalanced (depth + 1) rest
  | depth, .entry .. :: rest => isBalanced depth rest
  | 0, .closer _ :: _ => false
  | depth + 1, .closer _ :: rest => isBalanced depth rest

theorem opened_append (number : Nat) (stack : List Nat) (a b : List Line) :
    opened number stack (a ++ b) =
      opened (number + a.length) (opened number stack a) b := by
  induction a generalizing number stack with
  | nil => rfl
  | cons line rest ih =>
    rw [List.length_cons, Nat.add_comm rest.length, ← Nat.add_assoc]
    cases line <;> exact ih _ _

/-- What is open after some lines was opened by them or is what they left of the
stack. -/
theorem exists_opened_eq (number : Nat) (stack : List Nat) (lines : List Line) :
    ∃ new count, opened number stack lines = new ++ stack.drop count ∧
      ∀ n ∈ new, number ≤ n := by
  induction lines generalizing number stack with
  | nil => exact ⟨[], 0, rfl, nofun⟩
  | cons line rest ih =>
    cases line with
    | opener isQuoted key =>
      obtain ⟨new, count, hopened, hnew⟩ := ih (number + 1) (number :: stack)
      cases count with
      | zero =>
        refine ⟨new ++ [number], 0, ?_, fun n hn => ?_⟩
        · rw [opened, hopened]
          simp
        · rcases List.mem_append.mp hn with hn | hn
          · exact Nat.le_of_succ_le (hnew n hn)
          · exact Nat.le_of_eq (List.mem_singleton.mp hn).symm
      | succ count =>
        exact ⟨new, count, hopened, fun n hn => Nat.le_of_succ_le (hnew n hn)⟩
    | entry key value =>
      obtain ⟨new, count, hopened, hnew⟩ := ih (number + 1) stack
      exact ⟨new, count, hopened, fun n hn => Nat.le_of_succ_le (hnew n hn)⟩
    | closer ending =>
      obtain ⟨new, count, hopened, hnew⟩ := ih (number + 1) stack.tail
      refine ⟨new, count + 1, ?_, fun n hn => Nat.le_of_succ_le (hnew n hn)⟩
      rw [opened, hopened, ← List.drop_one, List.drop_drop, Nat.add_comm 1]

/-- A mapping that is closed is not opened again: later ones have other
numbers. -/
theorem opened_tail_ne {number first : Nat} {stack : List Nat}
    (hfirst : first < number) (lines : List Line) :
    opened number stack lines ≠ first :: stack := by
  obtain ⟨new, count, hopened, hnew⟩ := exists_opened_eq number stack lines
  rw [hopened]
  intro heq
  cases new with
  | nil =>
    have hlength := congrArg List.length heq
    rw [List.nil_append, List.length_drop, List.length_cons] at hlength
    omega
  | cons n new =>
    have hn := hnew n List.mem_cons_self
    rw [(List.cons.inj heq).1] at hn
    omega

/-- The mappings that are open are open again after some lines exactly if these
are balanced. -/
theorem opened_eq_iff {number : Nat} {new stack : List Nat} (hne : stack ≠ [])
    (hstack : ∀ n ∈ stack, n < number) (lines : List Line) :
    opened number (new ++ stack) lines = stack ↔ isBalanced new.length lines =
      true := by
  induction lines generalizing number new with
  | nil =>
    rw [opened, isBalanced, beq_iff_eq, List.length_eq_zero_iff]
    exact List.append_left_eq_self
  | cons line rest ih =>
    have hnext : ∀ n ∈ stack, n < number + 1 :=
      fun n hn => Nat.lt_succ_of_lt (hstack n hn)
    cases line with
    | opener isQuoted key =>
      rw [opened, isBalanced]
      exact @ih (number + 1) (number :: new) hnext
    | entry key value =>
      rw [opened, isBalanced]
      exact ih hnext
    | closer ending =>
      rw [opened]
      cases new with
      | nil =>
        obtain ⟨first, below, rfl⟩ := List.exists_cons_of_ne_nil hne
        have hfirst := hstack first List.mem_cons_self
        refine ⟨fun heq => ?_, nofun⟩
        exact absurd heq (opened_tail_ne (Nat.lt_succ_of_lt hfirst) rest)
      | cons n new =>
        rw [List.length_cons, isBalanced]
        exact ih hnext

/-- The mappings that are open after some lines were opened by lines with
smaller numbers. -/
theorem opened_lt {number : Nat} {stack : List Nat}
    (hstack : ∀ n ∈ stack, n < number) (lines : List Line) :
    ∀ n ∈ opened number stack lines, n < number + lines.length := by
  induction lines generalizing number stack with
  | nil => exact hstack
  | cons line rest ih =>
    have hnext : ∀ n ∈ stack, n < number + 1 :=
      fun n hn => Nat.lt_succ_of_lt (hstack n hn)
    rw [List.length_cons, Nat.add_comm rest.length, ← Nat.add_assoc]
    cases line with
    | opener isQuoted key =>
      exact ih (List.forall_mem_cons.mpr ⟨Nat.lt_succ_self number, hnext⟩)
    | entry key value => exact ih hnext
    | closer ending => exact ih fun n hn => hnext n (List.mem_of_mem_tail hn)

/-- An entry lies in a mapping. -/
theorem opened_ne_nil {number depth index : Nat} {stack : List Nat}
    {lines : List Line} (hdepth : stack.length = depth)
    (hcloses : closesAll depth lines = true) {key value : Text}
    (hget : lines[index]? = some (.entry key value)) :
    opened number stack (lines.take index) ≠ [] := by
  induction lines generalizing number depth index stack with
  | nil => cases hget
  | cons line rest ih =>
    cases depth with
    | zero => cases hcloses
    | succ depth =>
      cases index with
      | zero =>
        rintro rfl
        cases hdepth
      | succ index =>
        rw [List.take_succ_cons]
        cases line with
        | opener isQuoted other =>
          exact ih (congrArg (· + 1) hdepth) hcloses hget
        | entry other text => exact ih hdepth hcloses hget
        | closer ending =>
          refine ih ?_ hcloses hget
          rw [List.length_tail, hdepth]
          rfl

/-! ## Where the gated entry goes -/

/-- The entry of a line that converts. -/
def Line.converted? (convert : Converter) (line : Line) : Option Entry :=
  line.pair?.bind (Entry.ofPair? convert)

/-- The line that an entry of a scan was read from: it holds the key and the hex
text, and no later line with that key converts. -/
structure IsRecorded (convert : Converter) (lines : List Line) (entry : Entry)
    (own : Nat) :
    Prop where
  line : lines[own]? = some (.entry entry.key entry.hex)
  converts : convert entry.hex = some entry.oklch
  last : ∀ line ∈ lines.drop (own + 1), ∀ other,
    line.converted? convert = some other → other.key ≠ entry.key

/-- The last of some lines with an anchor. -/
structure IsLastHolder (texts : List Text) (anchor : Text) (holder : Nat) :
    Prop where
  holds : ∃ text, texts[holder]? = some text ∧ anchor <:+: text
  last : ∀ later ∈ texts.drop (holder + 1), ¬ anchor <:+: later

/-- The number of lines before the first line after a given one that closes a
mapping without a semicolon, or up to the given one if there is none. -/
def stopAfter (lines : List Line) (holder : Nat) : Nat :=
  holder + 1 + ((lines.drop (holder + 1)).findIdx? Line.closesPlainly).getD 0

/-- The mappings that are open after the first `count` lines. -/
def MappingFile.openAfter (file : MappingFile) (count : Nat) : List Nat :=
  opened 0 [] (file.lines.take count)

theorem Line.converted?_eq_some {convert : Converter} {line : Line}
    {entry : Entry} (h : line.converted? convert = some entry) :
    line = .entry entry.key entry.hex ∧ convert entry.hex =
      some entry.oklch := by
  cases line with
  | opener isQuoted key => cases h
  | closer ending => cases h
  | entry key value =>
    obtain ⟨pair, hpair, hentry⟩ := Option.bind_eq_some_iff.mp h
    obtain ⟨hkey, hhex, _, hconvert⟩ := Entry.ofPair?_eq_some hentry
    rw [Line.pair?] at hpair
    split at hpair
    · cases hpair
      exact ⟨by rw [hkey, hhex], hhex ▸ hconvert⟩
    · cases hpair

theorem MappingFile.conversions_text (convert : Converter)
    (file : MappingFile) :
    conversions convert file.text =
      file.lines.filterMap (Line.converted? convert) := by
  rw [conversions, file.hexPairs_text, List.filterMap_filterMap]
  rfl

/-- An entry of a scan was read from a line. -/
theorem MappingFile.exists_isRecorded {convert : Converter} {file : MappingFile}
    {entry : Entry} (h : entry ∈ (scan convert file.text).entries) :
    ∃ own, IsRecorded convert file.lines entry own := by
  rw [mem_scan_iff, file.conversions_text, entryFor?,
    List.find?_eq_some_iff_append] at h
  obtain ⟨_, later, earlier, hsplit, hlater⟩ := h
  have hfilter : file.lines.filterMap (Line.converted? convert) =
      earlier.reverse ++ entry :: later.reverse := by
    rw [← List.reverse_reverse (file.lines.filterMap _), hsplit]
    simp
  obtain ⟨front, rest, hlines, _, hrest⟩ :=
    List.filterMap_eq_append_iff.mp hfilter
  obtain ⟨skipped, line, back, rfl, _, hline, hback⟩ :=
    List.filterMap_eq_cons_iff.mp hrest
  obtain ⟨rfl, hconvert⟩ := Line.converted?_eq_some hline
  have hparts : file.lines =
      (front ++ skipped) ++ Line.entry entry.key entry.hex :: back := by
    rw [hlines, List.append_assoc]
  refine ⟨(front ++ skipped).length, ?_, hconvert,
    fun later hmem other hother heq => ?_⟩
  · rw [hparts, List.getElem?_append_right (Nat.le_refl _), Nat.sub_self]
    rfl
  · rw [hparts, List.drop_length_add_append] at hmem
    have hread : other ∈ back.filterMap (Line.converted? convert) :=
      List.mem_filterMap.mpr ⟨later, hmem, hother⟩
    rw [hback] at hread
    have hne := hlater other (List.mem_reverse.mp hread)
    rw [decide_eq_true heq] at hne
    cases hne

/-- Where an anchor occurs in a line, some line is the last one with it. -/
theorem exists_isLastHolder {texts : List Text} {anchor text : Text} {own : Nat}
    (hget : texts[own]? = some text) (hoccurs : anchor <:+: text) :
    ∃ holder, own ≤ holder ∧ IsLastHolder texts anchor holder := by
  by_cases hlater : ∃ later ∈ texts.drop (own + 1), anchor <:+: later
  · obtain ⟨later, hmem, hthere⟩ := hlater
    obtain ⟨index, hindex⟩ := List.mem_iff_getElem?.mp hmem
    rw [List.getElem?_drop] at hindex
    have hlt := (List.getElem?_eq_some_iff.mp hindex).1
    obtain ⟨holder, hle, hholder⟩ := exists_isLastHolder hindex hthere
    exact ⟨holder, by omega, hholder⟩
  · exact ⟨own, Nat.le_refl own, ⟨text, hget, hoccurs⟩,
      fun later hmem hthere => hlater ⟨later, hmem, hthere⟩⟩
termination_by texts.length - own

theorem findIdx?_lineTexts {lines : List Line}
    (hlines : ∀ line ∈ lines, line.Plain) (depth count : Nat) :
    ((lineTexts depth lines).drop count).findIdx? startsWithClosingLine =
      (lines.drop count).findIdx? Line.closesPlainly := by
  have hmap :=
    congrArg (List.drop count) (map_startsWithClosingLine hlines depth)
  have hidx := congrArg (List.findIdx? id) hmap
  rw [← List.map_drop, ← List.map_drop, List.findIdx?_map,
    List.findIdx?_map] at hidx
  exact hidx

/-- The hex text of an entry of a scan is an anchor. -/
theorem isAnchor_of_mem_scan {convert : Converter} {content : Text}
    {entry : Entry} (h : entry ∈ (scan convert content).entries) :
    IsAnchor entry.hex := by
  obtain ⟨hpair, _, _⟩ := exists_of_mem_scan convert content h
  obtain ⟨_, ⟨digits, hhex, hdigits⟩, _⟩ := exists_of_mem_hexPairs hpair
  have hnot : ∀ c, isHexDigit c = false → c ∉ digits := fun c hc hmem =>
    absurd (List.all_eq_true.mp hdigits c hmem)
      (by rw [hc]; exact Bool.false_ne_true)
  dsimp only at hhex
  rw [hhex]
  refine ⟨nofun, ?_, ?_⟩
  · exact fun hmem => (List.mem_cons.mp hmem).elim (by decide)
      (hnot _ (by decide))
  · exact fun hmem => (List.mem_cons.mp hmem).elim (by decide)
      (hnot _ (by decide))

/-- The offset for an anchor whose last line among some lines is known. -/
theorem insertionOffset?_of_isLastHolder {before final anchor : Text}
    (h : IsReturn before) (hfinal : final = [] ∨ final = before ++ ['\n'])
    (hanchor : IsAnchor anchor) {texts : List Text}
    (htexts : ∀ text ∈ texts, PlainLine text) {holder : Nat}
    (hholder : IsLastHolder texts anchor holder) :
    insertionOffset? (Text.joinWith (before ++ ['\n']) texts ++ final) anchor =
      some (endOfLines (before ++ ['\n']) texts
        (holder + 1 + ((texts.drop (holder + 1)).findIdx?
          startsWithClosingLine).getD 0)) := by
  obtain ⟨⟨text, hget, hoccurs⟩, hlast⟩ := hholder
  obtain ⟨hlt, rfl⟩ := List.getElem?_eq_some_iff.mp hget
  have hparts : texts.take holder ++ texts[holder] :: texts.drop (holder + 1) =
      texts := by
    rw [← List.drop_eq_getElem_cons hlt, List.take_append_drop]
  have hplain :
    ∀ other ∈ texts.take holder ++ texts[holder] :: texts.drop (holder + 1),
      PlainLine other := hparts.symm ▸ htexts
  have hoffset := insertionOffset?_lines h hfinal hanchor hplain hoccurs hlast
  rwa [hparts, List.length_take_of_le (Nat.le_of_lt hlt)] at hoffset

/-- The offset for an anchor in a file. -/
theorem MappingFile.insertionOffset?_text (file : MappingFile) {anchor : Text}
    {holder : Nat} (hanchor : IsAnchor anchor)
    (hholder : IsLastHolder file.texts anchor holder) :
    insertionOffset? file.text anchor =
      some (file.endOf (stopAfter file.lines holder)) := by
  have hoffset :=
    insertionOffset?_of_isLastHolder file.isReturn file.final_eq hanchor
    (plainLine_of_mem_lineTexts file.plain 0) hholder
  rwa [findIdx?_lineTexts file.plain] at hoffset

/-- What is open again at the end of some lines after an entry. -/
theorem MappingFile.openAfter_eq_iff (file : MappingFile) {own stop : Nat}
    {key value : Text} (hget : file.lines[own]? = some (.entry key value))
    (hle : own ≤ stop) :
    file.openAfter stop = file.openAfter own ↔
      isBalanced 0 ((file.lines.take stop).drop own) = true := by
  obtain ⟨isQuoted, first, rest, hlines, hcloses⟩ := file.opens
  have hlt := (List.getElem?_eq_some_iff.mp hget).1
  have hne : file.openAfter own ≠ [] := by
    rw [openAfter, hlines]
    rw [hlines] at hget
    cases own with
    | zero => cases hget
    | succ own =>
      have hinner : opened 1 [0] (rest.take own) ≠ [] :=
        opened_ne_nil rfl hcloses hget
      exact hinner
  have hstack : ∀ n ∈ file.openAfter own, n < own := by
    have hbound : ∀ n ∈ file.openAfter own,
        n < 0 + (file.lines.take own).length :=
      @opened_lt 0 [] nofun _
    rw [List.length_take_of_le (Nat.le_of_lt hlt), Nat.zero_add] at hbound
    exact hbound
  have hsplit : file.openAfter stop =
      opened own (file.openAfter own) ((file.lines.take stop).drop own) := by
    have hparts : file.lines.take stop =
        file.lines.take own ++ (file.lines.take stop).drop own := by
      have htake : file.lines.take own = (file.lines.take stop).take own := by
        rw [List.take_take, Nat.min_eq_left hle]
      rw [htake, List.take_append_drop]
    rw [openAfter, hparts, opened_append,
      List.length_take_of_le (Nat.le_of_lt hlt), Nat.zero_add, ← hparts]
    rfl
  rw [hsplit]
  exact @opened_eq_iff own [] _ hne hstack _

/-- The gated entry of a file goes to the end of the line before the first line
that closes a mapping without a semicolon, counted from the last line with the
hex text of the last entry, or of that line itself.  There the mappings around
the last entry are open, and no others, exactly if the lines from the entry up
to there are balanced. -/
theorem insertion_stays_iff (convert : Converter) (file : MappingFile)
    (hkey : ¬ gateKey <:+: file.text)
    (hconversions : conversions convert file.text ≠ []) :
    ∃ entries failures offset inserted entry own holder,
      transform convert file.text = .ok
        (.changed entries failures offset inserted) ∧
      entries.getLast? = some entry ∧
      IsRecorded convert file.lines entry own ∧
      IsLastHolder file.texts entry.hex holder ∧
      offset = file.endOf (stopAfter file.lines holder) ∧
      (file.openAfter (stopAfter file.lines holder) = file.openAfter own ↔
        isBalanced 0 ((file.lines.take (stopAfter file.lines holder)).drop
          own) = true) := by
  obtain ⟨entry, offset, indent, hlast, hoffset, _, _, htransform⟩ :=
    exists_transform_eq hkey hconversions
  have hmem : entry ∈ (scan convert file.text).entries :=
    List.mem_of_getLast? hlast
  obtain ⟨own, hown⟩ := file.exists_isRecorded hmem
  obtain ⟨count, hline⟩ := getElem?_lineTexts hown.line 0
  have hoccurs : entry.hex <:+:
      List.replicate count '\t' ++ (Line.entry entry.key entry.hex).body := by
    refine ⟨List.replicate count '\t' ++
      '\'' :: (entry.key ++ ['\'', ':', ' ', '\'']), ['\'', ','], ?_⟩
    simp [Line.body]
  obtain ⟨holder, hle, hholder⟩ := exists_isLastHolder hline hoccurs
  have hend := file.insertionOffset?_text (isAnchor_of_mem_scan hmem) hholder
  rw [hoffset] at hend
  refine ⟨_, _, _, _, entry, own, holder, htransform, hlast, hown, hholder,
    Option.some.inj hend, file.openAfter_eq_iff hown.line ?_⟩
  rw [stopAfter]
  omega

/-- Two mappings in one, each with an entry, and with the closing line of the
second one after the last entry. -/
def nestedFile : MappingFile where
  lines := [.opener false "a".toList, .opener true "b".toList,
    .entry "x".toList "#fff".toList, .closer .comma,
    .entry "y".toList "#000".toList, .closer .none]
  endsInReturn := true
  endsInBreak := false
  plain := by decide
  opens := ⟨false, "a".toList, _, rfl, by decide⟩

/-- The file with two mappings in which the gated entry stays in the mapping. -/
theorem insertion_stays_iff_nested :
    ∃ entries failures offset inserted entry own holder,
      transform (fun _ => some "oklch(1 0 0)".toList) nestedFile.text =
        .ok (.changed entries failures offset inserted) ∧
      entries.getLast? = some entry ∧
      IsRecorded (fun _ => some "oklch(1 0 0)".toList) nestedFile.lines
        entry own ∧
      IsLastHolder nestedFile.texts entry.hex holder ∧
      offset = nestedFile.endOf (stopAfter nestedFile.lines holder) ∧
      (nestedFile.openAfter (stopAfter nestedFile.lines holder) =
        nestedFile.openAfter own ↔
        isBalanced 0
          ((nestedFile.lines.take (stopAfter nestedFile.lines holder)).drop
          own) = true) := by
  refine insertion_stays_iff (fun _ => some "oklch(1 0 0)".toList) nestedFile
    (fun hkey => ?_) ?_
  · exact absurd (Text.find?_isSome_iff.mpr hkey) (by decide +kernel)
  · rw [nestedFile.conversions_text]
    decide +kernel

/-- A mapping with an entry, and after it a mapping without one. -/
def trailingFile : MappingFile where
  lines := [.opener false "a".toList, .entry "x".toList "#fff".toList,
    .opener false "b".toList, .entry "y".toList "red".toList, .closer .comma,
    .closer .none]
  endsInReturn := false
  endsInBreak := true
  plain := by decide
  opens := ⟨false, "a".toList, _, rfl, by decide⟩

/-- Where a mapping without a hex text comes after the last entry, the gated
entry leaves the mapping of the entry: it goes to the end of the fourth line,
where the mapping that the third line opens is open, while the entry is in the
mapping of the first line only. -/
theorem insertion_leaves_mapping :
    ∃ inserted,
      transform (fun _ => some "oklch(1 0 0)".toList) trailingFile.text =
        .ok (.changed [⟨"x".toList, "#fff".toList, "oklch(1 0 0)".toList⟩] []
          (trailingFile.endOf 4) inserted) ∧
      trailingFile.lines[1]? = some (.entry "x".toList "#fff".toList) ∧
      trailingFile.openAfter 1 = [0] ∧
      trailingFile.openAfter 4 = [2, 0] :=
  ⟨['\n'] ++ block [⟨"x".toList, "#fff".toList, "oklch(1 0 0)".toList⟩]
    ['\t'] ['\n'], rfl, rfl, rfl, rfl⟩

end OklchGate.Mapping
