import OklchGate.Proofs.Mapping.Layout

/-!
# Commas between the entries of a mapping literal

A file holds one mapping literal with one entry on a line and with commas
between the entries of each mapping.  The comma after the last entry of a
mapping may be there or not. The gated entry is put after one of the lines, and
what it is separated by is the end of that line.

There are four groups.

* `SeparatedLine` and `SeparatedFile`, with the text of a file.
* `lastSolid?`, the last character that is not blank, and the one in which a
  line ends.
* `lineBefore`, the line after which the gated entry is put.
* `separated_iff`: a comma or an opening brace stands before the gated entry
  exactly if the entry on that line, if it holds one, has its comma.
-/

namespace OklchGate.Mapping

/-! ## Lines and files -/

/-- A line of a mapping literal.  Any text may stand before an opening brace,
and an entry may lack the comma after it. -/
inductive SeparatedLine where
  | opener (head : Text)
  | entry (key value : Text) (hasComma : Bool)
  | closer (ending : Ending)
  deriving DecidableEq, Repr

namespace SeparatedLine

/-- The line without its indent. -/
def body : SeparatedLine → Text
  | opener head => head ++ ['\x7b']
  | entry key value hasComma =>
    '\'' :: (key ++ '\'' :: ':' :: ' ' :: '\'' ::
      (value ++ '\'' :: if hasComma then [','] else []))
  | closer ending => '\x7d' :: ending.text

/-- The texts of a line are on one line, and keys and values hold no quotes. -/
def Plain : SeparatedLine → Prop
  | opener head => '\n' ∉ head ∧ '\r' ∉ head
  | entry key value _ => PlainText key ∧ PlainText value
  | closer _ => True

instance (line : SeparatedLine) : Decidable line.Plain := by
  cases line
  · exact inferInstanceAs (Decidable (_ ∧ _))
  · exact inferInstanceAs (Decidable (_ ∧ _))
  · exact inferInstanceAs (Decidable True)

/-- The line holds an entry without a comma after it. -/
def lacksComma : SeparatedLine → Bool
  | entry _ _ hasComma => !hasComma
  | _ => false

/-- The line closes a mapping. -/
def isCloser : SeparatedLine → Bool
  | closer _ => true
  | _ => false

/-- The line closes a mapping and has no semicolon. -/
def closesPlainly : SeparatedLine → Bool
  | closer ending => decide (ending ≠ .semicolon)
  | _ => false

end SeparatedLine

/-- The texts of some lines, with one tab for each mapping around a line. -/
def separatedTexts (depth : Nat) : List SeparatedLine → List Text
  | [] => []
  | .opener head :: rest =>
    (List.replicate depth '\t' ++ (SeparatedLine.opener head).body) ::
      separatedTexts (depth + 1) rest
  | .entry key value hasComma :: rest =>
    (List.replicate depth '\t' ++
      (SeparatedLine.entry key value hasComma).body) ::
      separatedTexts depth rest
  | .closer ending :: rest =>
    (List.replicate (depth - 1) '\t' ++ (SeparatedLine.closer ending).body) ::
      separatedTexts (depth - 1) rest

/-- A line that closes a mapping comes next. -/
def endsMapping (lines : List SeparatedLine) : Bool :=
  lines.head?.any SeparatedLine.isCloser

/-- Some lines close the mappings that are open before them, and the last of
them is the last line.  Between the entries of a mapping there are commas: only
before the line that closes a mapping one may be missing.  The line that closes
the outermost mapping may have a semicolon. -/
def separates : Nat → List SeparatedLine → Bool
  | 0, lines => lines.isEmpty
  | _ + 1, [] => false
  | depth + 1, .opener _ :: rest => separates (depth + 2) rest
  | depth + 1, .entry _ _ hasComma :: rest =>
    (hasComma || endsMapping rest) && separates (depth + 1) rest
  | depth + 1, .closer ending :: rest =>
    (depth == 0 || ending = .comma || (ending = .none && endsMapping rest)) &&
      separates depth rest

/-- A file that is one mapping literal with commas between its entries. -/
structure SeparatedFile where
  lines : List SeparatedLine
  /-- What stands before the line feed of a line break. -/
  beforeFeed : Text
  /-- What stands after the last line. -/
  final : Text
  plain : ∀ line ∈ lines, line.Plain
  opens : ∃ head rest, lines = .opener head :: rest ∧ separates 1 rest = true
  isReturn : IsReturn beforeFeed
  isFinal : final = [] ∨ final = beforeFeed ++ ['\n']

namespace SeparatedFile

/-- The texts of the lines of a file. -/
def texts (file : SeparatedFile) : List Text := separatedTexts 0 file.lines

/-- The text of a file. -/
def text (file : SeparatedFile) : Text :=
  Text.joinWith (file.beforeFeed ++ ['\n']) file.texts ++ file.final

/-- The offset at which the first `count` lines end. -/
def endOf (file : SeparatedFile) (count : Nat) : Nat :=
  endOfLines (file.beforeFeed ++ ['\n']) file.texts count

end SeparatedFile

/-! ## The last character of a text -/

/-- The last character that is not blank. -/
def lastSolid? (text : Text) : Option Char := (Text.trimEnd text).getLast?

theorem lastSolid?_append {c : Char} (hc : isBlank c = false) (front : Text)
    {blanks : Text} (hblanks : blanks.all isBlank = true) :
    lastSolid? (front ++ [c] ++ blanks) = some c := by
  have hall : ∀ d ∈ blanks.reverse, isBlank d = true := by
    intro d hd
    exact List.all_eq_true.mp hblanks d (List.mem_reverse.mp hd)
  have hnot : ¬ isBlank c = true := by
    rw [hc]
    exact Bool.false_ne_true
  rw [lastSolid?, Text.trimEnd, List.getLast?_reverse, List.reverse_append,
    List.reverse_append, List.dropWhile_append_of_pos hall,
    List.reverse_singleton, List.singleton_append,
    List.dropWhile_cons_of_neg hnot]
  rfl

namespace SeparatedLine

/-- The character in which a line ends. -/
def lastChar : SeparatedLine → Char
  | opener _ => '\x7b'
  | entry _ _ hasComma => if hasComma then ',' else '\''
  | closer .none => '\x7d'
  | closer .comma => ','
  | closer .semicolon => ';'

theorem exists_body_eq (line : SeparatedLine) :
    ∃ front, line.body = front ++ [line.lastChar] := by
  cases line with
  | opener head => exact ⟨head, rfl⟩
  | entry key value hasComma =>
    cases hasComma with
    | true =>
      refine ⟨'\'' :: (key ++ '\'' :: ':' :: ' ' :: '\'' :: (value ++ ['\''])),
        ?_⟩
      simp [body, lastChar]
    | false =>
      refine ⟨'\'' :: (key ++ '\'' :: ':' :: ' ' :: '\'' :: value), ?_⟩
      simp [body, lastChar]
  | closer ending =>
    cases ending with
    | none => exact ⟨[], rfl⟩
    | comma => exact ⟨['\x7d'], rfl⟩
    | semicolon => exact ⟨['\x7d'], rfl⟩

theorem isBlank_lastChar (line : SeparatedLine) :
    isBlank line.lastChar = false := by
  cases line with
  | opener head => rfl
  | entry key value hasComma => cases hasComma <;> rfl
  | closer ending => cases ending <;> rfl

/-- A line that opens a mapping or holds an entry ends in a comma or an opening
brace, unless it is an entry that lacks its comma. -/
theorem lastChar_iff {line : SeparatedLine} (h : line.isCloser = false) :
    line.lastChar = ',' ∨ line.lastChar = '\x7b' ↔ line.lacksComma = false := by
  cases line with
  | opener head => simp [lastChar, lacksComma]
  | entry key value hasComma => cases hasComma <;> simp [lastChar, lacksComma]
  | closer ending => cases h

theorem plainLine {line : SeparatedLine} (h : line.Plain) (count : Nat) :
    PlainLine (List.replicate count '\t' ++ line.body) where
  noBreak := by
    have hbody : '\n' ∉ line.body ∧ '\r' ∉ line.body := by
      cases line with
      | opener head =>
        obtain ⟨hfeed, hreturn⟩ := h
        simp [body, hfeed, hreturn]
      | entry key value hasComma =>
        obtain ⟨⟨_, hkeyFeed, hkeyReturn⟩, _, hvalueFeed, hvalueReturn⟩ := h
        cases hasComma <;> simp [body, hkeyFeed, hkeyReturn, hvalueFeed,
          hvalueReturn]
      | closer ending => cases ending <;> decide
    simp only [List.mem_append, not_or]
    exact ⟨⟨not_mem_tabs _ (by decide) _, hbody.1⟩,
      not_mem_tabs _ (by decide) _, hbody.2⟩
  notBlank := by
    obtain ⟨front, hfront⟩ := line.exists_body_eq
    refine ⟨line.lastChar, List.mem_append_right _ ?_, line.isBlank_lastChar⟩
    rw [hfront]
    exact List.mem_append_right _ List.mem_cons_self

/-- The closing lines of a file are those that close a mapping without a
semicolon. -/
theorem startsWithClosingLine_eq {line : SeparatedLine} (h : line.Plain)
    (count : Nat) :
    startsWithClosingLine (List.replicate count '\t' ++ line.body) =
      line.closesPlainly := by
  cases line with
  | opener head =>
    have hopens : '\x7b' ∈ (opener head).body :=
      List.mem_append_right _ List.mem_cons_self
    exact startsWithClosingLine_of_opening (List.mem_append_right _ hopens)
      (plainLine h count).noBreak.1
  | entry key value hasComma =>
    rw [Mapping.startsWithClosingLine_eq, dropWhile_tabs]
    rfl
  | closer ending =>
    rw [Mapping.startsWithClosingLine_eq, dropWhile_tabs]
    cases ending <;> decide

/-- A hash sign cannot stand in a line that closes a mapping. -/
theorem not_infix_of_isCloser {line : SeparatedLine} (h : line.isCloser = true)
    (count : Nat) (digits : Text) :
    ¬ '#' :: digits <:+: List.replicate count '\t' ++ line.body := by
  intro hoccurs
  have hmem : '#' ∈ List.replicate count '\t' ++ line.body :=
    hoccurs.subset List.mem_cons_self
  rcases List.mem_append.mp hmem with hmem | hmem
  · exact not_mem_tabs _ (by decide) _ hmem
  · cases line with
    | opener head => cases h
    | entry key value hasComma => cases h
    | closer ending =>
      have hnot : '#' ∉ (closer ending).body := by cases ending <;> decide
      exact hnot hmem

end SeparatedLine

/-! ## The line before the gated entry -/

theorem exists_separatedTexts_eq (depth : Nat) (line : SeparatedLine)
    (rest : List SeparatedLine) :
    ∃ count next, separatedTexts depth (line :: rest) =
      (List.replicate count '\t' ++ line.body) :: separatedTexts next rest := by
  cases line <;> exact ⟨_, _, rfl⟩

/-- The texts of some lines are those lines with some tabs. -/
theorem getElem?_separatedTexts {lines : List SeparatedLine} {index : Nat}
    {text : Text} {depth : Nat}
    (h : (separatedTexts depth lines)[index]? = some text) :
    ∃ line count, lines[index]? = some line ∧
      text = List.replicate count '\t' ++ line.body := by
  induction lines generalizing depth index with
  | nil => cases h
  | cons line rest ih =>
    obtain ⟨count, next, htexts⟩ := exists_separatedTexts_eq depth line rest
    rw [htexts] at h
    cases index with
    | zero => exact ⟨line, count, rfl, (Option.some.inj h).symm⟩
    | succ index => exact ih h

theorem length_separatedTexts (depth : Nat) (lines : List SeparatedLine) :
    (separatedTexts depth lines).length = lines.length := by
  induction lines generalizing depth with
  | nil => rfl
  | cons line rest ih =>
    obtain ⟨count, next, htexts⟩ := exists_separatedTexts_eq depth line rest
    rw [htexts, List.length_cons, List.length_cons, ih]

theorem plainLine_of_mem_separatedTexts {lines : List SeparatedLine}
    (hlines : ∀ line ∈ lines, line.Plain) (depth : Nat) :
    ∀ text ∈ separatedTexts depth lines, PlainLine text := by
  intro text htext
  obtain ⟨index, hindex⟩ := List.mem_iff_getElem?.mp htext
  obtain ⟨line, count, hline, rfl⟩ := getElem?_separatedTexts hindex
  exact SeparatedLine.plainLine (hlines line (List.mem_of_getElem? hline)) count

theorem map_startsWithClosingLine_separated {lines : List SeparatedLine}
    (hlines : ∀ line ∈ lines, line.Plain) (depth : Nat) :
    (separatedTexts depth lines).map startsWithClosingLine =
      lines.map SeparatedLine.closesPlainly := by
  induction lines generalizing depth with
  | nil => rfl
  | cons line rest ih =>
    obtain ⟨hline, hrest⟩ := List.forall_mem_cons.mp hlines
    obtain ⟨count, next, htexts⟩ := exists_separatedTexts_eq depth line rest
    rw [htexts, List.map_cons, List.map_cons,
      SeparatedLine.startsWithClosingLine_eq hline, ih hrest]

/-- The number of the line after which the gated entry is put, where a given
line is the last one with the anchor: the line before the first one after it
that closes a mapping without a semicolon, and itself if there is none. -/
def lineBefore (lines : List SeparatedLine) (holder : Nat) : Nat :=
  holder + ((lines.drop (holder + 1)).findIdx? SeparatedLine.closesPlainly).getD
    0

/-- A line that closes a mapping with a semicolon is the last one. -/
theorem drop_eq_nil_of_semicolon {depth index : Nat}
    {lines : List SeparatedLine} (hseparates : separates depth lines = true)
    (hget : lines[index]? = some (.closer .semicolon)) :
    lines.drop (index + 1) = [] := by
  induction lines generalizing depth index with
  | nil => cases hget
  | cons line rest ih =>
    cases depth with
    | zero => cases hseparates
    | succ depth =>
      cases index with
      | zero =>
        cases hget
        cases depth with
        | zero => simpa [separates] using hseparates
        | succ depth => simp [separates] at hseparates
      | succ index =>
        rw [List.drop_succ_cons]
        cases line with
        | opener head => exact ih hseparates hget
        | entry key value hasComma =>
          rw [separates, Bool.and_eq_true] at hseparates
          exact ih hseparates.2 hget
        | closer ending =>
          rw [separates, Bool.and_eq_true] at hseparates
          exact ih hseparates.2 hget

namespace SeparatedFile

variable (file : SeparatedFile)

/-- A line with a semicolon closes the file. -/
theorem drop_eq_nil {index : Nat}
    (hget : file.lines[index]? = some (.closer .semicolon)) :
    file.lines.drop (index + 1) = [] := by
  obtain ⟨head, rest, hlines, hseparates⟩ := file.opens
  rw [hlines] at hget ⊢
  cases index with
  | zero => cases hget
  | succ index =>
    rw [List.drop_succ_cons]
    exact drop_eq_nil_of_semicolon hseparates hget

theorem plainLine_of_mem_texts : ∀ text ∈ file.texts, PlainLine text :=
  plainLine_of_mem_separatedTexts file.plain 0

/-- An anchor that occurs in a file has a last line. -/
theorem exists_isLastHolder {anchor : Text} (hanchor : IsAnchor anchor)
    (hoccurs : anchor <:+: file.text) :
    ∃ holder, IsLastHolder file.texts anchor holder := by
  have hline : ∃ text ∈ file.texts, anchor <:+: text := by
    obtain ⟨first, others, htexts⟩ : ∃ first others,
        file.texts = first :: others := by
      obtain ⟨head, rest, hlines, _⟩ := file.opens
      exact ⟨_, _, by rw [texts, hlines, separatedTexts]⟩
    rw [text, htexts, joinWith_cons, List.append_assoc] at hoccurs
    rw [htexts]
    have hfollows := follows_linesText file.isFinal others
    rcases infix_append (hanchor.bars file.isReturn hfollows) hoccurs with
      hfirst | hothers
    · exact ⟨first, List.mem_cons_self, hfirst⟩
    · obtain ⟨other, hmem, hother⟩ :=
        exists_of_infix_linesText hanchor file.isReturn file.isFinal hothers
      exact ⟨other, List.mem_cons_of_mem first hmem, hother⟩
  obtain ⟨text, hmem, hthere⟩ := hline
  obtain ⟨index, hindex⟩ := List.mem_iff_getElem?.mp hmem
  obtain ⟨holder, _, hholder⟩ := Mapping.exists_isLastHolder hindex hthere
  exact ⟨holder, hholder⟩

/-- The gated entry is put after a line that closes no mapping. -/
theorem exists_lineBefore {digits : Text} {holder : Nat}
    (hholder : IsLastHolder file.texts ('#' :: digits) holder) :
    ∃ line, file.lines[lineBefore file.lines holder]? = some line ∧
      line.isCloser = false := by
  obtain ⟨⟨text, htext, hoccurs⟩, _⟩ := hholder
  obtain ⟨own, count, hown, rfl⟩ := getElem?_separatedTexts htext
  have hnotCloser : own.isCloser = false := by
    rw [Bool.eq_false_iff]
    intro hcloser
    exact SeparatedLine.not_infix_of_isCloser hcloser count digits hoccurs
  rw [lineBefore]
  cases hfound :
    (file.lines.drop (holder + 1)).findIdx? SeparatedLine.closesPlainly with
  | none => exact ⟨own, hown, hnotCloser⟩
  | some found =>
    rw [Option.getD_some]
    cases found with
    | zero => exact ⟨own, hown, hnotCloser⟩
    | succ found =>
      obtain ⟨hlt, _, hbefore⟩ := List.findIdx?_eq_some_iff_getElem.mp hfound
      have hget : (file.lines.drop (holder + 1))[found]? =
          some (file.lines.drop (holder + 1))[found] :=
        List.getElem?_eq_getElem (Nat.lt_of_succ_lt hlt)
      have hplainly := hbefore found (Nat.lt_succ_self found)
      generalize (file.lines.drop (holder + 1))[found] = line at hget hplainly
      rw [List.getElem?_drop, Nat.add_right_comm, Nat.add_assoc] at hget
      refine ⟨line, hget, ?_⟩
      cases line with
      | opener head => rfl
      | entry key value hasComma => rfl
      | closer ending =>
        -- Only a semicolon is passed over, and no line comes after the one with
        -- it.
        have hsemicolon : ending = .semicolon := by
          simpa [SeparatedLine.closesPlainly] using hplainly
        have hnil := file.drop_eq_nil (hsemicolon ▸ hget)
        rw [List.length_drop] at hlt
        rw [List.drop_eq_nil_iff] at hnil
        omega

/-- The text up to the end of a line ends in that line. -/
theorem take_endOf {index : Nat} {line : SeparatedLine}
    (hget : file.lines[index]? = some line) :
    ∃ front, file.text.take (file.endOf (index + 1)) =
      front ++ [line.lastChar] := by
  have hlt : index < file.texts.length := by
    rw [texts, length_separatedTexts]
    exact (List.getElem?_eq_some_iff.mp hget).1
  obtain ⟨own, count, hown, htext⟩ :=
    getElem?_separatedTexts (List.getElem?_eq_getElem (l := file.texts) hlt)
  obtain rfl : own = line := Option.some.inj (hown.symm.trans hget)
  have htake : file.texts.take (index + 1) = file.texts.take index ++
      [file.texts[index]] :=
    (List.take_append_getElem hlt).symm
  have hshown : file.text =
      Text.joinWith (file.beforeFeed ++ ['\n']) (file.texts.take (index + 1)) ++
        (linesText (file.beforeFeed ++ ['\n']) (file.texts.drop (index + 1)) ++
          file.final) := by
    have hne : file.texts.take (index + 1) ≠ [] := by
      rw [htake]
      exact List.append_ne_nil_of_right_ne_nil _ nofun
    rw [← List.append_assoc, ← joinWith_append hne, List.take_append_drop, text]
  obtain ⟨front, hfront⟩ :=
    exists_joinWith_eq (file.beforeFeed ++ ['\n']) (file.texts.take index)
      file.texts[index]
  obtain ⟨body, hbody⟩ := own.exists_body_eq
  refine ⟨front ++ (List.replicate count '\t' ++ body), ?_⟩
  rw [endOf, endOfLines, hshown, List.take_left, htake, hfront, htext, hbody]
  simp only [List.append_assoc]

/-- The offset for an anchor is the end of the line before the gated entry. -/
theorem insertionOffset?_text {anchor : Text} {holder : Nat}
    (hanchor : IsAnchor anchor)
    (hholder : IsLastHolder file.texts anchor holder) :
    insertionOffset? file.text anchor =
      some (file.endOf (lineBefore file.lines holder + 1)) := by
  have hoffset :=
    insertionOffset?_of_isLastHolder file.isReturn file.isFinal hanchor
    file.plainLine_of_mem_texts hholder
  have hmap := congrArg (List.drop (holder + 1))
    (map_startsWithClosingLine_separated file.plain 0)
  have hidx := congrArg (List.findIdx? id) hmap
  rw [← List.map_drop, ← List.map_drop, List.findIdx?_map,
    List.findIdx?_map] at hidx
  have hfind : (file.texts.drop (holder + 1)).findIdx? startsWithClosingLine =
      (file.lines.drop (holder + 1)).findIdx? SeparatedLine.closesPlainly :=
        hidx
  rw [hfind, Nat.add_right_comm] at hoffset
  exact hoffset

end SeparatedFile

/-! ## The comma before the gated entry -/

/-- A gated entry starts with blanks and its comment. -/
theorem exists_inserted_eq (entries : List Entry) {indent : Text}
    (hindent : indent.all (fun c => c = ' ' || c = '\t') = true)
    (content : Text) :
    ∃ blanks after,
      newlineStyle content ++ block entries indent (newlineStyle content) =
        blanks ++ "/**".toList ++ after ∧ blanks.all isBlank = true := by
  have hnewline : (newlineStyle content).all isBlank = true := by
    fun_induction newlineStyle content with
    | case1 => rfl
    | case2 => rfl
    | case3 c rest _ hc =>
      rcases hc with rfl | rfl <;> rfl
    | case4 c rest _ _ ih => exact ih
  have hspaces : indent.all isBlank = true := by
    rw [List.all_eq_true] at hindent ⊢
    intro c hc
    have hcases := hindent c hc
    simp only [Bool.or_eq_true, decide_eq_true_eq] at hcases
    rcases hcases with rfl | rfl <;> rfl
  obtain ⟨after, hafter⟩ :
    ∃ after, block entries indent (newlineStyle content) =
      newlineStyle content ++ indent ++ "/**".toList ++ after := by
    rw [block_eq, comment, List.flatMap_cons]
    simp only [List.append_assoc]
    exact ⟨_, rfl⟩
  refine ⟨newlineStyle content ++ (newlineStyle content ++ indent),
    after, ?_, ?_⟩
  · rw [hafter]
    simp only [List.append_assoc]
  · simp only [List.all_append, hnewline, hspaces, Bool.and_self]

/-- The gated entry of a file is put after the line before the first one that
closes a mapping without a semicolon, counted from the last line with the hex
text of the last entry, or after that line itself.  A comma or an opening brace
is the last character before the comment of the gated entry that is not blank,
exactly if no entry on that line lacks its comma. -/
theorem separated_iff (convert : Converter) (file : SeparatedFile)
    (hkey : ¬ gateKey <:+: file.text)
    (hconversions : conversions convert file.text ≠ []) :
    ∃ entries failures offset inserted entry holder line blanks after,
      transform convert file.text = .ok
        (.changed entries failures offset inserted) ∧
      entries.getLast? = some entry ∧
      IsLastHolder file.texts entry.hex holder ∧
      file.lines[lineBefore file.lines holder]? = some line ∧
      offset = file.endOf (lineBefore file.lines holder + 1) ∧
      inserted = blanks ++ "/**".toList ++ after ∧ blanks.all isBlank = true ∧
      (lastSolid? (file.text.take offset ++ blanks) ∈ [some ',', some '\x7b'] ↔
        line.lacksComma = false) := by
  obtain ⟨entry, offset, indent, hlast, hoffset, _, hindent, htransform⟩ :=
    exists_transform_eq hkey hconversions
  have hmem : entry ∈ (scan convert file.text).entries :=
    List.mem_of_getLast? hlast
  have hanchor := isAnchor_of_mem_scan hmem
  obtain ⟨holder, hholder⟩ :=
    file.exists_isLastHolder hanchor (hex_infix_of_mem_scan hmem)
  obtain ⟨digits, hdigits⟩ : ∃ digits, entry.hex = '#' :: digits := by
    obtain ⟨_, ⟨digits, hdigits, _⟩, _⟩ :=
      exists_of_mem_hexPairs (exists_of_mem_scan convert file.text hmem).1
    exact ⟨digits, hdigits⟩
  obtain ⟨line, hline, hcloser⟩ := file.exists_lineBefore (hdigits ▸ hholder)
  rw [file.insertionOffset?_text hanchor hholder, Option.some.injEq] at hoffset
  obtain ⟨blanks, after, hinserted, hblanks⟩ :=
    exists_inserted_eq (scan convert file.text).entries hindent file.text
  obtain ⟨front, hfront⟩ := file.take_endOf hline
  refine ⟨_, _, _, _, entry, holder, line, blanks, after, htransform, hlast,
    hholder, hline, hoffset.symm, hinserted, hblanks, ?_⟩
  rw [← hoffset, hfront, lastSolid?_append line.isBlank_lastChar front hblanks,
    ← SeparatedLine.lastChar_iff hcloser]
  simp

/-- A mapping in another one, with a comma after its last entry. -/
def separatedFile : SeparatedFile where
  lines := [.opener "export const colors = ".toList, .opener "':root': ".toList,
    .entry "x".toList "#fff".toList true, .entry "y".toList "#000".toList true,
    .closer .none, .closer .semicolon]
  beforeFeed := ['\r']
  final := ['\r', '\n']
  plain := by decide
  opens := ⟨"export const colors = ".toList, _, rfl, by decide⟩
  isReturn := Or.inr rfl
  isFinal := Or.inr rfl

/-- The file with a comma before its gated entry. -/
theorem separated_iff_nested :
    ∃ entries failures offset inserted entry holder line blanks after,
      transform (fun _ => some "oklch(1 0 0)".toList) separatedFile.text =
        .ok (.changed entries failures offset inserted) ∧
      entries.getLast? = some entry ∧
      IsLastHolder separatedFile.texts entry.hex holder ∧
      separatedFile.lines[lineBefore separatedFile.lines holder]? = some line ∧
      offset = separatedFile.endOf (lineBefore separatedFile.lines holder + 1) ∧
      inserted = blanks ++ "/**".toList ++ after ∧ blanks.all isBlank = true ∧
      (lastSolid? (separatedFile.text.take offset ++ blanks) ∈
        [some ',', some '\x7b'] ↔ line.lacksComma = false) := by
  refine separated_iff (fun _ => some "oklch(1 0 0)".toList) separatedFile
    (fun hkey => ?_) ?_
  · exact absurd (Text.find?_isSome_iff.mpr hkey) (by decide +kernel)
  · decide +kernel

/-- A mapping with one entry and no comma after it. -/
def bareFile : SeparatedFile where
  lines := [.opener "a: ".toList, .entry "x".toList "#fff".toList false,
    .closer .none]
  beforeFeed := []
  final := ['\n']
  plain := by decide
  opens := ⟨"a: ".toList, _, rfl, by decide⟩
  isReturn := Or.inl rfl
  isFinal := Or.inr rfl

/-- Where the last entry lacks its comma, the gated entry follows the quote of
that entry. -/
theorem not_separated_of_bare :
    ∃ inserted,
      transform (fun _ => some "oklch(1 0 0)".toList) bareFile.text =
        .ok (.changed [⟨"x".toList, "#fff".toList, "oklch(1 0 0)".toList⟩] []
          (bareFile.endOf 2) inserted) ∧
      ['\n', '\n', '\t', '/', '*', '*'] <+: inserted ∧
      lastSolid? (bareFile.text.take (bareFile.endOf 2) ++ ['\n', '\n', '\t']) =
        some '\'' :=
  ⟨['\n'] ++ block [⟨"x".toList, "#fff".toList, "oklch(1 0 0)".toList⟩]
    ['\t'] ['\n'], rfl, ⟨_, rfl⟩, rfl⟩

end OklchGate.Mapping
