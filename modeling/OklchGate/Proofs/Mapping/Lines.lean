import OklchGate.Proofs.Mapping.Insertion

/-!
# The offset in a text made of lines

A text is written line by line.  Its gated entry goes to the end of one of the
lines: the one before the first closing line after the last line with the
anchor, or that line itself.

There are four groups.

* `linesText`, the lines that follow a first line, and what is asked of a line.
* `closingLine?_linesText`: a closing line is found among lines.
* `findLast?_append`: the last place of an anchor lies in the last line with it.
* `insertionOffset?_lines`, which puts this together.
-/

namespace OklchGate.Mapping

/-! ## Lines -/

/-- Some lines with a line break before each. -/
def linesText (newline : Text) (lines : List Text) : Text :=
  lines.flatMap (newline ++ ·)

/-- The offset at which the first `count` lines of a text end. -/
def endOfLines (newline : Text) (lines : List Text) (count : Nat) : Nat :=
  (Text.joinWith newline (lines.take count)).length

/-- A line without line breaks that holds more than blanks. -/
structure PlainLine (line : Text) : Prop where
  noBreak : '\n' ∉ line ∧ '\r' ∉ line
  notBlank : ∃ c ∈ line, isBlank c = false

/-- LF or CR LF, as the part before the LF. -/
def IsReturn (before : Text) : Prop := before = [] ∨ before = ['\r']

theorem linesText_cons (newline line : Text) (rest : List Text) :
    linesText newline (line :: rest) = newline ++ line ++
      linesText newline rest :=
  List.flatMap_cons

theorem linesText_append (newline : Text) (a b : List Text) :
    linesText newline (a ++ b) = linesText newline a ++ linesText newline b :=
  List.flatMap_append

/-! ## Closing lines -/

theorem dropWhile_append_of_not_all {isIn : Char → Bool} {text : Text}
    (h : ∃ c ∈ text, isIn c = false) (rest : Text) :
    (text ++ rest).dropWhile isIn = text.dropWhile isIn ++ rest ∧
      text.dropWhile isIn ≠ [] := by
  induction text with
  | nil => simp at h
  | cons c text ih =>
    by_cases hc : isIn c = true
    · have hrest : ∃ c ∈ text, isIn c = false := by
        obtain ⟨d, hd, hfalse⟩ := h
        rcases List.mem_cons.mp hd with rfl | hd
        · rw [hc] at hfalse
          cases hfalse
        · exact ⟨d, hd, hfalse⟩
      rw [List.cons_append, List.dropWhile_cons_of_pos hc,
        List.dropWhile_cons_of_pos hc]
      exact ih hrest
    · rw [List.cons_append, List.dropWhile_cons_of_neg hc,
        List.dropWhile_cons_of_neg hc]
      exact ⟨rfl, List.cons_ne_nil c text⟩

/-- What may follow a line: nothing, or a line break. -/
def Follows (before rest : Text) : Prop :=
  rest = [] ∨ ∃ after, rest = before ++ '\n' :: after

/-- Only blanks stand up to the next line feed or the end. -/
def blankToEnd (text : Text) : Bool :=
  (text.takeWhile isBlank).contains '\n' || (text.takeWhile isBlank).length =
    text.length

theorem blankToEnd_append {before line rest : Text} (h : IsReturn before)
    (hline : '\n' ∉ line) (hrest : Follows before rest) :
    blankToEnd (line ++ rest) = line.all isBlank := by
  induction line with
  | nil =>
    rcases hrest with rfl | ⟨after, rfl⟩
    · rfl
    · rcases h with rfl | rfl
      · simp [blankToEnd, isBlank]
      · simp [blankToEnd, isBlank]
  | cons c line ih =>
    rw [List.mem_cons, not_or] at hline
    rw [blankToEnd] at ih ⊢
    by_cases hc : isBlank c = true
    · rw [List.cons_append, List.takeWhile_cons_of_pos hc, List.all_cons, hc,
        Bool.true_and, ← ih hline.2]
      simp [hline.1]
    · rw [List.cons_append, List.takeWhile_cons_of_neg hc, List.all_cons]
      simp [hc]

theorem startsWithClosingLine_eq (text : Text) :
    startsWithClosingLine text =
      match text.dropWhile isBlank with
      | '\x7d' :: rest =>
        blankToEnd (if rest.head? = some ',' then rest.tail else rest)
      | _ => false :=
  rfl

/-- A closing line is one whatever lines follow it. -/
theorem startsWithClosingLine_append {before line rest : Text}
    (h : IsReturn before) (hline : PlainLine line)
    (hrest : Follows before rest) :
    startsWithClosingLine (line ++ rest) = startsWithClosingLine line := by
  obtain ⟨hdrop, hne⟩ := dropWhile_append_of_not_all hline.notBlank rest
  have hbreak : '\n' ∉ line.dropWhile isBlank := fun hmem =>
    hline.noBreak.1 ((List.dropWhile_suffix isBlank).subset hmem)
  have hcomma : rest.head? ≠ some ',' := by
    rcases hrest with rfl | ⟨after, rfl⟩
    · exact nofun
    · rcases h with rfl | rfl <;> simp
  have hnone : Follows before [] := Or.inl rfl
  rw [startsWithClosingLine_eq, startsWithClosingLine_eq, hdrop]
  obtain ⟨c, text, htext⟩ := List.exists_cons_of_ne_nil hne
  rw [htext] at hbreak ⊢
  rw [List.mem_cons, not_or] at hbreak
  by_cases hc : c = '\x7d'
  · subst hc
    cases text with
    | nil =>
      show blankToEnd (if rest.head? = some ',' then rest.tail else rest) = true
      rw [if_neg hcomma]
      exact blankToEnd_append h List.not_mem_nil hrest
    | cons d text =>
      rw [List.mem_cons, not_or] at hbreak
      show blankToEnd (if (d :: (text ++ rest)).head? = some ',' then
        text ++ rest
          else d :: (text ++ rest)) =
        blankToEnd (if (d :: text).head? = some ',' then text else d :: text)
      by_cases hd : d = ','
      · have hhead : ∀ tail : Text, (d :: tail).head? = some ',' :=
          fun _ => congrArg some hd
        rw [if_pos (hhead _), if_pos (hhead _),
          blankToEnd_append h hbreak.2.2 hrest,
          ← blankToEnd_append h hbreak.2.2 hnone, List.append_nil]
      · have hhead : ∀ tail : Text, ¬(d :: tail).head? = some ',' :=
          fun _ heq =>
          hd (Option.some.inj heq)
        have hnot : '\n' ∉ d :: text :=
          List.not_mem_cons_of_ne_of_not_mem hbreak.2.1 hbreak.2.2
        rw [if_neg (hhead _), if_neg (hhead _), ← List.cons_append,
          blankToEnd_append h hnot hrest, ← blankToEnd_append h hnot hnone,
          List.append_nil]
  · simp [hc]

/-- A text without a line feed is passed over. -/
theorem closingLine?_append {before : Text} (h : '\n' ∉ before) (rest : Text) :
    closingLine? (before ++ rest) =
      (closingLine? rest).map (· + before.length) := by
  induction before with
  | nil => simp
  | cons c before ih =>
    rw [List.mem_cons, not_or] at h
    have hc : ¬(decide (c = '\n') && startsWithClosingLine (before ++ rest)) =
        true := by
      simp [Ne.symm h.1]
    rw [List.cons_append, closingLine?, if_neg hc, ih h.2, Option.map_map]
    rfl

section Lines

variable {before final anchor : Text}

theorem IsReturn.not_mem (h : IsReturn before) : '\n' ∉ before := by
  rcases h with rfl | rfl <;> decide

/-- What comes after a line among lines. -/
theorem follows_linesText (hfinal : final = [] ∨ final = before ++ ['\n'])
    (lines : List Text) :
    Follows before (linesText (before ++ ['\n']) lines ++ final) := by
  cases lines with
  | nil =>
    rcases hfinal with rfl | rfl
    · exact Or.inl rfl
    · exact Or.inr ⟨[], rfl⟩
  | cons line rest =>
    refine Or.inr ⟨line ++ linesText (before ++ ['\n']) rest ++ final, ?_⟩
    rw [linesText_cons]
    simp

/-- Among lines, the first closing one is found, at the line feed before it. -/
theorem closingLine?_linesText (h : IsReturn before)
    (hfinal : final = [] ∨ final = before ++ ['\n']) {lines : List Text}
    (hlines : ∀ line ∈ lines, PlainLine line) :
    closingLine? (linesText (before ++ ['\n']) lines ++ final) =
      (lines.findIdx? startsWithClosingLine).map fun index =>
        (linesText (before ++ ['\n']) (lines.take index)).length +
          before.length := by
  induction lines with
  | nil =>
    rcases hfinal with rfl | rfl
    · rfl
    · show closingLine? (before ++ ['\n']) = none
      rw [closingLine?_append h.not_mem]
      rfl
  | cons line rest ih =>
    obtain ⟨hline, hrest⟩ := List.forall_mem_cons.mp hlines
    have hfollows := follows_linesText hfinal rest
    have hclosing := startsWithClosingLine_append h hline hfollows
    have hparts : linesText (before ++ ['\n']) (line :: rest) ++ final =
        before ++
          ('\n' :: (line ++ (linesText (before ++ ['\n']) rest ++ final))) := by
      rw [linesText_cons]
      simp
    rw [hparts, closingLine?_append h.not_mem, closingLine?, hclosing,
      List.findIdx?_cons]
    by_cases hstarts : startsWithClosingLine line = true
    · simp [hstarts, linesText]
    · rw [closingLine?_append hline.noBreak.1, ih hrest]
      cases rest.findIdx? startsWithClosingLine with
      | none => simp [hstarts]
      | some index =>
        simp [hstarts, linesText_cons]
        omega

/-! ## The last line with an anchor -/

/-- A text that an anchor cannot reach into. -/
def Bars (anchor rest : Text) : Prop :=
  rest = [] ∨ ∃ c after, rest = c :: after ∧ c ∉ anchor

theorem prefix_append_iff {anchor rest : Text} (hrest : Bars anchor rest)
    {text : Text} :
    anchor <+: text ++ rest ↔ anchor <+: text := by
  induction anchor generalizing text with
  | nil => simp
  | cons a anchor ih =>
    have hbars : Bars anchor rest := hrest.imp_right fun ⟨c, after, heq, hc⟩ =>
      ⟨c, after, heq, fun hmem => hc (List.mem_cons_of_mem a hmem)⟩
    cases text with
    | nil =>
      rcases hrest with rfl | ⟨c, after, rfl, hc⟩
      · rfl
      · rw [List.nil_append, List.cons_prefix_cons]
        refine ⟨fun h => absurd h.1 fun hac => hc (hac ▸ List.mem_cons_self),
          fun h => ?_⟩
        exact absurd (List.prefix_nil.mp h) (List.cons_ne_nil a anchor)
    | cons d text =>
      rw [List.cons_append, List.cons_prefix_cons, List.cons_prefix_cons,
        ih hbars]

theorem infix_append {anchor rest : Text} (hrest : Bars anchor rest)
    {text : Text} (h : anchor <:+: text ++ rest) :
    anchor <:+: text ∨ anchor <:+: rest := by
  induction text with
  | nil => exact Or.inr h
  | cons c text ih =>
    rw [List.cons_append, List.infix_cons_iff, ← List.cons_append,
      prefix_append_iff hrest] at h
    rcases h with h | h
    · exact Or.inl h.isInfix
    · exact (ih h).imp_left List.infix_cons

/-- What an anchor cannot reach into and does not occur in does not matter for
its last place. -/
theorem findLast?_append {anchor rest : Text} (hne : anchor ≠ [])
    (hrest : Bars anchor rest) (hnot : ¬ anchor <:+: rest) (text : Text) :
    Text.findLast? anchor (text ++ rest) = Text.findLast? anchor text := by
  induction text with
  | nil =>
    have hnone : Text.findLast? anchor rest = none := by
      rw [← Option.not_isSome_iff_eq_none, Text.findLast?_isSome_iff]
      exact hnot
    rw [List.nil_append, hnone, Text.findLast?, if_neg (by simpa using hne)]
  | cons c text ih =>
    have hbegins : anchor.isPrefixOf (c :: (text ++ rest)) =
        anchor.isPrefixOf (c :: text) := by
      rw [Bool.eq_iff_iff, List.isPrefixOf_iff_prefix,
        List.isPrefixOf_iff_prefix, ← List.cons_append, prefix_append_iff hrest]
    rw [List.cons_append, Text.findLast?, ih, hbegins, Text.findLast?]

/-- An anchor: some text without line breaks. -/
structure IsAnchor (anchor : Text) : Prop where
  ne_nil : anchor ≠ []
  noBreak : '\n' ∉ anchor ∧ '\r' ∉ anchor

theorem IsAnchor.bars (hanchor : IsAnchor anchor) (h : IsReturn before)
    {rest : Text} (hrest : Follows before rest) : Bars anchor rest := by
  rcases hrest with rfl | ⟨after, rfl⟩
  · exact Or.inl rfl
  · rcases h with rfl | rfl
    · exact Or.inr ⟨_, _, rfl, hanchor.noBreak.1⟩
    · exact Or.inr ⟨_, _, rfl, hanchor.noBreak.2⟩

theorem IsAnchor.infix_of_append (hanchor : IsAnchor anchor)
    (h : IsReturn before) {rest : Text}
    (hoccurs : anchor <:+: before ++ '\n' :: rest) : anchor <:+: rest := by
  have hstart : ∀ c ∈ ['\n', '\r'], ∀ text : Text, anchor <:+: c :: text →
      anchor <:+: text := by
    intro c hc text htext
    rcases List.infix_cons_iff.mp htext with hbegins | htext
    · obtain ⟨a, tail, rfl⟩ := List.exists_cons_of_ne_nil hanchor.ne_nil
      have ha := (List.cons_prefix_cons.mp hbegins).1
      rcases List.mem_cons.mp hc with rfl | hc
      · exact absurd (ha ▸ List.mem_cons_self) hanchor.noBreak.1
      · rw [List.mem_singleton] at hc
        exact absurd (hc ▸ ha ▸ List.mem_cons_self) hanchor.noBreak.2
    · exact htext
  rcases h with rfl | rfl
  · exact hstart '\n' (by decide) rest hoccurs
  · exact hstart '\n' (by decide) rest (hstart '\r' (by decide) _ hoccurs)

/-- An anchor that occurs among lines occurs in a line. -/
theorem exists_of_infix_linesText (hanchor : IsAnchor anchor)
    (h : IsReturn before) (hfinal : final = [] ∨ final = before ++ ['\n'])
    {lines : List Text}
    (hoccurs : anchor <:+: linesText (before ++ ['\n']) lines ++ final) :
    ∃ line ∈ lines, anchor <:+: line := by
  induction lines with
  | nil =>
    have hnil : anchor <:+: [] := by
      rcases hfinal with rfl | rfl
      · exact hoccurs
      · exact hanchor.infix_of_append h hoccurs
    exact absurd (List.infix_nil.mp hnil) hanchor.ne_nil
  | cons line rest ih =>
    have hparts : linesText (before ++ ['\n']) (line :: rest) ++ final =
        before ++ '\n' ::
          (line ++ (linesText (before ++ ['\n']) rest ++ final)) := by
      rw [linesText_cons]
      simp
    rw [hparts] at hoccurs
    rcases infix_append (hanchor.bars h (follows_linesText hfinal rest))
      (hanchor.infix_of_append h hoccurs) with hline | hrest
    · exact ⟨line, List.mem_cons_self, hline⟩
    · obtain ⟨other, hother, hoccurs⟩ := ih hrest
      exact ⟨other, List.mem_cons_of_mem line hother, hoccurs⟩

/-! ## The offset among lines -/

theorem joinWith_append {newline : Text} {a : List Text} (ha : a ≠ [])
    (b : List Text) :
    Text.joinWith newline (a ++ b) = Text.joinWith newline a ++
      linesText newline b := by
  obtain ⟨first, rest, rfl⟩ := List.exists_cons_of_ne_nil ha
  rw [List.cons_append, joinWith_cons, joinWith_cons, List.flatMap_append,
    List.append_assoc]
  rfl

/-- The last of some lines ends their text. -/
theorem exists_joinWith_eq (newline : Text) (front : List Text) (line : Text) :
    ∃ text, Text.joinWith newline (front ++ [line]) = text ++ line := by
  cases front with
  | nil => exact ⟨[], rfl⟩
  | cons first rest =>
    refine ⟨Text.joinWith newline (first :: rest) ++ newline, ?_⟩
    rw [joinWith_append (List.cons_ne_nil first rest), linesText_cons]
    simp [linesText]

/-- At the end of a line, the offset of its line feed is moved to the end of the
line. -/
theorem beforeBreak_endOfLine (h : IsReturn before) {text line rest : Text}
    (hline : line ≠ []) (hreturn : '\r' ∉ line) :
    beforeBreak (text ++ line ++ before ++ '\n' :: rest)
      ((text ++ line).length + before.length) = (text ++ line).length := by
  obtain ⟨front, c, rfl⟩ : ∃ front c, line = front ++ [c] := by
    rcases List.eq_nil_or_concat line with rfl | ⟨front, c, rfl⟩
    · exact absurd rfl hline
    · exact ⟨front, c, List.concat_eq_append ..⟩
  have hc : c ≠ '\r' :=
    fun heq => hreturn (heq ▸ List.mem_append_right _ List.mem_cons_self)
  rcases h with rfl | rfl
  · have hslice : (text ++ (front ++ [c]) ++ [] ++ '\n' :: rest).slice
        ((text ++ (front ++ [c])).length - 1)
          ((text ++ (front ++ [c])).length + 1) = [c, '\n'] := by
      have hparts := Text.slice_of_append (text ++ front) [c, '\n'] rest
      simpa [Nat.add_assoc] using hparts
    rw [beforeBreak, List.length_nil, Nat.add_zero, hslice, if_neg]
    rw [Bool.and_eq_true, decide_eq_true_iff, decide_eq_true_iff]
    exact fun heq => hc (List.cons.inj heq.2).1
  · have hslice : (text ++ (front ++ [c]) ++ ['\r'] ++ '\n' :: rest).slice
        (text ++ (front ++ [c])).length ((text ++ (front ++ [c])).length + 2) =
          ['\r', '\n'] := by
      have hparts :=
        Text.slice_of_append (text ++ (front ++ [c])) ['\r', '\n'] rest
      simpa using hparts
    rw [beforeBreak, List.length_singleton, Nat.add_sub_cancel, hslice,
      if_pos (by simp)]

/-- The offset for an anchor in a line before a line break. -/
theorem insertionOffset?_of_break (h : IsReturn before) {text line after : Text}
    {last : Nat} (hline : '\n' ∉ line) (hlast : last ≤ line.length)
    (hfind : Text.findLast? anchor (text ++ line ++ (before ++ '\n' :: after)) =
      some (text.length + last)) :
    insertionOffset? (text ++ line ++ (before ++ '\n' :: after)) anchor =
      some (beforeBreak (text ++ line ++ (before ++ '\n' :: after))
        ((text ++ line).length +
          (closingLine? (before ++ '\n' :: after)).getD before.length)) := by
  obtain ⟨segment, tail, hcontent, hsegment, htail, hoffset⟩ :=
    exists_line_of_findLast? hfind
  have htake : (text ++ line ++ (before ++ '\n' :: after)).take
    (text.length + last) = text ++ line.take last := by
    rw [List.append_assoc, List.take_length_add_append,
      List.take_append_of_le_length hlast]
  rw [htake] at hcontent
  have hsplit : line.drop last ++ before ++ '\n' :: after =
      segment ++ tail := by
    have hparts : text ++ line.take last ++
      (line.drop last ++ before ++ '\n' :: after) =
        text ++ line.take last ++ (segment ++ tail) := by
      rw [← List.append_assoc (text ++ line.take last) segment, ← hcontent]
      simp only [List.append_assoc]
      rw [← List.append_assoc (line.take last), List.take_append_drop]
    exact List.append_cancel_left hparts
  have hdrop : '\n' ∉ line.drop last ++ before := fun hmem =>
    (List.mem_append.mp hmem).elim
      (fun hmem => hline (List.mem_of_mem_drop hmem)) h.not_mem
  have hbreak : ['\n'] <+: '\n' :: after := List.prefix_append ['\n'] after
  obtain ⟨hsegmentEq, htailEq⟩ :=
    Text.append_inj_of_not_mem hdrop hsegment (Or.inr hbreak) htail hsplit
  rw [← hsegmentEq, ← htailEq] at hoffset
  have hlength : text.length + last + (line.drop last ++ before).length =
      (text ++ line).length + before.length := by
    rw [List.length_append, List.length_append, List.length_drop]
    omega
  rw [hoffset, hlength, closingLine?_append h.not_mem]
  cases closingLine? ('\n' :: after) with
  | none =>
    rw [Option.map_none, Option.getD_none, Option.getD_none, Nat.add_zero]
  | some offset =>
    rw [Option.map_some, Option.getD_some, Option.getD_some, Nat.add_assoc,
      Nat.add_comm before.length]

/-- The offset for an anchor in the last line of a text is the end of the
text. -/
theorem insertionOffset?_of_end {text line : Text} {last : Nat}
    (hline : '\n' ∉ line) (hlast : last ≤ line.length)
    (hfind : Text.findLast? anchor (text ++ line) = some (text.length + last)) :
    insertionOffset? (text ++ line) anchor = some (text ++ line).length := by
  obtain ⟨segment, tail, hcontent, hsegment, htail, hoffset⟩ :=
    exists_line_of_findLast? hfind
  have htake : (text ++ line).take (text.length + last) =
      text ++ line.take last := by
    rw [List.take_length_add_append]
  rw [htake] at hcontent
  have hsplit : line.drop last ++ [] = segment ++ tail := by
    have hparts : text ++ line.take last ++ (line.drop last ++ []) =
        text ++ line.take last ++ (segment ++ tail) := by
      rw [← List.append_assoc (text ++ line.take last) segment, ← hcontent,
        List.append_nil, List.append_assoc, List.take_append_drop]
    exact List.append_cancel_left hparts
  obtain ⟨rfl, rfl⟩ :=
    Text.append_inj_of_not_mem (fun hmem => hline (List.mem_of_mem_drop hmem))
    hsegment (Or.inl rfl) htail hsplit
  have hlength : text.length + last + (line.drop last).length =
      (text ++ line).length := by
    rw [List.length_append, List.length_drop]
    omega
  rw [hoffset, closingLine?, Option.getD_none, Nat.add_zero, hlength,
    beforeBreak, if_neg]
  rw [Bool.and_eq_true, decide_eq_true_iff, decide_eq_true_iff]
  rintro ⟨hpos, hslice⟩
  have hshort := congrArg List.length hslice
  rw [Text.slice, List.length_take, List.length_drop] at hshort
  simp only [List.length_cons, List.length_nil] at hshort
  omega

/-- The text of some lines ends in a line. -/
theorem exists_joinWith_plain (newline : Text) {lines : List Text}
    (hne : lines ≠ []) (hlines : ∀ line ∈ lines, PlainLine line) :
    ∃ text line, Text.joinWith newline lines = text ++ line ∧
      PlainLine line := by
  rcases List.eq_nil_or_concat lines with rfl | ⟨front, line, rfl⟩
  · exact absurd rfl hne
  · rw [List.concat_eq_append] at hlines ⊢
    obtain ⟨text, htext⟩ := exists_joinWith_eq newline front line
    exact ⟨text, line, htext,
      hlines line (List.mem_append_right _ List.mem_cons_self)⟩

/-- A line break stands before the first closing line among lines, or before the
first line. -/
theorem exists_break_of_findIdx?
    (hfinal : final = [] ∨ final = before ++ ['\n']) {lines : List Text}
    (hne : linesText (before ++ ['\n']) lines ++ final ≠ []) :
    ∃ next, linesText (before ++ ['\n'])
        (lines.drop ((lines.findIdx? startsWithClosingLine).getD 0)) ++ final =
      before ++ '\n' :: next := by
  refine (follows_linesText hfinal _).resolve_left fun hnil => ?_
  cases hfound : lines.findIdx? startsWithClosingLine with
  | none =>
    rw [hfound, Option.getD_none, List.drop_zero] at hnil
    exact hne hnil
  | some found =>
    obtain ⟨hlt, _⟩ := List.findIdx?_eq_some_iff_getElem.mp hfound
    rw [hfound, Option.getD_some, List.drop_eq_getElem_cons hlt,
      linesText_cons] at hnil
    simp at hnil

/-- The last place of an anchor among lines is its last place in the last line
with it. -/
theorem findLast?_lines (h : IsReturn before)
    (hfinal : final = [] ∨ final = before ++ ['\n']) (hanchor : IsAnchor anchor)
    {back : List Text} (hlast : ∀ later ∈ back, ¬ anchor <:+: later)
    {line : Text} {last : Nat} (hfind : Text.findLast? anchor line = some last)
    (text : Text) :
    Text.findLast? anchor
      (text ++ line ++ (linesText (before ++ ['\n']) back ++ final)) =
      some (text.length + last) := by
  have hnot : ¬ anchor <:+: linesText (before ++ ['\n']) back ++ final := by
    intro hthere
    obtain ⟨later, hmem, hlater⟩ :=
      exists_of_infix_linesText hanchor h hfinal hthere
    exact hlast later hmem hlater
  rw [findLast?_append hanchor.ne_nil
    (hanchor.bars h (follows_linesText hfinal back)) hnot,
    Text.findLast?_of_append hfind]

/-- The next closing line stands after the lines before it, if there is one. -/
theorem closingLine?_getD_linesText (h : IsReturn before)
    (hfinal : final = [] ∨ final = before ++ ['\n']) {lines : List Text}
    (hlines : ∀ line ∈ lines, PlainLine line) :
    (closingLine? (linesText (before ++ ['\n']) lines ++ final)).getD
      before.length =
      (linesText (before ++ ['\n'])
        (lines.take ((lines.findIdx? startsWithClosingLine).getD 0))).length +
          before.length := by
  rw [closingLine?_linesText h hfinal hlines]
  cases lines.findIdx? startsWithClosingLine with
  | none => simp [linesText]
  | some found => rfl

/-- A text made of lines, cut at the line break after some of them. -/
theorem exists_joinWith_break {newline next : Text} {lines : List Text}
    {count : Nat} (hshown : lines.take count ≠ [])
    (hlines : ∀ line ∈ lines, PlainLine line)
    (hnext : linesText newline (lines.drop count) ++ final =
      before ++ '\n' :: next) :
    ∃ upTo stop, Text.joinWith newline (lines.take count) = upTo ++ stop ∧
      PlainLine stop ∧
      Text.joinWith newline lines ++ final = upTo ++ stop ++ before ++
        '\n' :: next := by
  obtain ⟨upTo, stop, hupTo, hstop⟩ := exists_joinWith_plain newline hshown
    fun line hmem => hlines line (List.mem_of_mem_take hmem)
  refine ⟨upTo, stop, hupTo, hstop, ?_⟩
  conv => lhs; rw [← List.take_append_drop count lines]
  rw [joinWith_append hshown, hupTo, List.append_assoc, hnext,
    List.append_assoc _ before]

/-- The offset for an anchor among lines is the end of a line: of the one before
the next closing line after the last line with the anchor, or of that line if
there is none. -/
theorem insertionOffset?_lines (h : IsReturn before)
    (hfinal : final = [] ∨ final = before ++ ['\n']) (hanchor : IsAnchor anchor)
    {front back : List Text} {line : Text}
    (hlines : ∀ other ∈ front ++ line :: back, PlainLine other)
    (hoccurs : anchor <:+: line) (hlast : ∀ later ∈ back, ¬ anchor <:+: later) :
    insertionOffset?
      (Text.joinWith (before ++ ['\n']) (front ++ line :: back) ++ final)
      anchor =
      some (endOfLines (before ++ ['\n']) (front ++ line :: back)
        (front.length + 1 + (back.findIdx? startsWithClosingLine).getD 0)) := by
  obtain ⟨text, htext⟩ := exists_joinWith_eq (before ++ ['\n']) front line
  obtain ⟨last, hfind⟩ :=
    Option.isSome_iff_exists.mp (Text.findLast?_isSome_iff.mpr hoccurs)
  have hlastLe : last ≤ line.length := (Text.findLast?_eq_some hfind).1
  have hplace := findLast?_lines h hfinal hanchor hlast hfind text
  have hbackPlain : ∀ other ∈ back, PlainLine other := fun other hmem =>
    hlines other (List.mem_append_right _ (List.mem_cons_of_mem _ hmem))
  have hplain : PlainLine line :=
    hlines line (List.mem_append_right _ List.mem_cons_self)
  have hne : front ++ [line] ≠ [] := List.append_ne_nil_of_right_ne_nil _ nofun
  have hcons : front ++ line :: back = front ++ [line] ++ back := by simp
  have hjoin : Text.joinWith (before ++ ['\n']) (front ++ line :: back) ++
    final = text ++ line ++ (linesText (before ++ ['\n']) back ++ final) := by
    rw [hcons, joinWith_append hne, htext, List.append_assoc]
  have hclosing := closingLine?_getD_linesText h hfinal hbackPlain
  obtain ⟨index, hindex⟩ :
      ∃ index, index = (back.findIdx? startsWithClosingLine).getD 0 := ⟨_, rfl⟩
  have hlength : front.length + 1 + index = (front ++ [line]).length +
      index := by simp
  have htake : (front ++ line :: back).take (front.length + 1 + index) =
      front ++ [line] ++ back.take index := by
    rw [hcons, hlength, List.take_length_add_append]
  have hdrop : (front ++ line :: back).drop (front.length + 1 + index) =
      back.drop index := by
    rw [hcons, hlength, List.drop_length_add_append]
  have hshown : Text.joinWith (before ++ ['\n'])
      ((front ++ line :: back).take (front.length + 1 + index)) =
        text ++ line ++ linesText (before ++ ['\n']) (back.take index) := by
    rw [htake, joinWith_append hne, htext]
  rw [← hindex] at hclosing ⊢
  rw [endOfLines]
  rcases follows_linesText hfinal back with hnil | ⟨after, hafter⟩
  · -- The line is the last one, and nothing stands after it.
    have hback : linesText (before ++ ['\n']) (back.take index) = [] := by
      have hall := (List.append_eq_nil_iff.mp hnil).1
      rw [← List.take_append_drop index back, linesText_append] at hall
      exact (List.append_eq_nil_iff.mp hall).1
    rw [hnil, List.append_nil] at hplace hjoin
    rw [hjoin, hshown, hback, List.append_nil]
    exact insertionOffset?_of_end hplain.noBreak.1 hlastLe hplace
  · have hrest : linesText (before ++ ['\n']) back ++ final ≠ [] := by
      rw [hafter]
      exact List.append_ne_nil_of_right_ne_nil _ nofun
    obtain ⟨next, hnext⟩ := exists_break_of_findIdx? hfinal hrest
    rw [← hindex, ← hdrop] at hnext
    obtain ⟨upTo, stop, hupTo, hstop, hcontent⟩ := exists_joinWith_break
      (by rw [htake]; exact List.append_ne_nil_of_left_ne_nil hne _)
        hlines hnext
    rw [hafter] at hplace hclosing hjoin
    have hstopNe : stop ≠ [] := by
      obtain ⟨c, hc, _⟩ := hstop.notBlank
      exact List.ne_nil_of_mem hc
    rw [hjoin, insertionOffset?_of_break h hplain.noBreak.1 hlastLe hplace,
      hclosing, ← Nat.add_assoc, ← List.length_append, ← hshown, ← hjoin,
      hcontent, hupTo, beforeBreak_endOfLine h hstopNe hstop.noBreak.2]

end Lines

end OklchGate.Mapping
