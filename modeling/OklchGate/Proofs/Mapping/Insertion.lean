import OklchGate.Proofs.Mapping.Entries
import OklchGate.Proofs.Text.Rebreaking
import OklchGate.Proofs.Text.Search
import OklchGate.Proofs.Text.Slice

/-!
# What is inserted into a mapping literal

A mapping literal without a gated entry in which some pair converts gets one
text at one offset.  The offset is the end of a line, and the text is a gated
entry with one line for each key.

There are three groups.

* `AtLineEnd`, and `exists_insertionOffset?`: the offset for an anchor that
  occurs.
* `block_eq`, the text of a gated entry, and `occurrences_block`: the gate key
  occurs in it once.
* `transform_inserts`, which puts this together.
-/

namespace OklchGate.Mapping

/-! ## The offset -/

/-- An offset at the end of a line or of the text, and not inside of a line
break. -/
structure AtLineEnd (content : Text) (offset : Nat) : Prop where
  le : offset ≤ content.length
  atBreak : offset = content.length ∨ ['\n'] <+: content.drop offset ∨
    ['\r', '\n'] <+: content.drop offset
  outside : ∀ before after, content = before ++ '\r' :: '\n' :: after →
    offset ≠ before.length + 1

/-- In front of a line feed or at the end of the text, the offset before a line
break is the end of a line. -/
theorem atLineEnd_beforeBreak {content front back : Text}
    (hcontent : content = front ++ back) (h : back = [] ∨ ['\n'] <+: back) :
    AtLineEnd content (beforeBreak content front.length) := by
  have hdrop : content.drop front.length = back := by
    rw [hcontent, List.drop_left]
  rw [beforeBreak]
  split
  · next hbreak =>
    rw [Bool.and_eq_true, decide_eq_true_iff, decide_eq_true_iff] at hbreak
    have hbegins : ['\r', '\n'] <+: content.drop (front.length - 1) :=
      hbreak.2 ▸ List.take_prefix _ _
    have hle : front.length ≤ content.length := by
      rw [hcontent, List.length_append]; omega
    refine ⟨by omega, Or.inr (Or.inr hbegins),
      fun before after hbetween hoffset => ?_⟩
    have hafter : content.drop (before.length + 1) = '\n' :: after := by
      rw [hbetween, List.drop_length_add_append]
      rfl
    rw [hoffset, hafter, List.cons_prefix_cons] at hbegins
    exact absurd hbegins.1 (by decide)
  · next hbreak =>
    refine ⟨by rw [hcontent, List.length_append]; omega, ?_,
      fun before after hbetween hoffset =>
      hbreak ?_⟩
    · rcases h with rfl | h
      · exact Or.inl (by rw [hcontent, List.append_nil])
      · exact Or.inr (Or.inl (hdrop ▸ h))
    · have hslice : content.slice before.length (before.length + 2) =
          ['\r', '\n'] := by
        have hparts := Text.slice_of_append before ['\r', '\n'] after
        rwa [List.append_assoc, List.cons_append, List.cons_append,
          List.nil_append, ← hbetween] at hparts
      rw [hoffset, Nat.add_sub_cancel, hslice]
      rfl

/-- A closing line that is found comes after a line feed. -/
theorem closingLine?_eq_some {text : Text} {offset : Nat}
    (h : closingLine? text = some offset) :
    ∃ before after, text = before ++ '\n' :: after ∧ before.length = offset ∧
      startsWithClosingLine after = true ∧
      ∀ first rest, text = first ++ '\n' :: rest → first.length < offset →
        startsWithClosingLine rest = false := by
  induction text generalizing offset with
  | nil => cases h
  | cons c text ih =>
    rw [closingLine?] at h
    split at h
    · next hclosing =>
      cases h
      rw [Bool.and_eq_true, decide_eq_true_iff] at hclosing
      exact ⟨[], text, by rw [hclosing.1]; rfl, rfl, hclosing.2,
        fun _ _ _ hlt => absurd hlt (Nat.not_lt_zero _)⟩
    · next hclosing =>
      obtain ⟨found, hfound, rfl⟩ := Option.map_eq_some_iff.mp h
      obtain ⟨before, after, rfl, rfl, hafter, hfirst⟩ := ih hfound
      refine ⟨c :: before, after, rfl, rfl, hafter,
        fun first rest htext hlt => ?_⟩
      cases first with
      | nil =>
        obtain ⟨rfl, rfl⟩ := List.cons.inj htext
        simpa using hclosing
      | cons d first =>
        exact hfirst first rest (List.cons.inj htext).2
          (Nat.lt_of_succ_lt_succ hlt)

/-- Where no closing line is found, none comes after a line feed. -/
theorem closingLine?_eq_none {text : Text} (h : closingLine? text = none)
    (first rest : Text) (htext : text = first ++ '\n' :: rest) :
    startsWithClosingLine rest = false := by
  induction first generalizing text with
  | nil =>
    rw [htext, List.nil_append, closingLine?] at h
    split at h
    · cases h
    · next hclosing => simpa using hclosing
  | cons c first ih =>
    rw [htext, List.cons_append, closingLine?] at h
    split at h
    · cases h
    · exact ih (Option.map_eq_none_iff.mp h) rfl

/-- Where an anchor has its last place, the offset is the end of that line or
the line feed before the next closing line, and then before the line break
there. -/
theorem exists_line_of_findLast? {content anchor : Text} {last : Nat}
    (h : Text.findLast? anchor content = some last) :
    ∃ line tail, content = content.take last ++ line ++ tail ∧ '\n' ∉ line ∧
      (tail = [] ∨ ['\n'] <+: tail) ∧
      insertionOffset? content anchor = some (beforeBreak content
        (last + line.length + (closingLine? tail).getD 0)) := by
  rw [insertionOffset?, h, Option.map_some]
  dsimp only
  cases hbreak : Text.find? ['\n'] (content.drop last) with
  | none =>
    refine ⟨content.drop last, [], ?_, Text.find?_singleton_eq_none hbreak,
      Or.inl rfl, ?_⟩
    · rw [List.append_nil, List.take_append_drop]
    · have hle := (Text.findLast?_eq_some h).1
      have hlength : last + (content.drop last).length = content.length := by
        rw [List.length_drop]
        omega
      dsimp only
      rw [List.drop_length, hlength]
      rfl
  | some length =>
    obtain ⟨line, tail, hdrop, rfl, hline⟩ :=
      Text.find?_singleton_eq_some hbreak
    refine ⟨line, '\n' :: tail, ?_, hline,
      Or.inr (List.prefix_append ['\n'] tail), ?_⟩
    · rw [List.append_assoc, ← hdrop, List.take_append_drop]
    · have htail : content.drop (last + line.length) = '\n' :: tail := by
        rw [← List.drop_drop, hdrop, List.drop_left]
      dsimp only
      rw [htail]
      cases closingLine? ('\n' :: tail) <;> rfl

/-- An anchor that occurs has an offset, at the end of a line. -/
theorem exists_insertionOffset? {content anchor : Text}
    (h : anchor <:+: content) :
    ∃ offset last, Text.findLast? anchor content = some last ∧
      insertionOffset? content anchor = some offset ∧
        AtLineEnd content offset := by
  obtain ⟨last, hlast⟩ :=
    Option.isSome_iff_exists.mp (Text.findLast?_isSome_iff.mpr h)
  obtain ⟨line, tail, hcontent, _, htail, hoffset⟩ :=
    exists_line_of_findLast? hlast
  have hlength : (content.take last).length = last :=
    List.length_take_of_le (Text.findLast?_eq_some hlast).1
  refine ⟨_, last, hlast, hoffset, ?_⟩
  cases hclosing : closingLine? tail with
  | none =>
    have hend := atLineEnd_beforeBreak hcontent htail
    rwa [List.length_append, hlength] at hend
  | some length =>
    obtain ⟨before, after, rfl, rfl, _⟩ := closingLine?_eq_some hclosing
    rw [← List.append_assoc] at hcontent
    have hend :=
      atLineEnd_beforeBreak hcontent (Or.inr (List.prefix_append ['\n'] after))
    rwa [List.length_append, List.length_append, hlength] at hend

/-! ## The text of a gated entry -/

theorem joinWith_cons (separator first : Text) (rest : List Text) :
    Text.joinWith separator (first :: rest) =
      first ++ rest.flatMap (separator ++ ·) := by
  induction rest generalizing first with
  | nil => simp [Text.joinWith]
  | cons second rest ih =>
    rw [Text.joinWith, ih, List.flatMap_cons, List.append_assoc,
      List.append_assoc]
    exact nofun

/-- A gated entry: the comment, the gate key that opens a mapping, a line for
each entry, and the line that closes the mapping. -/
theorem block_eq (entries : List Entry) (indent newline : Text) :
    block entries indent newline =
      comment.flatMap (fun line => newline ++ indent ++ line) ++ newline ++
        indent ++ gateKey ++ [' ', '\x7b'] ++
        (sorted entries).flatMap
          (fun entry => newline ++ indent ++ defaultIndent ++
            entryLine entry) ++
        newline ++ indent ++ ['\x7d', ','] := by
  rw [block, List.append_assoc, List.append_assoc, List.append_assoc,
    List.cons_append, joinWith_cons]
  simp only [List.flatMap_append, List.flatMap_map, List.flatMap_cons,
    List.flatMap_nil, List.append_assoc, List.append_nil, List.nil_append]

/-- The text between the quotes of the gate key. -/
def gateLabel : Text := "@supports (color: oklch(0 0 0))".toList

theorem gateKey_eq : gateKey = '\'' :: gateLabel ++ '\'' :: [':'] := by decide

/-- The gate key does not occur in lines of entries with other keys. -/
theorem occurrences_rows {rows : List Entry} {lineStart closing : Text}
    (hrows : ∀ entry ∈ rows, '\'' ∉ entry.key ∧ entry.key ≠ gateLabel ∧
      '\'' ∉ entry.oklch)
    (hlineStart : '\'' ∉ lineStart) (htab : '\t' ∈ lineStart)
    (hclosing : '\'' ∉ closing) {start : Text} (hstart : '\'' ∉ start) :
    Text.occurrences gateKey
      ('\'' :: (start ++
        rows.flatMap (fun entry => lineStart ++ entryLine entry) ++ closing)) =
        0 := by
  have hlabel : '\'' ∉ gateLabel := by decide
  rw [gateKey_eq]
  induction rows generalizing start with
  | nil =>
    refine Text.occurrences_last fun hmem => ?_
    rw [List.flatMap_nil, List.append_nil, List.mem_append] at hmem
    exact hmem.elim hstart hclosing
  | cons entry rows ih =>
    obtain ⟨hkey, hother, hoklch⟩ := hrows entry List.mem_cons_self
    have hbefore : '\'' ∉ start ++ lineStart := fun hmem =>
      (List.mem_append.mp hmem).elim hstart hlineStart
    have hindented : gateLabel ≠ start ++ lineStart := fun heq =>
      absurd (heq ▸ List.mem_append_right start htab) (by decide)
    -- From quote to quote: what is before the key, the key, the colon and the
    -- value.
    have htext : '\'' :: (start ++ (entry :: rows).flatMap
          (fun entry => lineStart ++ entryLine entry) ++ closing) =
        '\'' :: (start ++ lineStart) ++
          '\'' :: (entry.key ++ '\'' :: ([':', ' '] ++ '\'' ::
          (entry.oklch ++ '\'' :: ([','] ++
            rows.flatMap (fun entry => lineStart ++ entryLine entry) ++
              closing)))) := by
      rw [List.flatMap_cons, entryLine]
      simp
    rw [htext, Text.occurrences_quoted hlabel hbefore, if_neg fun h =>
      hindented h.1,
      ← List.cons_append, Text.occurrences_quoted hlabel hkey, if_neg fun h =>
        hother h.1.symm,
      ← List.cons_append, Text.occurrences_quoted hlabel (by decide),
      if_neg fun h => absurd h.1 (by decide),
      ← List.cons_append, Text.occurrences_quoted hlabel hoklch,
      if_neg fun h => absurd (List.cons_prefix_cons.mp h.2).1 (by decide),
      ih (fun entry hmem => hrows entry (List.mem_cons_of_mem _ hmem))
        (by decide)]

theorem not_mem_newlineStyle (content : Text) :
    '\'' ∉ newlineStyle content := by
  rcases Text.newlineStyle_cases content with hstyle | hstyle | hstyle <;>
    rw [hstyle] <;> decide

/-- The gate key occurs once in a gated entry for other keys, wherever it is
put. -/
theorem occurrences_block {entries : List Entry} {indent newline : Text}
    (hentries : ∀ entry ∈ entries, '\'' ∉ entry.key ∧ entry.key ≠ gateLabel ∧
      '\'' ∉ entry.oklch)
    (hindent : '\'' ∉ indent) (hnewline : '\'' ∉ newline) :
    Text.occurrences gateKey (newline ++ block entries indent newline) = 1 := by
  have hcomment :
      '\'' ∉ comment.flatMap (fun line => newline ++ indent ++ line) := by
    intro hmem
    obtain ⟨line, hline, hmem⟩ := List.mem_flatMap.mp hmem
    rw [List.mem_append, List.mem_append] at hmem
    have hplain : ∀ line ∈ comment, '\'' ∉ line := by decide
    exact hmem.elim (fun hmem => hmem.elim hnewline hindent) (hplain line hline)
  have hlineStart : '\'' ∉ newline ++ indent ++ defaultIndent := by
    simp [hnewline, hindent, defaultIndent]
  have hclosing : '\'' ∉ newline ++ indent ++ ['\x7d', ','] := by
    simp [hnewline, hindent]
  have hbefore :
    '\'' ∉ newline ++ (comment.flatMap
    (fun line => newline ++ indent ++ line) ++ newline ++ indent) := by
    simp only [List.mem_append, not_or]
    exact ⟨hnewline, ⟨hcomment, hnewline⟩, hindent⟩
  have hlabel : '\'' ∉ gateLabel := by decide
  obtain ⟨tail, htail⟩ : ∃ tail, tail = [':', ' ', '\x7b'] ++
      (sorted entries).flatMap
        (fun entry => newline ++ indent ++ defaultIndent ++ entryLine entry) ++
      (newline ++ indent ++ ['\x7d', ',']) := ⟨_, rfl⟩
  have hrows : Text.occurrences gateKey ('\'' :: tail) = 0 := by
    rw [htail]
    exact occurrences_rows
      (fun entry hmem => hentries entry (mem_sorted.mp hmem)) hlineStart
      (List.mem_append_right _ List.mem_cons_self) hclosing (by decide)
  have htext : newline ++ block entries indent newline =
      (newline ++ (comment.flatMap (fun line => newline ++ indent ++ line) ++
        newline ++ indent)) ++ ('\'' :: gateLabel ++ '\'' :: tail) := by
    rw [block_eq, gateKey_eq, htail]
    simp only [List.append_assoc, List.cons_append, List.nil_append]
  have hnext : [':'] <+: tail := by
    rw [htail]
    exact List.prefix_append [':'] _
  rw [gateKey_eq] at hrows ⊢
  rw [htext, List.cons_append, Text.occurrences_append_of_not_mem hbefore,
    ← List.cons_append, Text.occurrences_quoted hlabel hlabel, hrows,
    if_pos ⟨rfl, hnext⟩]

/-! ## The insertion -/

/-- What is put into a mapping literal: at the end of a line, an entry under the
gate key with a line for each key that has a pair that converts, in the order of
the keys, and with the last conversion of that key. -/
structure Inserted (convert : Converter) (content : Text) (offset : Nat)
    (inserted : Text) :
    Prop where
  atLineEnd : AtLineEnd content offset
  gateKeyOnce : Text.occurrences gateKey inserted = 1
  opens : ∃ (rows : List Entry) (indent : Text),
    inserted = newlineStyle content ++
      comment.flatMap (fun line => newlineStyle content ++ indent ++ line) ++
      newlineStyle content ++ indent ++ gateKey ++ [' ', '\x7b'] ++
      rows.flatMap (fun entry => newlineStyle content ++ indent ++
        ['\t', '\''] ++ entry.key ++
        ['\'', ':', ' ', '\''] ++ entry.oklch ++ ['\'', ',']) ++
      newlineStyle content ++ indent ++ ['\x7d', ','] ∧
    indent.all (fun c => c = ' ' || c = '\t') = true ∧
    rows.Pairwise (fun a b => a.key < b.key) ∧
    ∀ entry, entry ∈ rows ↔
      entryFor? entry.key (conversions convert content).reverse = some entry

/-- The keys and values of a scan of a text without the gate key. -/
theorem plain_of_mem_scan {convert : Converter} {content : Text}
    (hkey : ¬ gateKey <:+: content)
    (hvalue : ∀ hex oklch, convert hex = some oklch → '\'' ∉ oklch)
    {entry : Entry} (h : entry ∈ (scan convert content).entries) :
    '\'' ∉ entry.key ∧ entry.key ≠ gateLabel ∧ '\'' ∉ entry.oklch := by
  obtain ⟨hpair, _, hconvert⟩ := exists_of_mem_scan convert content h
  obtain ⟨hquote, _, before, blanks, after, _, hcontent⟩ :=
    exists_of_mem_hexPairs hpair
  refine ⟨hquote, fun hlabel => hkey ?_, hvalue _ _ hconvert⟩
  dsimp only at hcontent
  rw [hlabel] at hcontent
  refine ⟨before, blanks ++ '\'' :: (entry.hex ++ '\'' :: after), ?_⟩
  rw [hcontent, gateKey_eq]
  simp

/-- The hex text of an entry occurs in the text. -/
theorem hex_infix_of_mem_scan {convert : Converter} {content : Text}
    {entry : Entry} (h : entry ∈ (scan convert content).entries) :
    entry.hex <:+: content := by
  obtain ⟨hread, _, _⟩ := exists_of_mem_scan convert content h
  obtain ⟨_, _, before, blanks, after, _, hcontent⟩ :=
    exists_of_mem_hexPairs hread
  refine ⟨before ++ '\'' :: (entry.key ++ '\'' :: ':' :: (blanks ++ ['\''])),
    '\'' :: after, ?_⟩
  rw [hcontent]
  simp

theorem all_indentAt (content : Text) (offset : Nat) :
    (indentAt content offset).all (fun c => c = ' ' || c = '\t') = true :=
  List.all_takeWhile

/-- A text without the gate key in which a pair converts gets a gated entry at
the offset for the hex text of the last entry of its scan. -/
theorem exists_transform_eq {convert : Converter} {content : Text}
    (hkey : ¬ gateKey <:+: content)
    (hconversions : conversions convert content ≠ []) :
    ∃ entry offset indent,
      (scan convert content).entries.getLast? = some entry ∧
      insertionOffset? content entry.hex = some offset ∧
        AtLineEnd content offset ∧
      indent.all (fun c => c = ' ' || c = '\t') = true ∧
      transform convert content = .ok (.changed (scan convert content).entries
        (scan convert content).failures offset
        (newlineStyle content ++
          block (scan convert content).entries indent
            (newlineStyle content))) := by
  have hnone : ¬ (Text.find? gateKey content).isSome = true :=
    fun hsome => hkey (Text.find?_isSome_iff.mp hsome)
  obtain ⟨entry, hlast⟩ : ∃ entry, (scan convert content).entries.getLast? =
      some entry :=
    ⟨_, List.getLast?_eq_some_getLast
      (entries_ne_nil convert content hconversions)⟩
  obtain ⟨offset, last, hfind, hoffset, hend⟩ :=
    exists_insertionOffset? (hex_infix_of_mem_scan (List.mem_of_getLast? hlast))
  refine ⟨entry, offset,
    if (indentAt content last).isEmpty then defaultIndent
    else indentAt content last,
    hlast, hoffset, hend, ?_, ?_⟩
  · split
    · decide
    · exact all_indentAt content last
  · rw [transform, if_neg hnone]
    dsimp only
    rw [hlast]
    dsimp only
    rw [hoffset, hfind]

/-- A text without the gate key in which a pair converts gets a gated entry at
one offset, and nothing else of it changes. -/
theorem transform_inserts {convert : Converter} {content : Text}
    (hkey : ¬ gateKey <:+: content)
    (hpair : ∃ pair ∈ hexPairs content, isHexColor pair.2 = true ∧
      (convert pair.2).isSome = true)
    (hvalue : ∀ hex oklch, convert hex = some oklch → '\'' ∉ oklch) :
    ∃ outcome offset inserted,
      transform convert content = .ok outcome ∧
      outcome.output content = content.take offset ++ inserted ++
        content.drop offset ∧
      Inserted convert content offset inserted := by
  have hconversions : conversions convert content ≠ [] := by
    obtain ⟨pair, hmem, hcolor, hconvert⟩ := hpair
    obtain ⟨oklch, hoklch⟩ := Option.isSome_iff_exists.mp hconvert
    have hentry : Entry.ofPair? convert pair =
        some ⟨pair.1, pair.2, oklch⟩ := by
      rw [Entry.ofPair?, if_pos hcolor, hoklch]
      rfl
    exact List.ne_nil_of_mem (List.mem_filterMap.mpr ⟨pair, hmem, hentry⟩)
  obtain ⟨entry, offset, indent, _, _, hend, hspaces, htransform⟩ :=
    exists_transform_eq hkey hconversions
  have hplain : '\'' ∉ indent := fun hquote =>
    absurd (List.all_eq_true.mp hspaces _ hquote) (by decide)
  refine ⟨_, offset, _, htransform, rfl, hend, ?_,
    sorted (scan convert content).entries, indent,
    ?_, hspaces, pairwise_sorted (nodup_scan convert content), fun other => ?_⟩
  · exact occurrences_block
      (fun other hother => plain_of_mem_scan hkey hvalue hother) hplain
      (not_mem_newlineStyle content)
  · rw [block_eq]
    simp [entryLine, defaultIndent]
  · rw [mem_sorted]
    exact mem_scan_iff convert content other

/-- A key that comes twice, and lines that end in CR LF. -/
theorem transform_inserts_twice :
    ∃ outcome offset inserted,
      transform (fun hex => if hex = "#111".toList then
        some "oklch(0.2 0 0)".toList
          else some "oklch(1 0 0)".toList)
          "'b': '#fff',\r\n'a': '#000',\r\n'b': '#111',\r\n".toList =
        .ok outcome ∧
      outcome.output "'b': '#fff',\r\n'a': '#000',\r\n'b': '#111',\r\n".toList =
        "'b': '#fff',\r\n'a': '#000',\r\n'b': '#111',\r\n".toList.take offset ++
          inserted ++
          "'b': '#fff',\r\n'a': '#000',\r\n'b': '#111',\r\n".toList.drop
            offset ∧
      Inserted (fun hex => if hex = "#111".toList then
        some "oklch(0.2 0 0)".toList
          else some "oklch(1 0 0)".toList)
        "'b': '#fff',\r\n'a': '#000',\r\n'b': '#111',\r\n".toList offset
          inserted := by
  refine transform_inserts (fun hkey => ?_) ⟨("a".toList, "#000".toList),
    ?_, ?_, ?_⟩ fun hex oklch h => ?_
  · exact absurd (Text.find?_isSome_iff.mpr hkey) (by decide)
  · decide
  · decide
  · decide
  · split at h
    · cases h
      decide
    · cases h
      decide

end OklchGate.Mapping
