import OklchGate.Proofs.Mapping.Lines

/-!
# The offset of a gated entry in any text

A gated entry goes to the end of a line, in whatever text its anchor occurs: in
front of the first closing line after the anchor, with nothing but blanks
between, or to the end of the line of the anchor if no closing line comes.

There are four groups.

* `Text.IsLastAt`, the last place of an anchor, and the characters of a slice.
* `IsClosing` and `ClosesAt`, a closing line behind an offset.
* `startsWithClosingLine_iff`: the search for a closing line stops where blanks
  lead to one.
* `insertionOffset?_boundary`, about the offset.
-/

namespace OklchGate

namespace Text

/-! ## The last place of an anchor -/

/-- A text stands at an offset and at no later one. -/
structure IsLastAt (needle text : Text) (offset : Nat) : Prop where
  le : offset ≤ text.length
  begins : needle <+: text.drop offset
  last : ∀ later, offset < later → later ≤ text.length →
    ¬ needle <+: text.drop later

theorem findLast?_eq_some_iff {needle text : Text} {offset : Nat} :
    findLast? needle text = some offset ↔ IsLastAt needle text offset := by
  constructor
  · intro h
    obtain ⟨hle, hbegins, hlast⟩ := findLast?_eq_some h
    exact ⟨hle, hbegins, hlast⟩
  · intro h
    have hoccurs : needle <:+: text :=
      h.begins.isInfix.trans (List.drop_suffix offset text).isInfix
    obtain ⟨found, hfound⟩ :=
      Option.isSome_iff_exists.mp (findLast?_isSome_iff.mpr hoccurs)
    obtain ⟨hle, hbegins, hlast⟩ := findLast?_eq_some hfound
    rcases Nat.lt_trichotomy found offset with hlt | rfl | hlt
    · exact absurd h.begins (hlast offset hlt h.le)
    · exact hfound
    · exact absurd hbegins (h.last found hlt hle)

/-- A character of a slice stands between its ends. -/
theorem exists_of_mem_slice {text : Text} {a b : Nat} {c : Char}
    (h : c ∈ text.slice a b) :
    ∃ index, a ≤ index ∧ index < b ∧ text[index]? = some c := by
  obtain ⟨index, hindex⟩ := List.mem_iff_getElem?.mp h
  rw [slice, List.getElem?_take, List.getElem?_drop] at hindex
  split at hindex
  · exact ⟨a + index, by omega, by omega, hindex⟩
  · cases hindex

end Text

namespace Mapping

/-! ## Closing lines -/

/-- A line holds a closing brace, maybe a comma behind it, and blanks only.
`indent` characters stand before the brace. -/
def IsClosing (line : Text) (indent : Nat) : Prop :=
  ∃ front comma back, line = front ++ '\x7d' :: (comma ++ back) ∧ front.length =
    indent ∧
    (∀ c ∈ front, isBlank c = true) ∧ (comma = [] ∨ comma = [',']) ∧ ∀ c ∈ back,
      isBlank c = true

/-- The brace of a closing line stands at an offset.  The line feed that the
line comes after is not in front of `start`. -/
def ClosesAt (content : Text) (start brace : Nat) : Prop :=
  ∃ before line after indent, content = before ++ '\n' :: (line ++ after) ∧
    start ≤ before.length ∧ '\n' ∉ line ∧ (after = [] ∨ ['\n'] <+: after) ∧
    IsClosing line indent ∧ brace = before.length + 1 + indent

/-- The brace at an offset is the one of the first closing line. -/
structure ClosesFirst (content : Text) (start brace : Nat) : Prop where
  closes : ClosesAt content start brace
  first : ∀ other, ClosesAt content start other → brace ≤ other

theorem ClosesAt.mono {content : Text} {a b brace : Nat} (hab : a ≤ b)
    (h : ClosesAt content b brace) : ClosesAt content a brace := by
  obtain ⟨before, line, after, indent, hcontent, hstart, hrest⟩ := h
  exact ⟨before, line, after, indent, hcontent, Nat.le_trans hab hstart, hrest⟩

/-- What comes up to the next line feed or the end is blank. -/
theorem blankToEnd_iff (text : Text) :
    blankToEnd text = true ↔ ∃ back after, text = back ++ after ∧
      (∀ c ∈ back, isBlank c = true) ∧ '\n' ∉ back ∧
        (after = [] ∨ ['\n'] <+: after) := by
  have hfollows : ∀ after : Text, (after = [] ∨ ['\n'] <+: after) →
      Follows [] after := by
    rintro after (hnil | ⟨rest, rfl⟩)
    · exact Or.inl hnil
    · exact Or.inr ⟨rest, rfl⟩
  constructor
  · intro h
    have hfeed : '\n' ∉ text.takeWhile (· ≠ '\n') := fun hmem =>
      absurd (List.all_eq_true.mp List.all_takeWhile _ hmem) (by decide)
    have hafter : text.dropWhile (· ≠ '\n') = [] ∨
        ['\n'] <+: text.dropWhile (· ≠ '\n') := by
      cases hrest : text.dropWhile (· ≠ '\n') with
      | nil => exact Or.inl rfl
      | cons c rest =>
        have hhead := List.head?_dropWhile_not (· ≠ '\n') text
        rw [hrest] at hhead
        obtain rfl : c = '\n' := by simpa using hhead
        exact Or.inr (List.prefix_append ['\n'] rest)
    have hparts := List.takeWhile_append_dropWhile (p := (· ≠ '\n')) (l := text)
    rw [← hparts, blankToEnd_append (Or.inl rfl) hfeed (hfollows _ hafter)] at h
    exact ⟨_, _, hparts.symm, List.all_eq_true.mp h, hfeed, hafter⟩
  · rintro ⟨back, after, rfl, hback, hfeed, hafter⟩
    rw [blankToEnd_append (Or.inl rfl) hfeed (hfollows after hafter)]
    exact List.all_eq_true.mpr hback

/-- The search for a closing line stops where blanks, which may hold line feeds,
lead to a closing brace, and only blanks and maybe a comma stand up to the end
of its line. -/
theorem startsWithClosingLine_iff (text : Text) :
    startsWithClosingLine text = true ↔ ∃ front comma back after,
      text = front ++ '\x7d' :: (comma ++ (back ++ after)) ∧
        (∀ c ∈ front, isBlank c = true) ∧
      (comma = [] ∨ comma = [',']) ∧ (∀ c ∈ back, isBlank c = true) ∧
        '\n' ∉ back ∧
      (after = [] ∨ ['\n'] <+: after) := by
  rw [startsWithClosingLine_eq]
  constructor
  · intro h
    have hparts := List.takeWhile_append_dropWhile (p := isBlank) (l := text)
    have hfront : ∀ c ∈ text.takeWhile isBlank, isBlank c = true :=
      fun c hc => List.all_eq_true.mp List.all_takeWhile c hc
    split at h
    · next rest hrest =>
      rw [hrest] at hparts
      split at h
      · next hcomma =>
        obtain ⟨tail, rfl⟩ := List.head?_eq_some_iff.mp hcomma
        obtain ⟨back, after, htail, hback⟩ := (blankToEnd_iff _).mp h
        rw [List.tail_cons] at htail
        rw [htail] at hparts
        exact ⟨_, [','], back, after, hparts.symm, hfront, Or.inr rfl, hback⟩
      · obtain ⟨back, after, rfl, hback⟩ := (blankToEnd_iff _).mp h
        exact ⟨_, [], back, after, hparts.symm, hfront, Or.inl rfl, hback⟩
    · cases h
  · rintro ⟨front, comma, back, after, rfl, hfront, hcomma, hback,
      hfeed, hafter⟩
    have hblank : blankToEnd (back ++ after) = true :=
      (blankToEnd_iff _).mpr ⟨back, after, rfl, hback, hfeed, hafter⟩
    rw [List.dropWhile_append_of_pos hfront,
      List.dropWhile_cons_of_neg (by decide)]
    rcases hcomma with rfl | rfl
    · have hhead : ([] ++ (back ++ after)).head? ≠ some ',' := by
        rw [List.nil_append]
        intro hhead
        cases back with
        | nil =>
          rcases hafter with rfl | ⟨rest, rfl⟩
          · cases hhead
          · exact absurd (Option.some.inj hhead) (by decide)
        | cons c back =>
          obtain rfl : c = ',' := Option.some.inj hhead
          exact absurd (hback ',' List.mem_cons_self) (by decide)
      show blankToEnd (if ([] ++ (back ++ after)).head? = some ',' then _
        else _) = true
      rw [if_neg hhead]
      exact hblank
    · exact hblank

/-- A text that starts with a line feed has a last one. -/
theorem exists_lastFeed (text : Text) :
    ∃ before line, '\n' :: text = before ++ '\n' :: line ∧ '\n' ∉ line := by
  by_cases hmem : '\n' ∈ text
  · obtain ⟨back, front, hparts, hback⟩ :=
      List.eq_append_cons_of_mem (List.mem_reverse.mpr hmem)
    have htext : text = front.reverse ++ '\n' :: back.reverse := by
      rw [← List.reverse_reverse text, hparts]
      simp
    exact ⟨'\n' :: front.reverse, back.reverse,
      congrArg _ htext, by simpa using hback⟩
  · exact ⟨[], text, rfl, hmem⟩

/-- Where the search stops, blanks lead from the line feed to the brace of a
closing line. -/
theorem exists_closesAt {after : Text} (h : startsWithClosingLine after = true)
    (before : Text) :
    ∃ front rest, after = front ++ '\x7d' :: rest ∧
      (∀ c ∈ front, isBlank c = true) ∧
      ClosesAt (before ++ '\n' :: after) before.length
        (before.length + 1 + front.length) := by
  obtain ⟨front, comma, back, rest, rfl, hfront, hcomma, hback, hfeed, hrest⟩ :=
    (startsWithClosingLine_iff _).mp h
  -- The line of the brace starts after the last line feed in front of it.
  obtain ⟨lines, indent, hlast, hindent⟩ := exists_lastFeed front
  have hblank : ∀ c ∈ indent, isBlank c = true := by
    intro c hc
    have hmem : c ∈ '\n' :: front :=
      hlast ▸ List.mem_append_right lines (List.mem_cons_of_mem _ hc)
    rcases List.mem_cons.mp hmem with rfl | hmem
    · exact absurd hc hindent
    · exact hfront c hmem
  have hlength := congrArg List.length hlast
  rw [List.length_append, List.length_cons, List.length_cons] at hlength
  refine ⟨front, comma ++ (back ++ rest), rfl, hfront, before ++ lines,
    indent ++ '\x7d' :: (comma ++ back), rest, indent.length, ?_, ?_, ?_, hrest,
    ⟨indent, comma, back, rfl, rfl, hblank, hcomma, hback⟩, ?_⟩
  · rw [← List.cons_append, hlast]
    simp
  · rw [List.length_append]
    omega
  · rw [List.mem_append, List.mem_cons, List.mem_append]
    rintro (hmem | hmem | hmem | hmem)
    · exact hindent hmem
    · exact absurd hmem (by decide)
    · rcases hcomma with rfl | rfl
      · cases hmem
      · exact absurd hmem (by decide)
    · exact hfeed hmem
  · rw [List.length_append]
    omega

/-- The search stops in front of a closing line. -/
theorem ClosesAt.exists_starts {content : Text} {start brace : Nat}
    (h : ClosesAt content start brace) :
    ∃ before after, content = before ++ '\n' :: after ∧ start ≤ before.length ∧
      before.length < brace ∧ content[brace]? = some '\x7d' ∧
      startsWithClosingLine after = true := by
  obtain ⟨before, line, after, indent, rfl, hstart, hfeed, hafter, hclosing,
      rfl⟩ := h
  obtain ⟨front, comma, back, rfl, rfl, hfront, hcomma, hback⟩ := hclosing
  refine ⟨before, _, rfl, hstart, by omega, ?_, ?_⟩
  · rw [Nat.add_assoc, List.getElem?_append_right (Nat.le_add_right _ _),
      Nat.add_sub_cancel_left, Nat.add_comm 1, List.getElem?_cons_succ,
      List.append_assoc, List.getElem?_append_right (Nat.le_refl _),
      Nat.sub_self]
    rfl
  · rw [startsWithClosingLine_iff]
    refine ⟨front, comma, back, after, by simp, hfront, hcomma, hback,
      fun hmem => hfeed ?_, hafter⟩
    exact List.mem_append_right _
      (List.mem_cons_of_mem _ (List.mem_append_right _ hmem))

/-! ## The offset -/

/-- Moving in front of a CR goes one character back. -/
theorem beforeBreak_cases (content : Text) (offset : Nat) :
    beforeBreak content offset = offset ∨
      beforeBreak content offset + 1 = offset ∧
        content[beforeBreak content offset]? = some '\r' ∧ content[offset]? =
          some '\n' := by
  rw [beforeBreak]
  split
  · next hbreak =>
    rw [Bool.and_eq_true, decide_eq_true_iff, decide_eq_true_iff] at hbreak
    obtain ⟨hpos, hslice⟩ := hbreak
    right
    have hreturn := congrArg (fun text : Text => text[0]?) hslice
    have hline := congrArg (fun text : Text => text[1]?) hslice
    simp only [Text.slice, List.getElem?_take,
      List.getElem?_drop] at hreturn hline
    rw [if_pos (by omega)] at hreturn hline
    rw [Nat.sub_add_cancel hpos] at hline
    exact ⟨Nat.sub_add_cancel hpos, hreturn, hline⟩
  · exact Or.inl rfl

/-- A line feed that is not in front of the end of some text lies behind the
line that it ends. -/
theorem exists_of_feed_behind {front line tail before after : Text}
    (hline : '\n' ∉ line) (h : front ++ line ++ tail = before ++ '\n' :: after)
    (hle : front.length ≤ before.length) :
    ∃ first, before = front ++ line ++ first ∧
      tail = first ++ '\n' :: after := by
  rcases List.append_eq_append_iff.mp h with
    ⟨first, hbefore, htail⟩ | ⟨rest, hparts, hafter⟩
  · exact ⟨first, hbefore, htail⟩
  · cases rest with
    | nil =>
      rw [List.append_nil] at hparts
      rw [List.nil_append] at hafter
      exact ⟨[], by rw [hparts, List.append_nil],
        by rw [← hafter, List.nil_append]⟩
    | cons c rest =>
      obtain ⟨rfl, -⟩ := List.cons.inj hafter
      -- The line feed would be one of the line.
      have hindex : (front ++ line)[before.length]? = some '\n' := by
        rw [hparts, List.getElem?_append_right (Nat.le_refl _), Nat.sub_self]
        rfl
      rw [List.getElem?_append_right hle] at hindex
      exact absurd (List.mem_of_getElem? hindex) hline

/-- Where the search finds a closing line, blanks lead to the brace of the first
one. -/
theorem exists_closesFirst {front line tail : Text} {start length : Nat}
    (hline : '\n' ∉ line) (hstart : front.length ≤ start)
    (hle : start ≤ (front ++ line).length)
    (h : closingLine? tail = some length) :
    ∃ brace, ClosesFirst (front ++ line ++ tail) start brace ∧
      (front ++ line).length + length ≤ brace ∧
      ∀ index, (front ++ line).length + length ≤ index → index < brace →
        ∃ c, (front ++ line ++ tail)[index]? = some c ∧ isBlank c = true := by
  obtain ⟨before, after, rfl, rfl, hafter, hfirst⟩ := closingLine?_eq_some h
  obtain ⟨blanks, rest, rfl, hblanks, hcloses⟩ :=
    exists_closesAt hafter (front ++ line ++ before)
  rw [List.append_assoc (front ++ line)] at hcloses
  rw [← List.length_append]
  have hbetween : ∀ index, (front ++ line ++ before).length ≤ index →
      index < (front ++ line ++ before).length + 1 + blanks.length →
      ∃ c, (front ++ line ++
        (before ++ '\n' :: (blanks ++ '\x7d' :: rest)))[index]? = some c ∧
        isBlank c = true := by
    intro index hge hlt
    have hindex : index - (front ++ line ++ before).length <
        ('\n' :: blanks).length := by
      rw [List.length_cons]
      omega
    have hall : ∀ c ∈ '\n' :: blanks, isBlank c = true :=
      List.forall_mem_cons.mpr ⟨by decide, hblanks⟩
    refine ⟨_, ?_, hall _ (List.getElem_mem hindex)⟩
    rw [← List.append_assoc, List.getElem?_append_right hge, ← List.cons_append,
      List.getElem?_append_left hindex, List.getElem?_eq_getElem hindex]
  refine ⟨_, ⟨hcloses.mono ?_, fun other hother => ?_⟩, by omega, hbetween⟩
  · rw [List.length_append]
    omega
  · -- The line feed in front of another one is not in front of the one that was
    -- found, and no brace is among the blanks behind that.
    obtain ⟨first, next, hcontent, hge, hlt, hbrace, hnext⟩ :=
      hother.exists_starts
    obtain ⟨first, rfl, htail⟩ :=
      exists_of_feed_behind hline hcontent (Nat.le_trans hstart hge)
    have hbehind : before.length ≤ first.length := by
      refine Nat.le_of_not_lt fun hlt => ?_
      rw [hfirst first next htail hlt] at hnext
      cases hnext
    refine Nat.le_of_not_lt fun hother => ?_
    have hge : (front ++ line ++ before).length ≤ other := by
      rw [List.length_append] at hlt ⊢
      omega
    obtain ⟨c, hc, hblank⟩ := hbetween other hge hother
    obtain rfl : '\x7d' = c := Option.some.inj (hbrace.symm.trans hc)
    exact absurd hblank (by decide)

/-- Where the search finds no closing line, there is none. -/
theorem not_closesAt {front line tail : Text} {start : Nat}
    (hline : '\n' ∉ line) (hstart : front.length ≤ start)
    (h : closingLine? tail = none) (brace : Nat) :
    ¬ ClosesAt (front ++ line ++ tail) start brace := by
  intro hcloses
  obtain ⟨before, after, hcontent, hge, -, -, hafter⟩ := hcloses.exists_starts
  obtain ⟨first, -, htail⟩ :=
    exists_of_feed_behind hline hcontent (Nat.le_trans hstart hge)
  rw [closingLine?_eq_none h first after htail] at hafter
  cases hafter

/-- The character in front of the end of an anchor is one of the anchor, or the
anchor is empty and ends the text. -/
theorem getElem?_of_isLastAt {anchor content : Text} {last index : Nat}
    (h : Text.IsLastAt anchor content last)
    (hindex : index + 1 = last + anchor.length) :
    (∃ c ∈ anchor, content[index]? = some c) ∨ content.length =
      last + anchor.length := by
  rcases List.eq_nil_or_concat anchor with rfl | ⟨front, c, rfl⟩
  · right
    refine Nat.le_antisymm (Nat.le_of_not_lt fun hlt => ?_) h.le
    exact h.last content.length hlt (Nat.le_refl _) List.nil_prefix
  · left
    rw [List.concat_eq_append] at h hindex ⊢
    obtain ⟨rest, hrest⟩ := h.begins
    refine ⟨c, List.mem_append_right _ List.mem_cons_self, ?_⟩
    rw [List.length_append, List.length_singleton] at hindex
    obtain rfl : index = last + front.length := by omega
    rw [← List.getElem?_drop, ← hrest, List.append_assoc,
      List.getElem?_append_right (Nat.le_refl _), Nat.sub_self]
    rfl

/-- Moving in front of a CR does not go back into an anchor without line
breaks. -/
theorem le_beforeBreak {anchor content : Text} {last offset : Nat}
    (h : Text.IsLastAt anchor content last) (hreturn : '\r' ∉ anchor)
    (hle : last + anchor.length ≤ offset) :
    last + anchor.length ≤ beforeBreak content offset := by
  rcases beforeBreak_cases content offset with heq | ⟨hoffset, hbefore, hat⟩
  · rwa [heq]
  · refine Nat.le_of_lt_succ (Nat.lt_of_le_of_ne (by omega) fun heq => ?_)
    have hend : beforeBreak content offset + 1 = last + anchor.length :=
      heq.symm
    rcases getElem?_of_isLastAt h hend with ⟨c, hc, hchar⟩ | hlength
    · obtain rfl : '\r' = c := Option.some.inj (hbefore.symm.trans hchar)
      exact hreturn hc
    · rw [← hoffset, hend, ← hlength,
        List.getElem?_eq_none (Nat.le_refl _)] at hat
      cases hat

/-- The offset for an anchor without line breaks is there when the anchor
occurs.  It is the end of a line and not in front of the end of the last anchor.
If a closing line comes after that, only blanks stand between the offset and the
first one's brace; otherwise the offset ends the line of the anchor. -/
theorem insertionOffset?_boundary {anchor : Text}
    (hbreak : '\n' ∉ anchor ∧ '\r' ∉ anchor) (content : Text) :
    (insertionOffset? content anchor = none ↔ ¬ anchor <:+: content) ∧
      ∀ last, Text.IsLastAt anchor content last →
        ∃ offset, insertionOffset? content anchor = some offset ∧
          last + anchor.length ≤ offset ∧ AtLineEnd content offset ∧
          ((∃ brace, ClosesAt content (last + anchor.length) brace) →
            ∃ brace, ClosesFirst content (last + anchor.length) brace ∧
              offset ≤ brace ∧
              ∀ c ∈ content.slice offset brace, isBlank c = true) ∧
          ((¬ ∃ brace, ClosesAt content (last + anchor.length) brace) →
            '\n' ∉ content.slice (last + anchor.length) offset) := by
  refine ⟨?_, fun last hlast => ?_⟩
  · rw [insertionOffset?, Option.map_eq_none_iff, ← Text.findLast?_isSome_iff,
      Option.not_isSome_iff_eq_none]
  have hfind := Text.findLast?_eq_some_iff.mpr hlast
  have hoccurs : anchor <:+: content :=
    Text.findLast?_isSome_iff.mp (hfind ▸ rfl)
  obtain ⟨line, tail, hcontent, hline, htail, hoffset⟩ :=
    exists_line_of_findLast? hfind
  obtain ⟨offset, -, -, hfound, hend⟩ := exists_insertionOffset? hoccurs
  obtain rfl : _ = offset := Option.some.inj (hoffset.symm.trans hfound)
  have hlength : (content.take last).length = last :=
    List.length_take_of_le hlast.le
  have hlineEnd : (content.take last ++ line).length = last + line.length := by
    rw [List.length_append, hlength]
  -- The anchor is in the line.
  have hprefix : anchor <+: line := by
    have hbars : Bars anchor tail := by
      rcases htail with hnil | ⟨rest, hrest⟩
      · exact Or.inl hnil
      · exact Or.inr ⟨'\n', rest, hrest.symm, hbreak.1⟩
    have hdrop : content.drop last = line ++ tail := by
      have hparts := congrArg (List.drop (content.take last).length) hcontent
      rwa [List.append_assoc, List.drop_left, hlength] at hparts
    exact (prefix_append_iff hbars).mp (hdrop ▸ hlast.begins)
  have hle := hprefix.length_le
  have hstart : (content.take last).length ≤ last + anchor.length := by omega
  refine ⟨_, hoffset, le_beforeBreak hlast hbreak.2 (by omega), hend, ?_⟩
  cases hclosing : closingLine? tail with
  | none =>
    have hno : ¬ ∃ brace, ClosesAt content (last + anchor.length) brace := by
      rintro ⟨brace, hbrace⟩
      rw [hcontent] at hbrace
      exact not_closesAt hline hstart hclosing brace hbrace
    refine ⟨fun h => absurd h hno, fun _ hmem => ?_⟩
    obtain ⟨index, hge, hlt, hindex⟩ := Text.exists_of_mem_slice hmem
    have hmove := beforeBreak_cases content (last + line.length)
    rw [Option.getD_none, Nat.add_zero] at hlt
    rw [hcontent, List.getElem?_append_left (by omega),
      List.getElem?_append_right (by omega)]
      at hindex
    exact hline (List.mem_of_getElem? hindex)
  | some length =>
    obtain ⟨brace, hfirst, hbehind, hbetween⟩ :=
      exists_closesFirst hline hstart (by omega) hclosing
    rw [← hcontent] at hfirst hbetween
    rw [hlineEnd] at hbehind hbetween
    rw [Option.getD_some]
    have hmove := beforeBreak_cases content (last + line.length + length)
    refine ⟨fun _ => ⟨brace, hfirst, by omega, fun c hc => ?_⟩,
      fun hno => absurd ⟨brace, hfirst.closes⟩ hno⟩
    obtain ⟨index, hge, hlt, hindex⟩ := Text.exists_of_mem_slice hc
    by_cases hreturn : last + line.length + length ≤ index
    · obtain ⟨d, hd, hblank⟩ := hbetween index hreturn hlt
      obtain rfl : c = d := Option.some.inj (hindex.symm.trans hd)
      exact hblank
    · -- In front of the line feed there is only the CR that the offset was
      -- moved over.
      rcases hmove with heq | ⟨hoffset, hbefore, -⟩
      · omega
      · obtain rfl : index =
            beforeBreak content (last + line.length + length) := by omega
        obtain rfl : '\r' = c := Option.some.inj (hbefore.symm.trans hindex)
        decide

/-- The line break after the anchor, a blank line and the break in front of the
closing line are all CR LF. -/
theorem insertionOffset?_crlf :
    ('\n' ∉ "a".toList ∧ '\r' ∉ "a".toList) ∧
      ∃ offset, insertionOffset? "'a': 1\r\n \r\n\t\x7d,\r\nb".toList
        "a".toList = some offset ∧
        AtLineEnd "'a': 1\r\n \r\n\t\x7d,\r\nb".toList offset ∧
        ∃ brace, ClosesFirst "'a': 1\r\n \r\n\t\x7d,\r\nb".toList 2 brace ∧
          offset ≤ brace ∧
          ∀ c ∈ Text.slice "'a': 1\r\n \r\n\t\x7d,\r\nb".toList offset brace,
            isBlank c = true := by
  have hbreak : '\n' ∉ "a".toList ∧ '\r' ∉ "a".toList := by decide
  have hlast : Text.IsLastAt "a".toList "'a': 1\r\n \r\n\t\x7d,\r\nb".toList
      1 :=
    Text.findLast?_eq_some_iff.mp (by decide)
  obtain ⟨offset, hoffset, -, hend, hcloses, -⟩ :=
    (insertionOffset?_boundary hbreak _).2 1 hlast
  have hclosing : ClosesAt "'a': 1\r\n \r\n\t\x7d,\r\nb".toList
      (1 + "a".toList.length) 12 :=
    ⟨"'a': 1\r\n \r".toList, "\t\x7d,\r".toList, "\nb".toList,
      1, by decide, by decide, by decide,
      Or.inr ⟨['b'], rfl⟩,
      ⟨['\t'], [','], ['\r'], by decide, rfl,
        List.forall_mem_singleton.mpr (by decide),
        Or.inr rfl, List.forall_mem_singleton.mpr (by decide)⟩, by decide⟩
  exact ⟨hbreak, offset, hoffset, hend, hcloses ⟨12, hclosing⟩⟩

end Mapping

end OklchGate
