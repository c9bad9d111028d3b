import OklchGate.Text

/-!
# Searching a text

What the searches of a text answer, said by its parts.

There are three groups.

* `Text.find?` finds a text where it is a part, and `Text.findLast?` finds the
  last place of it.
* Searches for one character.
* `Text.occurrences`, how often a text occurs, and the count for a text in
  single quotes.
-/

namespace OklchGate.Text

/-! ## The first and the last place of a text -/

/-- A text is found exactly where it is a part. -/
theorem find?_isSome_iff {needle text : Text} :
    (find? needle text).isSome ↔ needle <:+: text := by
  induction text with
  | nil =>
    rw [find?, List.infix_nil]
    cases needle <;> simp
  | cons c rest ih =>
    rw [find?, List.infix_cons_iff, ← ih, ← List.isPrefixOf_iff_prefix]
    split
    · next h => simp [h]
    · next h => simp [h]

/-- A text that is a part is found from the end, too. -/
theorem findLast?_isSome_iff {needle text : Text} :
    (findLast? needle text).isSome ↔ needle <:+: text := by
  induction text with
  | nil =>
    rw [findLast?, List.infix_nil]
    cases needle <;> simp
  | cons c rest ih =>
    rw [findLast?, List.infix_cons_iff, ← ih, ← List.isPrefixOf_iff_prefix]
    cases findLast? needle rest with
    | some offset => simp
    | none =>
      by_cases h : needle.isPrefixOf (c :: rest) = true
      · simp [h]
      · simp [h]

/-- The place that is found from the end: the text stands there, and nowhere
after it. -/
theorem findLast?_eq_some {needle text : Text} {offset : Nat}
    (h : findLast? needle text = some offset) :
    offset ≤ text.length ∧ needle <+: text.drop offset ∧
      ∀ later, offset < later → later ≤ text.length →
        ¬ needle <+: text.drop later := by
  induction text generalizing offset with
  | nil =>
    rw [findLast?] at h
    split at h
    · next hempty =>
      cases h
      rw [List.isEmpty_iff.mp hempty]
      exact ⟨Nat.le_refl 0, List.nil_prefix, fun later hlater hle =>
        absurd hlater (Nat.not_lt.mpr hle)⟩
    · cases h
  | cons c rest ih =>
    rw [findLast?] at h
    cases hrest : findLast? needle rest with
    | some found =>
      rw [hrest] at h
      cases h
      obtain ⟨hle, hbegins, hlast⟩ := ih hrest
      refine ⟨Nat.succ_le_succ hle, hbegins, fun later hlater hlength => ?_⟩
      cases later with
      | zero => exact absurd hlater (Nat.not_lt_zero _)
      | succ later =>
        exact hlast later (Nat.lt_of_succ_lt_succ hlater)
          (Nat.le_of_succ_le_succ hlength)
    | none =>
      rw [hrest] at h
      dsimp only at h
      split at h
      · next hbegins =>
        cases h
        refine ⟨Nat.zero_le _, List.isPrefixOf_iff_prefix.mp hbegins,
          fun later hlater _ hthere => ?_⟩
        cases later with
        | zero => exact absurd hlater (Nat.not_lt_zero _)
        | succ later =>
          have hoccurs : needle <:+: rest :=
            hthere.isInfix.trans (List.drop_suffix later rest).isInfix
          rw [← findLast?_isSome_iff, hrest] at hoccurs
          cases hoccurs
      · cases h

/-- A text in front moves the place that is found from the end. -/
theorem findLast?_of_append {needle text : Text} {last : Nat}
    (h : findLast? needle text = some last) (front : Text) :
    findLast? needle (front ++ text) = some (front.length + last) := by
  induction front with
  | nil => rw [List.nil_append, h, List.length_nil, Nat.zero_add]
  | cons c front ih =>
    rw [List.cons_append, findLast?, ih, List.length_cons, Nat.add_right_comm]

/-! ## One character -/

/-- The first place of a character. -/
theorem find?_singleton_eq_some {c : Char} {text : Text} {offset : Nat}
    (h : find? [c] text = some offset) :
    ∃ before after, text = before ++ c :: after ∧ before.length = offset ∧
      c ∉ before := by
  induction text generalizing offset with
  | nil => cases h
  | cons d rest ih =>
    rw [find?] at h
    split at h
    · next hbegins =>
      cases h
      rw [List.isPrefixOf_iff_prefix, List.cons_prefix_cons] at hbegins
      exact ⟨[], rest, by rw [hbegins.1, List.nil_append], rfl, nofun⟩
    · next hbegins =>
      obtain ⟨found, hfound, rfl⟩ := Option.map_eq_some_iff.mp h
      obtain ⟨before, after, rfl, rfl, hnot⟩ := ih hfound
      have hne : c ≠ d := by
        rintro rfl
        exact hbegins (List.isPrefixOf_iff_prefix.mpr
          (List.prefix_append [c] _))
      exact ⟨d :: before, after, rfl, rfl,
        List.not_mem_cons_of_ne_of_not_mem hne hnot⟩

theorem find?_singleton_eq_none {c : Char} {text : Text}
    (h : find? [c] text = none) :
    c ∉ text := by
  intro hmem
  have hoccurs : [c] <:+: text := by
    obtain ⟨before, after, rfl⟩ := List.append_of_mem hmem
    exact ⟨before, after, by rw [List.append_assoc, List.singleton_append]⟩
  rw [← find?_isSome_iff, h] at hoccurs
  cases hoccurs

/-- The last place of a character is the one that it does not occur after. -/
theorem findLast?_singleton {c : Char} {after : Text} (h : c ∉ after)
    (before : Text) :
    findLast? [c] (before ++ c :: after) = some before.length := by
  have hlater : findLast? [c] after = none := by
    rw [← Option.not_isSome_iff_eq_none, findLast?_isSome_iff]
    exact fun hoccurs => h (hoccurs.subset List.mem_cons_self)
  have hhere : findLast? [c] (c :: after) = some 0 := by
    rw [findLast?, hlater]
    exact if_pos (List.isPrefixOf_iff_prefix.mpr (List.prefix_append [c] after))
  exact findLast?_of_append hhere before

/-! ## Occurrences -/

/-- At how many offsets a text occurs. -/
def occurrences (needle : Text) : Text → Nat
  | [] => if needle.isEmpty then 1 else 0
  | c :: rest =>
    (if needle.isPrefixOf (c :: rest) then 1 else 0) + occurrences needle rest

/-- Where there is no quote, no text in quotes occurs. -/
theorem occurrences_append_of_not_mem {body before : Text} (h : '\'' ∉ before)
    (after : Text) :
    occurrences ('\'' :: body) (before ++ after) =
      occurrences ('\'' :: body) after := by
  induction before with
  | nil => rfl
  | cons c before ih =>
    rw [List.mem_cons, not_or] at h
    have hbegins : ¬ ('\'' :: body).isPrefixOf (c :: (before ++ after)) =
        true := by
      rw [List.isPrefixOf_iff_prefix, List.cons_prefix_cons]
      exact fun hquote => h.1 hquote.1
    rw [List.cons_append, occurrences, if_neg hbegins, ih h.2, Nat.zero_add]

theorem occurrences_of_not_mem {body text : Text} (h : '\'' ∉ text) :
    occurrences ('\'' :: body) text = 0 := by
  have happend : occurrences ('\'' :: body) (text ++ []) =
      occurrences ('\'' :: body) [] :=
    occurrences_append_of_not_mem h []
  rw [List.append_nil] at happend
  rw [happend]
  rfl

/-- A text in quotes with what comes next is the start of another one exactly
when both agree. -/
theorem quoted_prefix_iff {body text next after : Text} (hbody : '\'' ∉ body)
    (htext : '\'' ∉ text) :
    body ++ '\'' :: next <+: text ++ '\'' :: after ↔
      body = text ∧ next <+: after := by
  induction body generalizing text with
  | nil =>
    cases text with
    | nil => simp
    | cons c text =>
      rw [List.mem_cons, not_or] at htext
      simp [htext.1]
  | cons d body ih =>
    rw [List.mem_cons, not_or] at hbody
    cases text with
    | nil => simp [Ne.symm hbody.1]
    | cons c text =>
      rw [List.mem_cons, not_or] at htext
      rw [List.cons_append, List.cons_append, List.cons_prefix_cons,
        ih hbody.2 htext.2, List.cons.injEq, and_assoc]

/-- From one quote to the next one, a text in quotes occurs once or not at
all. -/
theorem occurrences_quoted {body text next after : Text} (hbody : '\'' ∉ body)
    (htext : '\'' ∉ text) :
    occurrences ('\'' :: body ++ '\'' :: next) ('\'' :: text ++ '\'' :: after) =
      (if body = text ∧ next <+: after then 1 else 0) +
        occurrences ('\'' :: body ++ '\'' :: next) ('\'' :: after) := by
  simp only [List.cons_append]
  rw [occurrences, occurrences_append_of_not_mem htext]
  simp only [List.isPrefixOf_iff_prefix, List.cons_prefix_cons, true_and,
    quoted_prefix_iff hbody htext]

/-- After the last quote, no text in quotes occurs. -/
theorem occurrences_last {body next text : Text} (h : '\'' ∉ text) :
    occurrences ('\'' :: body ++ '\'' :: next) ('\'' :: text) = 0 := by
  rw [List.cons_append, occurrences, occurrences_of_not_mem h, Nat.add_zero,
    if_neg]
  rw [List.isPrefixOf_iff_prefix, List.cons_prefix_cons]
  exact fun hbegins =>
    h (hbegins.2.subset (List.mem_append_right _ List.mem_cons_self))

end OklchGate.Text
