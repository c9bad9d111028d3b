import OklchGate.Proofs.Mapping.Insertion

/-!
# Inserting into a mapping literal twice

An insertion into a mapping literal always succeeds, and a second one changes
nothing: it finds the gate key that the first one put in, or it finds what the
first one found.

* `transform_cases`: what becomes of a text, by the gate key and the scan.
* `transform_finds_anchor`: the anchor of an insertion is in the text, so there
  is no text for which it fails.
* `sublist_output`: nothing of a text is lost.
* `transform_again`, about the second insertion.
-/

namespace OklchGate.Mapping

theorem gateKey_infix_block (entries : List Entry) (indent newline : Text) :
    gateKey <:+: block entries indent newline := by
  refine ⟨comment.flatMap (fun line => newline ++ indent ++ line) ++
    newline ++ indent,
    [' ', '\x7b'] ++ (sorted entries).flatMap
      (fun entry => newline ++ indent ++ defaultIndent ++ entryLine entry) ++
      newline ++ indent ++ ['\x7d', ','], ?_⟩
  rw [block_eq]
  simp only [List.append_assoc]

/-- A text with the gate key stays, one without it stays if its scan finds no
entry, and any other text gets a gated entry at the end of a line. -/
theorem transform_cases (convert : Converter) (content : Text) :
    (gateKey <:+: content ∧ transform convert content = .ok .alreadyProcessed) ∨
      (¬ gateKey <:+: content ∧ (scan convert content).entries = [] ∧
        transform convert content = .ok
          (.untouched (scan convert content).failures)) ∨
      (¬ gateKey <:+: content ∧ (scan convert content).entries ≠ [] ∧
        ∃ offset indent, AtLineEnd content offset ∧
          transform convert content = .ok
            (.changed (scan convert content).entries
            (scan convert content).failures offset
            (newlineStyle content ++
              block (scan convert content).entries indent
                (newlineStyle content)))) := by
  by_cases hkey : gateKey <:+: content
  · left
    refine ⟨hkey, ?_⟩
    rw [transform, if_pos (Text.find?_isSome_iff.mpr hkey)]
  · right
    have hnone : ¬ (Text.find? gateKey content).isSome = true := fun hsome =>
      hkey (Text.find?_isSome_iff.mp hsome)
    by_cases hconversions : conversions convert content = []
    · left
      have hnil : (scan convert content).entries = [] := by
        rw [entries_scan, hconversions]
        rfl
      refine ⟨hkey, hnil, ?_⟩
      rw [transform, if_neg hnone]
      dsimp only
      rw [hnil]
      rfl
    · right
      obtain ⟨entry, offset, indent, _, _, hend, _, htransform⟩ :=
        exists_transform_eq hkey hconversions
      exact ⟨hkey, entries_ne_nil convert content hconversions, offset, indent,
        hend, htransform⟩

/-- A text that is looked for has an offset exactly if it occurs. -/
theorem insertionOffset?_eq_none_iff (content anchor : Text) :
    insertionOffset? content anchor = none ↔ ¬ anchor <:+: content := by
  rw [insertionOffset?, Option.map_eq_none_iff, ← Text.findLast?_isSome_iff,
    Option.not_isSome_iff_eq_none]

/-- There is always an outcome.  The hex text of the last entry, whatever
entries were replaced or left out on the way to it, is the one of a pair of the
text.  So it occurs there, and the gated entry is put at the offset that is
found for it. -/
theorem transform_finds_anchor (convert : Converter) (content : Text) :
    (∃ outcome, transform convert content = .ok outcome) ∧
      (∀ anchor, insertionOffset? content anchor = none ↔
        ¬ anchor <:+: content) ∧
      ∀ entry, (scan convert content).entries.getLast? = some entry →
        (entry.key, entry.hex) ∈ hexPairs content ∧ entry.hex <:+: content ∧
        ∃ offset, insertionOffset? content entry.hex = some offset ∧
          AtLineEnd content offset ∧
          (¬ gateKey <:+: content → ∃ inserted, transform convert content =
            .ok (.changed (scan convert content).entries
              (scan convert content).failures offset inserted)) := by
  refine ⟨?_, insertionOffset?_eq_none_iff content, fun entry hlast => ?_⟩
  · rcases transform_cases convert content with
      ⟨-, h⟩ | ⟨-, -, h⟩ | ⟨-, -, offset, indent, -, h⟩
    · exact ⟨_, h⟩
    · exact ⟨_, h⟩
    · exact ⟨_, h⟩
  · have hmem : entry ∈ (scan convert content).entries :=
      List.mem_of_getLast? hlast
    have hread := (exists_of_mem_scan convert content hmem).1
    have hoccurs := hex_infix_of_mem_scan hmem
    obtain ⟨offset, -, -, hoffset, hend⟩ := exists_insertionOffset? hoccurs
    refine ⟨hread, hoccurs, offset, hoffset, hend, fun hkey => ?_⟩
    have hconversions : conversions convert content ≠ [] := by
      intro hnil
      rw [entries_scan, hnil] at hlast
      cases hlast
    obtain ⟨other, found, indent, hother, hfound, -, -, htransform⟩ :=
      exists_transform_eq hkey hconversions
    rw [hlast] at hother
    cases hother
    rw [hoffset] at hfound
    cases hfound
    exact ⟨_, htransform⟩

/-- A key that comes again and takes another value, and a pair that does not
convert behind it. -/
theorem transform_finds_anchor_replaced :
    (∃ outcome, transform (fun hex => if hex = "#222".toList then none
      else some ['o'])
        "'a': '#000',\n'a': '#111',\n'b': '#222'".toList = .ok outcome) ∧
      (scan (fun hex => if hex = "#222".toList then none else some ['o'])
        "'a': '#000',\n'a': '#111',\n'b': '#222'".toList).entries.getLast? =
          some ⟨['a'], "#111".toList, ['o']⟩ ∧
      "#111".toList <:+: "'a': '#000',\n'a': '#111',\n'b': '#222'".toList ∧
      ∃ offset inserted,
        insertionOffset? "'a': '#000',\n'a': '#111',\n'b': '#222'".toList
          "#111".toList = some offset ∧
        transform (fun hex => if hex = "#222".toList then none else some ['o'])
          "'a': '#000',\n'a': '#111',\n'b': '#222'".toList =
            .ok (.changed [⟨['a'], "#111".toList, ['o']⟩] ["b: #222".toList]
              offset inserted) := by
  have hscan : scan (fun hex => if hex = "#222".toList then none
    else some ['o'])
      "'a': '#000',\n'a': '#111',\n'b': '#222'".toList =
        ⟨[⟨['a'], "#111".toList, ['o']⟩], ["b: #222".toList]⟩ := by
          decide +kernel
  obtain ⟨htotal, -, hanchor⟩ := transform_finds_anchor
    (fun hex => if hex = "#222".toList then none else some ['o'])
    "'a': '#000',\n'a': '#111',\n'b': '#222'".toList
  rw [hscan] at hanchor ⊢
  obtain ⟨-, hoccurs, offset, hoffset, -, hinserted⟩ := hanchor _ rfl
  have hkey : ¬ gateKey <:+: "'a': '#000',\n'a': '#111',\n'b': '#222'".toList :=
    fun hkey =>
    absurd (Text.find?_isSome_iff.mpr hkey) (by decide)
  obtain ⟨inserted, htransform⟩ := hinserted hkey
  exact ⟨htotal, rfl, hoccurs, offset, inserted, hoffset, htransform⟩

/-- An insertion keeps every character of the text and their order. -/
theorem sublist_output (content : Text) (outcome : Outcome) :
    content.Sublist (outcome.output content) := by
  cases outcome with
  | alreadyProcessed => exact List.Sublist.refl content
  | untouched failures => exact List.Sublist.refl content
  | changed entries failures offset inserted =>
    have hparts : (content.take offset ++ content.drop offset).Sublist
        (content.take offset ++ inserted ++ content.drop offset) :=
      (List.sublist_append_left _ inserted).append (List.Sublist.refl _)
    rwa [List.take_append_drop] at hparts

/-- A text is not what it was once something is put in. -/
theorem output_changed_ne {content inserted : Text} (hinserted : inserted ≠ [])
    (entries : List Entry) (failures : List Text) (offset : Nat) :
    (Outcome.changed entries failures offset inserted).output content ≠
      content := by
  intro heq
  have hpos := List.length_pos_iff.mpr hinserted
  have hlength := congrArg List.length heq
  have hparts := congrArg List.length (List.take_append_drop offset content)
  rw [Outcome.output, List.length_append, List.length_append] at hlength
  rw [List.length_append] at hparts
  omega

/-- A second insertion changes nothing.  It finds the gate key if the first one
changed the text, which it does to a text without the key in which an entry is
found; and otherwise it finds what the first one found. -/
theorem transform_again (convert : Converter) (content : Text) :
    ∃ first second,
      transform convert content = .ok first ∧
      transform convert (first.output content) = .ok second ∧
      second.output (first.output content) = first.output content ∧
      second.isChanged = false ∧ second.colorsConverted = 0 ∧
      (first.isChanged = true ↔
        ¬ gateKey <:+: content ∧ (scan convert content).entries ≠ []) ∧
      ((first.isChanged = true ∧ first.output content ≠ content ∧
          second.isAlreadyProcessed = true) ∨
        (first.isChanged = false ∧ first.output content = content ∧
          second = first)) := by
  rcases transform_cases convert content with
    ⟨hkey, hfirst⟩ | ⟨_, hnone, hfirst⟩ | ⟨hkey, hentries, offset, indent,
      _, hfirst⟩
  · have hchanged : Outcome.alreadyProcessed.isChanged = true ↔
        ¬ gateKey <:+: content ∧ (scan convert content).entries ≠ [] :=
      iff_of_false nofun fun h => h.1 hkey
    exact ⟨_, _, hfirst, hfirst, rfl, rfl, rfl, hchanged,
      Or.inr ⟨rfl, rfl, rfl⟩⟩
  · have hchanged :
      (Outcome.untouched (scan convert content).failures).isChanged = true ↔
        ¬ gateKey <:+: content ∧ (scan convert content).entries ≠ [] :=
      iff_of_false nofun fun h => h.2 hnone
    exact ⟨_, _, hfirst, hfirst, rfl, rfl, rfl, hchanged,
      Or.inr ⟨rfl, rfl, rfl⟩⟩
  · obtain ⟨inserted, hinserted⟩ : ∃ inserted,
      inserted = newlineStyle content ++
        block (scan convert content).entries indent (newlineStyle content) :=
          ⟨_, rfl⟩
    have hthere : gateKey <:+: inserted := by
      rw [hinserted]
      exact (gateKey_infix_block _ _ _).trans (List.suffix_append _ _).isInfix
    have hne : inserted ≠ [] := by
      intro hnil
      rw [hnil, List.infix_nil] at hthere
      exact absurd hthere (by decide)
    rw [← hinserted] at hfirst
    have hafter : gateKey <:+: content.take offset ++ inserted ++
        content.drop offset :=
      hthere.trans ⟨content.take offset, content.drop offset, rfl⟩
    have hsecond : transform convert
        (content.take offset ++ inserted ++
          content.drop offset) = .ok .alreadyProcessed := by
      rw [transform, if_pos (Text.find?_isSome_iff.mpr hafter)]
    have hchanged : (Outcome.changed (scan convert content).entries
        (scan convert content).failures offset inserted).isChanged = true := by
      unfold Outcome.isChanged Outcome.entries
      rw [List.isEmpty_eq_false_iff.mpr hentries]
      rfl
    exact ⟨_, _, hfirst, hsecond, rfl, rfl, rfl,
      iff_of_true hchanged ⟨hkey, hentries⟩,
      Or.inl ⟨hchanged, output_changed_ne hne _ _ offset, rfl⟩⟩

end OklchGate.Mapping
