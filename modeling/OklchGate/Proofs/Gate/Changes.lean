import OklchGate.Proofs.Gate.Settling

/-!
# When gates change a style sheet

The counts of an insertion are computed from the scan.  They agree with the
texts: something is counted exactly if gates are put in, and a gate that is put
in has a text.

* `changed_iff_patches` compares the counts with the gates that are put in.
* `output_eq_source_iff` compares the output with the source.
* `groupItems_pos_iff`: where rules are counted, so are colors.
-/

namespace OklchGate.Gate

variable (convert : Converter) (unit : Text) (document : Css.Document)

/-- One gate is put in for each rule that is counted. -/
theorem length_sitePatches :
    (sitePatches ⟨document.source, convert, unit⟩
        (sitesOf convert false document.children)).length =
      (insertGates convert unit document).rulesConverted := by
  show _ =
    ((scanNodes convert false document.children).filter RuleScan.isGroup).length
  rw [sitePatches, List.length_map,
    ← map_scan_sitesOf convert false document.children, List.filter_map,
    List.length_map]
  rfl

/-- There is a change exactly if some gate is put in. -/
theorem changed_iff_patches :
    (insertGates convert unit document).changed = true ↔
      patches convert unit document ≠ [] := by
  have hroot : (rootPatch? unit convert document).toList = [] ↔
      (insertGates convert unit document).rootColorsConverted = 0 := by
    rw [rootColorsConverted_eq_zero_iff, Option.toList_eq_nil_iff, rootPatch?,
      Option.map_eq_none_iff]
  have hrules : sitePatches ⟨document.source, convert, unit⟩
      (sitesOf convert false document.children) = [] ↔
      (insertGates convert unit document).rulesConverted = 0 := by
    rw [← length_sitePatches convert unit document, List.length_eq_zero_iff]
  rw [Insertion.changed, Bool.or_eq_true, decide_eq_true_eq, decide_eq_true_eq,
    Ne, Ne, ← hrules, ← hroot, ← Classical.not_and_iff_not_or_not,
    ← List.append_eq_nil_iff]
  rfl

/-- A gate that is put in has a text. -/
theorem serialize_gateNode_ne_nil (source : Text) (layout : Css.Layout)
    (selector : Text) (items : List Item) :
    (gateNode layout selector items).serialize source ≠ [] := by
  have hmark : '@' ∈ layout.before ++
      (gateNode layout selector items).render layout.indent layout.unit := by
    rw [gateNode, Css.Node.render]
    simp [Css.Head.render]
  have hkept : '@' ∈ (gateNode layout selector items).serialize source := by
    show '@' ∈ withNewlines source _
    rw [withNewlines, Text.replaceChar, List.mem_flatMap]
    exact ⟨'@', hmark, by simp⟩
  exact List.ne_nil_of_mem hkept

variable {document}

theorem text_ne_nil_of_mem_patches {patch : Text.Patch}
    (h : patch ∈ patches convert unit document) : patch.text ≠ [] := by
  rw [patches, List.mem_append, Option.mem_toList] at h
  rcases h with h | h
  · obtain ⟨site, _, rfl⟩ := List.mem_map.mp h
    exact serialize_gateNode_ne_nil _ _ _ _
  · rw [rootPatch?] at h
    obtain ⟨gate, hgate, rfl⟩ := Option.map_eq_some_iff.mp h
    rw [rootGate?] at hgate
    split at hgate
    · cases hgate
    · cases hgate
      exact serialize_gateNode_ne_nil _ _ _ _

/-- The output is the source exactly if no gate is put in. -/
theorem output_eq_source_iff {source : Text}
    (h : Css.Document.parse source = .ok document) :
    (insertGates convert unit document).output = source ↔
      patches convert unit document = [] := by
  obtain ⟨_, htiles⟩ := Css.tiles_of_parse h
  have hplaces : ∀ patch ∈ patches convert unit document,
      0 < patch.offset ∧ patch.offset ≤ source.length := fun patch hpatch =>
    have hoffset := offset_of_mem_patches convert unit htiles patch hpatch
    ⟨hoffset.1, Nat.le_trans hoffset.2 (tiles_cursorAfter htiles).2⟩
  rw [output_insertGates convert unit h]
  constructor
  · intro hsame
    have hlength := congrArg List.length hsame
    rw [Text.length_textOf_weave hplaces] at hlength
    have hnone : (patches convert unit document).flatMap Text.Patch.text = [] :=
      List.length_eq_zero_iff.mp (by omega)
    rw [List.flatMap_eq_nil_iff] at hnone
    exact List.eq_nil_iff_forall_not_mem.mpr fun patch hpatch =>
      text_ne_nil_of_mem_patches convert unit hpatch (hnone patch hpatch)
  · intro hnil
    rw [hnil, Text.textOf_weave, Text.weaveAfter_nil]
    rfl

/-- Some color is counted in the rules exactly if some rule is. -/
theorem groupItems_pos_iff (scan : Scan) :
    0 < scan.groupItems ↔ scan.groups ≠ [] := by
  rw [Scan.groupItems, List.length_pos_iff, Ne, List.flatMap_eq_nil_iff]
  constructor
  · intro hitems hnone
    rw [hnone] at hitems
    exact hitems nofun
  · intro hgroups hitems
    obtain ⟨group, hgroup⟩ := List.exists_mem_of_ne_nil _ hgroups
    have hfull := (List.mem_filter.mp hgroup).2
    rw [RuleScan.isGroup, hitems group hgroup] at hfull
    cases hfull

end OklchGate.Gate
