import OklchGate.Proofs.Files.Tree
import OklchGate.Proofs.Text.Utf8

/-!
# Listing what lies below a directory

A directory lists every file below it, at any depth, and every directory on the
way.  It cannot be listed if one of them has a path that is too long.

There are three groups.

* `Path.mem_stages_iff`, what a path leads through, and the lengths of texts of
  paths.
* `IsEntry`, the files and directories of a tree, and `isEntry_append_iff`: what
  lies below a directory is on the way to something that is listed.
* `mem_filesBelow_iff`, the files that are listed, and `pairwise_sortNames`,
  their order; `overlong?_eq_some` and `overlong?_eq_none`, when a directory
  cannot be listed.
-/

namespace OklchGate

/-! ## Paths on the way -/

namespace Path

theorem mem_stages_iff {path stage : Path} :
    stage ∈ path.stages ↔ stage.root = path.root ∧
      stage.names <+: path.names := by
  rw [stages, List.mem_map]
  constructor
  · rintro ⟨n, -, rfl⟩
    exact ⟨rfl, List.take_prefix n path.names⟩
  · rintro ⟨hroot, hnames⟩
    obtain ⟨root, names⟩ := stage
    obtain rfl : root = path.root := hroot
    have hlength : names.length ≤ path.names.length := hnames.length_le
    exact ⟨names.length,
      List.mem_range.mpr
      (by omega), by rw [← List.prefix_iff_eq_take.mp hnames]⟩

theorem joinWith_sublist (separator : Text) {a b : List Text} (h : a <+: b) :
    (Text.joinWith separator a).Sublist (Text.joinWith separator b) := by
  obtain ⟨rest, rfl⟩ := h
  induction a with
  | nil => exact List.nil_sublist _
  | cons first a ih =>
    cases a with
    | nil =>
      cases rest with
      | nil => exact List.Sublist.refl _
      | cons second rest =>
        show first.Sublist
          (first ++ separator ++ Text.joinWith separator (second :: rest))
        rw [List.append_assoc]
        exact List.sublist_append_left first _
    | cons second a => exact (List.Sublist.refl (first ++ separator)).append ih

theorem toText_eq (path : Path) (h : ¬ (path.root = [] ∧ path.names = [])) :
    path.toText = path.root ++ Text.joinWith ['/'] path.names := by
  rw [toText, if_neg]
  rwa [Bool.and_eq_true, List.isEmpty_iff, List.isEmpty_iff]

/-- A path is no shorter than one on the way. -/
theorem not_exceeds_of_prefix {path stage : Path}
    (hroot : stage.root = path.root) (hnames : stage.names <+: path.names)
    (h : exceeds pathLimit path.toText = false) :
    exceeds pathLimit stage.toText = false := by
  by_cases hempty : stage.root = [] ∧ stage.names = []
  · have htext : stage.toText = ['.'] := by simp [toText, hempty]
    rw [htext]
    decide
  · have hnot : ¬ (path.root = [] ∧ path.names = []) := by
      rintro ⟨hnoRoot, hnoNames⟩
      rw [hnoNames, List.prefix_nil] at hnames
      exact hempty ⟨hroot.trans hnoRoot, hnames⟩
    have hstage := stage.toText_eq hempty
    have hpath := path.toText_eq hnot
    have hsublist : stage.toText.Sublist path.toText := by
      rw [hstage, hpath, hroot]
      exact (List.Sublist.refl path.root).append (joinWith_sublist ['/'] hnames)
    have hlength := (Utf8.sublist_encode hsublist).length_le
    rw [exceeds, decide_eq_false_iff_not] at h ⊢
    omega

end Path

namespace FileTree

variable {tree : FileTree} {directory names rest : List Text} {path : Path}

/-! ## Files and directories -/

/-- A file or a directory of a tree. -/
def IsEntry (tree : FileTree) (names : List Text) : Prop :=
  (tree.find? names).isSome = true ∨ tree.isDirectory names = true

theorem isEntry_iff :
    tree.IsEntry names ↔
      (∃ made ∈ tree.working :: tree.directories, names <+: made) ∨
        ∃ file ∈ tree.files, names <+: file.1 := by
  rw [IsEntry, isSome_find?_iff, isDirectory_iff]
  constructor
  · rintro (⟨file, hfile, rfl⟩ | hmade | ⟨file, hfile, hstarts, -⟩)
    · exact Or.inr ⟨file, hfile, List.prefix_rfl⟩
    · exact Or.inl hmade
    · exact Or.inr ⟨file, hfile, hstarts⟩
  · rintro (hmade | ⟨file, hfile, hstarts⟩)
    · exact Or.inr (Or.inl hmade)
    · by_cases heq : names = file.1
      · exact Or.inl ⟨file, hfile, heq.symm⟩
      · exact Or.inr (Or.inr ⟨file, hfile, hstarts, heq⟩)

/-- What something lies below is a directory. -/
theorem isDirectory_of_isEntry (hrest : rest ≠ [])
    (h : tree.IsEntry (directory ++ rest)) :
    tree.isDirectory directory = true := by
  have hstarts : directory <+: directory ++ rest :=
    List.prefix_append directory rest
  rw [isEntry_iff] at h
  rw [isDirectory_iff]
  rcases h with ⟨made, hmade, hprefix⟩ | ⟨file, hfile, hprefix⟩
  · exact Or.inl ⟨made, hmade, hstarts.trans hprefix⟩
  · refine Or.inr ⟨file, hfile, hstarts.trans hprefix, ?_⟩
    rintro rfl
    have hlength := hprefix.length_le
    rw [List.length_append] at hlength
    exact hrest (List.length_eq_zero_iff.mp (by omega))

/-! ## What is listed -/

/-- Names are listed if they lie below the directory, by the rest of them. -/
theorem listed_iff (directory names rest : List Text) :
    (if directory.isPrefixOf names && directory ≠ names then
      some (names.drop directory.length)
      else none) = some rest ↔ rest ≠ [] ∧ directory ++ rest = names := by
  rw [Option.ite_none_right_eq_some, Bool.and_eq_true,
    List.isPrefixOf_iff_prefix, decide_eq_true_iff, Option.some_inj]
  constructor
  · rintro ⟨⟨⟨more, rfl⟩, hne⟩, rfl⟩
    rw [List.drop_left]
    exact ⟨fun hnil => hne (by rw [hnil, List.append_nil]), rfl⟩
  · rintro ⟨hrest, rfl⟩
    exact ⟨⟨List.prefix_append directory rest, fun heq =>
      hrest (List.self_eq_append_right.mp heq)⟩, List.drop_left⟩

/-- The files that are listed are those below a directory, at any depth. -/
theorem mem_filesBelow_iff :
    rest ∈ tree.filesBelow directory ↔
      rest ≠ [] ∧ (tree.find? (directory ++ rest)).isSome = true := by
  rw [filesBelow, List.mem_filterMap, isSome_find?_iff]
  constructor
  · rintro ⟨file, hfile, hrest⟩
    obtain ⟨hne, heq⟩ := (listed_iff _ _ _).mp hrest
    exact ⟨hne, file, hfile, heq.symm⟩
  · rintro ⟨hne, file, hfile, heq⟩
    exact ⟨file, hfile, (listed_iff _ _ _).mpr ⟨hne, heq.symm⟩⟩

theorem mem_entriesBelow_iff :
    rest ∈ tree.entriesBelow directory ↔
      rest ≠ [] ∧ ((tree.find? (directory ++ rest)).isSome = true ∨
        directory ++ rest ∈ tree.working :: tree.directories) := by
  rw [entriesBelow, List.mem_append, mem_filesBelow_iff, List.mem_filterMap,
    and_or_left]
  refine or_congr Iff.rfl ⟨?_, ?_⟩
  · rintro ⟨made, hmade, hrest⟩
    obtain ⟨hne, rfl⟩ := (listed_iff _ _ _).mp hrest
    exact ⟨hne, hmade⟩
  · rintro ⟨hne, hmade⟩
    exact ⟨_, hmade, (listed_iff _ _ _).mpr ⟨hne, rfl⟩⟩

/-- What lies below a directory is on the way to something that is listed. -/
theorem isEntry_append_iff (hrest : rest ≠ []) :
    tree.IsEntry (directory ++ rest) ↔ ∃ more ∈ tree.entriesBelow directory,
      rest <+: more := by
  constructor
  · intro h
    rw [isEntry_iff] at h
    rcases h with ⟨_, hmade, more, rfl⟩ | ⟨file, hfile, more, hmore⟩
    · refine ⟨rest ++ more, mem_entriesBelow_iff.mpr ?_,
        List.prefix_append rest more⟩
      rw [← List.append_assoc]
      exact ⟨List.append_ne_nil_of_left_ne_nil hrest more, Or.inr hmade⟩
    · refine ⟨rest ++ more, mem_entriesBelow_iff.mpr ?_,
        List.prefix_append rest more⟩
      rw [← List.append_assoc, isSome_find?_iff]
      exact ⟨List.append_ne_nil_of_left_ne_nil hrest more,
        Or.inl ⟨file, hfile, hmore.symm⟩⟩
  · rintro ⟨more, hmore, hstarts⟩
    have hprefix : directory ++ rest <+: directory ++ more :=
      (List.prefix_append_right_inj directory).mpr hstarts
    rw [isEntry_iff]
    rcases (mem_entriesBelow_iff.mp hmore).2 with hfile | hmade
    · obtain ⟨file, hfile, heq⟩ := (isSome_find?_iff _ _).mp hfile
      exact Or.inr ⟨file, hfile, heq ▸ hprefix⟩
    · exact Or.inl ⟨_, hmade, hprefix⟩

theorem mem_sortNames {list : List (List Text)} :
    names ∈ sortNames list ↔ names ∈ list :=
  (List.mergeSort_perm list _).mem_iff

/-- Sorted names ascend. -/
theorem pairwise_sortNames (list : List (List Text)) :
    (sortNames list).Pairwise fun a b => ¬ b < a := by
  have hle : ∀ a b : List Text, (!decide (b < a)) = true ↔ List.le a b := by
    intro a b
    rw [Bool.not_eq_true', decide_eq_false_iff_not, List.le]
  refine (List.pairwise_mergeSort ?_ ?_ list).imp fun {a b} hab =>
    (hle a b).mp hab
  · intro a b c hab hbc
    rw [hle] at hab hbc ⊢
    exact List.le_trans hab hbc
  · intro a b
    rw [Bool.or_eq_true, hle, hle]
    exact List.le_total a b

/-- A path that keeps a directory from being listed is one of something below
it. -/
theorem overlong?_eq_some {entry : Path}
    (hpath : exceeds pathLimit path.toText = false)
    (h : tree.overlong? path directory = some entry) :
    ∃ rest, rest ≠ [] ∧ tree.IsEntry (directory ++ rest) ∧
      entry = path.below rest ∧ exceeds pathLimit entry.toText = true := by
  obtain ⟨names, hnames, hfind⟩ := List.exists_of_findSome?_eq_some h
  have hexceeds := List.find?_some hfind
  obtain ⟨hroot, hprefix⟩ : entry.root = path.root ∧
      entry.names <+: path.names ++ names :=
    Path.mem_stages_iff.mp (List.mem_of_find?_eq_some hfind)
  -- The path of the directory, and what it leads through, is short enough.
  have hnot : ¬ entry.names <+: path.names := by
    intro hstarts
    rw [Path.not_exceeds_of_prefix hroot hstarts hpath] at hexceeds
    cases hexceeds
  rcases List.prefix_or_prefix_of_prefix hprefix
    (List.prefix_append path.names names) with
    hstarts | ⟨rest, hrest⟩
  · exact absurd hstarts hnot
  · have hne : rest ≠ [] := by
      rintro rfl
      rw [List.append_nil] at hrest
      exact hnot (hrest ▸ List.prefix_rfl)
    have hbelow : rest <+: names := by
      have happend : path.names ++ rest <+: path.names ++ names :=
        hrest ▸ hprefix
      exact (List.prefix_append_right_inj path.names).mp happend
    refine ⟨rest, hne,
      (isEntry_append_iff hne).mpr ⟨names, mem_sortNames.mp hnames, hbelow⟩,
      ?_, hexceeds⟩
    obtain ⟨root, own⟩ := entry
    obtain rfl : root = path.root := hroot
    obtain rfl : path.names ++ rest = own := hrest
    rfl

/-- If no path keeps a directory from being listed, none below it is too
long. -/
theorem overlong?_eq_none (h : tree.overlong? path directory = none)
    (hrest : rest ≠ []) (hentry : tree.IsEntry (directory ++ rest)) :
    exceeds pathLimit (path.below rest).toText = false := by
  obtain ⟨names, hnames, hprefix⟩ := (isEntry_append_iff hrest).mp hentry
  have hnone := List.findSome?_eq_none_iff.mp h names (mem_sortNames.mpr hnames)
  have hstage : path.below rest ∈ (path.below names).stages :=
    Path.mem_stages_iff.mpr
      ⟨rfl, (List.prefix_append_right_inj path.names).mpr hprefix⟩
  exact Bool.eq_false_iff.mpr (List.find?_eq_none.mp hnone _ hstage)

end FileTree

end OklchGate
