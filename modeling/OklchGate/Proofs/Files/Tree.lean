import OklchGate.Files.Tree

/-!
# Files and directories of a tree

In a well-formed tree no file lies where a directory is.  Storing a file in a
directory of such a tree changes this file and nothing else: the directories
stay, and every path that leads somewhere leads there afterwards.

There are five groups.

* `WellFormed` and the directories of a tree: whatever a directory lies in is
  one.
* Storing.  `find?_put` looks a file up afterwards, and `isDirectory_put` says
  that the directories stay.
* `SameDirectories`: the same directories, and the same one to start from.
* Following a path.  `resolve_congr` says that only the directories count,
  `exists_parent` finds the directory that a file lies in, and `resolve_backup`
  the place of its backup.
* Reading and writing, by the place that a path leads to (`IsPlace`).
-/

namespace OklchGate.FileTree

/-! ## Directories -/

/-- No file lies at the names of a directory. -/
def WellFormed (tree : FileTree) : Prop :=
  ∀ names, (tree.find? names).isSome = true → tree.isDirectory names = false

theorem isDirectory_iff (tree : FileTree) (names : List Text) :
    tree.isDirectory names = true ↔
      (∃ directory ∈ tree.working :: tree.directories, names <+: directory) ∨
        ∃ file ∈ tree.files, names <+: file.1 ∧ names ≠ file.1 := by
  rw [isDirectory, Bool.or_eq_true, List.any_eq_true, List.any_eq_true]
  simp only [List.isPrefixOf_iff_prefix, Bool.and_eq_true, decide_eq_true_iff]

/-- What a directory lies in is a directory. -/
theorem isDirectory_of_above {tree : FileTree} {a b : List Text}
    (hstarts : a <+: b) (h : tree.isDirectory b = true) :
    tree.isDirectory a = true := by
  rw [isDirectory_iff] at h ⊢
  rcases h with ⟨directory, hmem, hdirectory⟩ | ⟨file, hmem, hfile, hne⟩
  · exact Or.inl ⟨directory, hmem, hstarts.trans hdirectory⟩
  · refine Or.inr ⟨file, hmem, hstarts.trans hfile, ?_⟩
    intro heq
    subst heq
    exact hne (hfile.eq_of_length_le hstarts.length_le)

/-- The root is a directory of every tree. -/
theorem isDirectory_nil (tree : FileTree) : tree.isDirectory [] = true :=
  (isDirectory_iff tree []).mpr
    (Or.inl ⟨tree.working, List.mem_cons_self, List.nil_prefix⟩)

/-- A path starts at a directory. -/
theorem isDirectory_startOf (tree : FileTree) (path : Path) :
    tree.isDirectory (tree.startOf path) = true := by
  rw [startOf]
  split
  · exact (isDirectory_iff tree _).mpr
      (Or.inl ⟨_, List.mem_cons_self, List.prefix_rfl⟩)
  · exact isDirectory_nil tree

theorem prefix_dropLast {a b : List Text} (hstarts : a <+: b) (hne : a ≠ b) :
    a <+: b.dropLast := by
  obtain ⟨rest, rfl⟩ := hstarts
  have hrest : rest ≠ [] := by
    intro hnil
    rw [hnil, List.append_nil] at hne
    exact hne rfl
  rw [List.dropLast_append_of_ne_nil hrest]
  exact List.prefix_append a _

theorem isSome_find?_iff (tree : FileTree) (names : List Text) :
    (tree.find? names).isSome = true ↔ ∃ file ∈ tree.files, file.1 = names := by
  rw [find?, Option.isSome_map, List.find?_isSome]
  simp

theorem wellFormed_of_files {tree : FileTree}
    (h : ∀ file ∈ tree.files, tree.isDirectory file.1 = false) :
    tree.WellFormed := by
  intro names hnames
  obtain ⟨file, hfile, rfl⟩ := (isSome_find?_iff tree names).mp hnames
  exact h file hfile

/-! ## Storing -/

/-- Storing a file makes it the content under its names, and no other file
changes. -/
theorem find?_put (tree : FileTree) (names : List Text) (content : Bytes)
    (other : List Text) :
    (tree.put names content).find? other =
      if other = names then some content else tree.find? other := by
  rw [put]
  split
  · next hthere =>
    have hmap : ∀ files : List (List Text × Bytes),
        (files.map fun file => if file.1 = names then (names, content)
          else file).find? (fun file => file.1 = other) =
          (files.find? fun file => file.1 = other).map fun file =>
            if file.1 = names then (names, content) else file := by
      intro files
      rw [List.find?_map]
      congr 1
      congr 1
      funext file
      dsimp only [Function.comp]
      split
      · next heq => rw [heq]
      · rfl
    rw [find?, hmap, Option.map_map]
    split
    · next heq =>
      subst heq
      obtain ⟨file, hfile⟩ :=
        Option.isSome_iff_exists.mp (Option.isSome_map ▸ hthere)
      rw [hfile, Option.map_some, Function.comp,
        if_pos (by simpa using List.find?_some hfile)]
    · next hne =>
      rw [find?]
      cases hfound : tree.files.find? fun file => file.1 = other with
      | none => rfl
      | some file =>
        have hname : file.1 = other := by simpa using List.find?_some hfound
        rw [Option.map_some, Option.map_some, Function.comp,
          if_neg (hname ▸ hne)]
  · next hthere =>
    rw [Bool.not_eq_true, Option.isSome_eq_false_iff,
      Option.isNone_iff_eq_none] at hthere
    rw [find?, List.find?_append, Option.map_or]
    split
    · next heq =>
      subst heq
      rw [find?] at hthere
      rw [hthere]
      simp
    · next hne =>
      have hnot : decide (names = other) = false :=
        decide_eq_false (Ne.symm hne)
      rw [List.find?_cons, hnot, List.find?_nil, Option.map_none,
        Option.or_none, find?]

/-- Only the file that is stored can differ afterwards. -/
theorem eq_of_find?_put {tree : FileTree} {names other : List Text}
    {content : Bytes}
    (h : (tree.put names content).find? other ≠ tree.find? other) :
    other = names := by
  rw [find?_put] at h
  split at h
  · assumption
  · exact absurd rfl h

/-- A name is one of a file afterwards if it was one before, or is that of the
file. -/
theorem mem_files_put (tree : FileTree) (names : List Text) (content : Bytes)
    (other : List Text) :
    (∃ file ∈ (tree.put names content).files, file.1 = other) ↔
      other = names ∨ ∃ file ∈ tree.files, file.1 = other := by
  rw [← isSome_find?_iff, ← isSome_find?_iff, find?_put]
  by_cases heq : other = names
  · simp [heq]
  · simp [heq]

/-- Storing a file leaves the working directory alone. -/
@[simp] theorem working_put (tree : FileTree) (names : List Text)
    (content : Bytes) :
    (tree.put names content).working = tree.working := by
  rw [put]
  split <;> rfl

/-- Storing a file in a directory makes and removes no directory. -/
theorem isDirectory_put {tree : FileTree} {names : List Text}
    (h : tree.isDirectory names.dropLast = true) (content : Bytes)
    (other : List Text) :
    (tree.put names content).isDirectory other = tree.isDirectory other := by
  have hfiles := mem_files_put tree names content
  have hdirectories : (tree.put names content).directories =
      tree.directories := by
    rw [put]
    split <;> rfl
  rw [Bool.eq_iff_iff, isDirectory_iff, isDirectory_iff, hdirectories,
    working_put]
  constructor
  · rintro (hmade | ⟨file, hfile, hstarts, hne⟩)
    · exact Or.inl hmade
    · rcases (hfiles file.1).mp ⟨file, hfile, rfl⟩ with hown | ⟨old, hold, heq⟩
      · -- What the new file lies in is a directory already.
        rw [hown] at hstarts hne
        have habove := isDirectory_of_above (prefix_dropLast hstarts hne) h
        exact (isDirectory_iff tree other).mp habove
      · exact Or.inr ⟨old, hold, heq ▸ hstarts, heq ▸ hne⟩
  · rintro (hmade | ⟨file, hfile, hstarts, hne⟩)
    · exact Or.inl hmade
    · obtain ⟨new, hnew, heq⟩ := (hfiles file.1).mpr (Or.inr ⟨file, hfile, rfl⟩)
      exact Or.inr ⟨new, hnew, heq.symm ▸ hstarts, heq.symm ▸ hne⟩

/-- Storing a file in a directory, and not where a directory is, keeps a tree
well-formed. -/
theorem WellFormed.put {tree : FileTree} (hwell : tree.WellFormed)
    {names : List Text} (hfile : tree.isDirectory names = false)
    (hparent : tree.isDirectory names.dropLast = true) (content : Bytes) :
    (tree.put names content).WellFormed := by
  intro other hother
  rw [isDirectory_put hparent]
  rw [find?_put] at hother
  split at hother
  · next heq => rw [heq, hfile]
  · exact hwell other hother

/-! ## The same directories -/

/-- Two trees have the same directories, and paths start at the same one. -/
structure SameDirectories (tree after : FileTree) : Prop where
  working : after.working = tree.working
  directories (names : List Text) : after.isDirectory names =
    tree.isDirectory names

namespace SameDirectories

variable {tree after : FileTree}

theorem refl (tree : FileTree) : tree.SameDirectories tree :=
  ⟨rfl, fun _ => rfl⟩

theorem symm (h : tree.SameDirectories after) : after.SameDirectories tree :=
  ⟨h.working.symm, fun names => (h.directories names).symm⟩

theorem trans {last : FileTree} (h : tree.SameDirectories after)
    (hlast : after.SameDirectories last) : tree.SameDirectories last :=
  ⟨hlast.working.trans h.working,
    fun names => (hlast.directories names).trans (h.directories names)⟩

theorem startOf_eq (h : tree.SameDirectories after) (path : Path) :
    after.startOf path = tree.startOf path := by
  rw [startOf, startOf, h.working]

end SameDirectories

/-- Storing a file in a directory keeps the directories. -/
theorem sameDirectories_put {tree : FileTree} {names : List Text}
    (h : tree.isDirectory names.dropLast = true) (content : Bytes) :
    tree.SameDirectories (tree.put names content) :=
  ⟨working_put tree names content, isDirectory_put h content⟩

/-! ## Following a path -/

section

variable {tree after : FileTree} (hsame : tree.SameDirectories after)

include hsame

/-- A name leads to the same place in a tree with the same directories. -/
theorem enter_congr {names next : List Text} {name : Text}
    (h : tree.enter names name = .ok next) :
    after.enter names name = .ok next := by
  unfold enter at h ⊢
  rw [hsame.directories]
  split at h
  · next hdirectory =>
    rw [if_pos hdirectory]
    exact h
  · split at h <;> cases h

theorem foldlM_enter_congr {names start last : List Text}
    (h : names.foldlM tree.enter start = .ok last) :
    names.foldlM after.enter start = .ok last := by
  induction names generalizing start with
  | nil => exact h
  | cons name rest ih =>
    rw [List.foldlM_cons] at h ⊢
    cases hstep : tree.enter start name with
    | error cause =>
      rw [hstep] at h
      cases h
    | ok next =>
      rw [hstep] at h
      rw [enter_congr hsame hstep]
      exact ih h

/-- A path that leads somewhere leads there in a tree with the same
directories. -/
theorem resolve_congr {path : Path} {names : List Text}
    (h : tree.resolve path = .ok names) :
    after.resolve path = .ok names := by
  unfold resolve at h ⊢
  rw [hsame.startOf_eq]
  split at h
  · cases h
  · next hnull =>
    rw [if_neg hnull]
    split at h
    · cases h
    · next hlimit =>
      rw [if_neg hlimit]
      exact foldlM_enter_congr hsame h

end

/-- The last name of a path is entered from where the names before it lead
to. -/
theorem foldlM_enter_concat (tree : FileTree) (start names : List Text)
    (name : Text) :
    (names ++ [name]).foldlM tree.enter start =
      (names.foldlM tree.enter start).bind fun parent =>
        tree.enter parent name := by
  rw [List.foldlM_append]
  cases names.foldlM tree.enter start with
  | error cause => rfl
  | ok parent =>
    show ([name].foldlM tree.enter parent :
      Except FileError.Cause (List Text)) = tree.enter parent name
    rw [List.foldlM_cons]
    cases tree.enter parent name <;> rfl

/-- A path that leads somewhere leads there by its names. -/
theorem foldlM_of_resolve {tree : FileTree} {path : Path} {names : List Text}
    (h : tree.resolve path = .ok names) :
    path.names.foldlM tree.enter (tree.startOf path) = .ok names := by
  unfold resolve at h
  split at h
  · cases h
  · split at h
    · cases h
    · exact h

/-- A name leads from a directory to what lies in it, or to a directory that the
first one lies in. -/
theorem enter_eq_ok {tree : FileTree} {parent names : List Text} {name : Text}
    (h : tree.enter parent name = .ok names) :
    tree.isDirectory parent = true ∧
      (names = parent ++ [name] ∨ names = parent.dropLast) := by
  unfold enter at h
  split at h
  · next hparent =>
    refine ⟨hparent, ?_⟩
    split at h
    · cases h
    · split at h
      · cases h
        exact Or.inr rfl
      · cases h
        exact Or.inl rfl
  · split at h <;> cases h

/-- A path that leads to no directory ends in the name of a file, and the names
before it lead to the directory of this file. -/
theorem exists_parent {tree : FileTree} {path : Path} {names : List Text}
    (h : tree.resolve path = .ok names)
    (hfile : tree.isDirectory names = false) :
    ∃ parent, names = parent ++ [path.name] ∧ tree.isDirectory parent = true ∧
      path.names.dropLast.foldlM tree.enter (tree.startOf path) = .ok
        parent := by
  have hfold := foldlM_of_resolve h
  rw [Path.name]
  rcases List.eq_nil_or_concat path.names with hnil | ⟨front, name, hconcat⟩
  · rw [hnil] at hfold
    cases hfold
    rw [isDirectory_startOf] at hfile
    cases hfile
  · rw [hconcat, List.concat_eq_append] at hfold ⊢
    rw [foldlM_enter_concat] at hfold
    rw [List.dropLast_concat, List.getLastD_concat]
    cases hfront : front.foldlM tree.enter (tree.startOf path) with
    | error cause =>
      rw [hfront] at hfold
      cases hfold
    | ok parent =>
      rw [hfront] at hfold
      replace hfold : tree.enter parent name = .ok names := hfold
      obtain ⟨hparent, rfl | rfl⟩ := enter_eq_ok hfold
      · exact ⟨parent, rfl, hparent, rfl⟩
      · -- Two dots lead to a directory.
        rw [isDirectory_of_above (List.dropLast_prefix parent) hparent] at hfile
        cases hfile

/-- The backup of a file lies beside it, if its path leads anywhere. -/
theorem resolve_backup {tree : FileTree} {path : Path} {names : List Text}
    (h : tree.resolve path = .ok names)
    (hfile : tree.isDirectory names = false) :
    (∃ cause, tree.resolve path.backup = .error cause) ∨
      tree.resolve path.backup = .ok
        (names.dropLast ++ [path.name ++ ".bak".toList]) := by
  obtain ⟨parent, rfl, hparent, hfold⟩ := exists_parent h hfile
  rw [List.dropLast_concat]
  unfold resolve
  split
  · exact Or.inl ⟨_, rfl⟩
  · split
    · exact Or.inl ⟨_, rfl⟩
    · show (∃ cause,
        (path.names.dropLast ++ [path.name ++ ".bak".toList]).foldlM tree.enter
          (tree.startOf path) = .error cause) ∨
        (path.names.dropLast ++ [path.name ++ ".bak".toList]).foldlM tree.enter
          (tree.startOf path) = _
      rw [foldlM_enter_concat, hfold]
      show (∃ cause, tree.enter parent _ = .error cause) ∨
        tree.enter parent _ = _
      have hdots : path.name ++ ".bak".toList ≠ ['.', '.'] := by
        intro heq
        have hlength := congrArg List.length heq
        simp at hlength
      rw [enter, if_pos hparent]
      by_cases hlong : exceeds nameLimit (path.name ++ ".bak".toList) = true
      · rw [if_pos hlong]
        exact Or.inl ⟨_, rfl⟩
      · rw [if_neg hlong, if_neg hdots]
        exact Or.inr rfl

theorem enter_ne_null (tree : FileTree) (names : List Text) (name : Text) :
    tree.enter names name ≠ .error .nullCharacter := by
  intro h
  unfold enter at h
  repeat' split at h
  all_goals cases h

/-- A null character is to blame only if the path holds one. -/
theorem null_of_resolve {tree : FileTree} {path : Path}
    (h : tree.resolve path = .error .nullCharacter) :
    path.toText.contains '\x00' = true := by
  have hfold : ∀ names start : List Text,
      names.foldlM tree.enter start ≠ .error .nullCharacter := by
    intro names
    induction names with
    | nil => exact fun _ => nofun
    | cons name rest ih =>
      intro start hcons
      rw [List.foldlM_cons] at hcons
      cases hstep : tree.enter start name with
      | error cause =>
        rw [hstep] at hcons
        cases hcons
        exact tree.enter_ne_null start name hstep
      | ok next =>
        rw [hstep] at hcons
        exact ih next hcons
  unfold resolve at h
  split at h
  · assumption
  · split at h
    · cases h
    · exact absurd h (hfold _ _)

/-! ## Reading and writing -/

/-- What is read is the content under the names that the path leads to. -/
theorem read_eq_ok_iff {tree : FileTree} {path : Path} {content : Bytes} :
    tree.read path = .ok content ↔
      ∃ names, tree.resolve path = .ok names ∧ tree.find? names =
        some content := by
  unfold read
  constructor
  · intro h
    split at h
    · cases h
    · next names hresolve =>
      split at h
      · next found hfound =>
        cases h
        exact ⟨names, hresolve, hfound⟩
      · split at h <;> cases h
  · rintro ⟨names, hresolve, hfound⟩
    rw [hresolve]
    dsimp only
    rw [hfound]

/-- So it is for a file that cannot be read. -/
theorem null_of_read {tree : FileTree} {path : Path} {error : FileError}
    (h : tree.read path = .error error)
    (hcause : error.cause = .nullCharacter) :
    error = ⟨.nullCharacter, path⟩ ∧ path.toText.contains '\x00' = true := by
  unfold read at h
  split at h
  · next cause hresolve =>
    cases h
    obtain rfl : cause = .nullCharacter := hcause
    exact ⟨rfl, null_of_resolve hresolve⟩
  · split at h
    · cases h
    · split at h <;> cases h <;> cases hcause

/-- The place that a path leads to, if a file is there or may be put there. -/
structure IsPlace (tree : FileTree) (path : Path) (names : List Text) :
    Prop where
  resolve : tree.resolve path = .ok names
  file : tree.isDirectory names = false

namespace IsPlace

variable {tree : FileTree} {path : Path} {names : List Text}

theorem of_read (hwell : tree.WellFormed) {content : Bytes}
    (h : tree.read path = .ok content) :
    ∃ names, tree.IsPlace path names ∧ tree.find? names = some content := by
  obtain ⟨names, hresolve, hfound⟩ := read_eq_ok_iff.mp h
  exact ⟨names, ⟨hresolve, hwell names (by rw [hfound]; rfl)⟩, hfound⟩

theorem unique {other : List Text} (h : tree.IsPlace path names)
    (hother : tree.IsPlace path other) : other = names :=
  Except.ok.inj (hother.resolve.symm.trans h.resolve)

theorem parent (h : tree.IsPlace path names) :
    tree.isDirectory names.dropLast = true := by
  obtain ⟨parent, rfl, hparent, _⟩ := exists_parent h.resolve h.file
  rwa [List.dropLast_concat]

/-- The backup of a file does not lie where the file does. -/
theorem backup_ne (h : tree.IsPlace path names) :
    names.dropLast ++ [path.name ++ ".bak".toList] ≠ names := by
  obtain ⟨parent, rfl, _, _⟩ := exists_parent h.resolve h.file
  rw [List.dropLast_concat]
  intro heq
  have hname := List.append_cancel_left heq
  have hlength := congrArg List.length (List.singleton_inj.mp hname)
  rw [List.length_append] at hlength
  have hpos : 0 < ".bak".toList.length := by decide
  omega

/-- Writing stores the content at the place of the path. -/
theorem write_eq (h : tree.IsPlace path names) (content : Bytes) :
    tree.write path content = .ok (tree.put names content) := by
  rw [write, h.resolve]
  dsimp only
  rw [h.file]
  rfl

/-- Places stay places when a file is stored at one of them. -/
theorem put (h : tree.IsPlace path names) {other : Path}
    {otherNames : List Text} (hother : tree.IsPlace other otherNames)
    (content : Bytes) :
    (tree.put names content).IsPlace other otherNames where
  resolve := resolve_congr (sameDirectories_put h.parent content) hother.resolve
  file := by rw [isDirectory_put h.parent, hother.file]

end IsPlace

/-- A path that does not lead to a directory is in error or leads to a place. -/
theorem isPlace_of_leadsToDirectory {tree : FileTree} {path : Path}
    {names : List Text} (hdirectory : tree.leadsToDirectory path = false)
    (h : tree.resolve path = .ok names) : tree.IsPlace path names := by
  refine ⟨h, ?_⟩
  rw [leadsToDirectory, h] at hdirectory
  exact hdirectory

/-- A file that is read is copied to a path that leads to no directory by
writing its content there. -/
theorem copy_eq_write {tree : FileTree} {file target : Path} {content : Bytes}
    (hread : tree.read file = .ok content)
    (htarget : tree.leadsToDirectory target = false) :
    tree.copy file target = tree.write target content := by
  rw [copy, hread, copyTarget, htarget]
  rfl

end OklchGate.FileTree
