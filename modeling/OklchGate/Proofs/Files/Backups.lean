import OklchGate.Proofs.Files.Tree

/-!
# Trees with the same directories

Where a path leads to depends on the directories of a tree and, if it leads
nowhere, on what is in the way.  Nothing is in the way of a file or of its
backup: what they lie in is a directory.

There are two groups.

* What is the same in trees with the same directories: `resolve_eq_of_parent`
  and `write_cases`.
* Where a backup is put: `copyTarget_backup`.
-/

namespace OklchGate.FileTree

/-! ## The same directories -/

namespace SameDirectories

variable {tree after : FileTree} {path : Path} {names : List Text}

theorem put (h : tree.IsPlace path names) (content : Bytes) :
    tree.SameDirectories (tree.put names content) :=
  sameDirectories_put h.parent content

theorem isPlace (h : tree.SameDirectories after)
    (hplace : tree.IsPlace path names) :
    after.IsPlace path names where
  resolve := resolve_congr h hplace.resolve
  file := (h.directories names).trans hplace.file

/-- A path leads to a directory in both trees or in none. -/
theorem leadsToDirectory (h : tree.SameDirectories after) (path : Path) :
    after.leadsToDirectory path = tree.leadsToDirectory path := by
  unfold FileTree.leadsToDirectory
  cases hresolve : tree.resolve path with
  | ok names =>
    rw [resolve_congr h hresolve]
    exact h.directories names
  | error cause =>
    cases hafter : after.resolve path with
    | ok names =>
      rw [resolve_congr h.symm hafter] at hresolve
      cases hresolve
    | error other => rfl

theorem copyTarget (h : tree.SameDirectories after) (file target : Path) :
    after.copyTarget file target = tree.copyTarget file target := by
  rw [FileTree.copyTarget, FileTree.copyTarget, h.leadsToDirectory]

end SameDirectories

/-- What a path leads through before its last name is a directory of the
tree. -/
def HasParent (tree : FileTree) (path : Path) : Prop :=
  ∃ front name parent, path.names = front ++ [name] ∧
    tree.isDirectory parent = true ∧
    front.foldlM tree.enter (tree.startOf path) = .ok parent

theorem resolve_eq_of_parent {tree after : FileTree}
    (h : tree.SameDirectories after) {path : Path}
    (hparent : tree.HasParent path) :
    after.resolve path = tree.resolve path := by
  obtain ⟨front, name, parent, hnames, hdirectory, hfold⟩ := hparent
  have henter : after.enter parent name = tree.enter parent name := by
    rw [enter, enter, h.directories, if_pos hdirectory, if_pos hdirectory]
  have hlast : ∀ other : FileTree, tree.SameDirectories other →
      path.names.foldlM other.enter (tree.startOf path) =
        other.enter parent name := by
    intro other hother
    rw [hnames, foldlM_enter_concat, foldlM_enter_congr hother hfold]
    rfl
  rw [resolve, resolve, h.startOf_eq, hlast after h, henter,
    hlast tree (.refl tree)]

/-- What is written to a path is stored at the same place in both trees, or it
is not written for the same reason. -/
theorem write_cases {tree after : FileTree} (h : tree.SameDirectories after)
    {path : Path} (hparent : tree.HasParent path) :
    (∃ error, ∀ content, tree.write path content = .error error ∧
        after.write path content = .error error) ∨
      ∃ names, tree.IsPlace path names := by
  have hsame := resolve_eq_of_parent h hparent
  cases hresolve : tree.resolve path with
  | error cause =>
    left
    refine ⟨⟨cause, path⟩, fun content => ?_⟩
    rw [write, write, hsame, hresolve]
    exact ⟨rfl, rfl⟩
  | ok names =>
    cases hdirectory : tree.isDirectory names with
    | true =>
      left
      refine ⟨⟨.isDirectory, path⟩, fun content => ?_⟩
      rw [write, write, hsame, hresolve]
      dsimp only
      rw [h.directories, hdirectory]
      exact ⟨rfl, rfl⟩
    | false => exact Or.inr ⟨names, hresolve, hdirectory⟩

/-! ## Backups -/

/-- The copy that is kept of a file goes into a directory, and it is not put
where the file is. -/
theorem copyTarget_backup {tree : FileTree} {path : Path} {names : List Text}
    (h : tree.IsPlace path names) :
    tree.HasParent (tree.copyTarget path path.backup) ∧
      ¬ tree.IsPlace (tree.copyTarget path path.backup) names := by
  obtain ⟨parent, rfl, hparent, hfold⟩ := exists_parent h.resolve h.file
  have hlength : (path.name ++ ".bak".toList).length = path.name.length + 4 :=
    List.length_append
  unfold copyTarget
  by_cases hdirectory : tree.leadsToDirectory path.backup = true
  · -- A directory has the name of the backup, and the copy goes into it.
    have hresolve : tree.resolve path.backup =
        .ok (parent ++ [path.name ++ ".bak".toList]) := by
      rcases resolve_backup h.resolve h.file with ⟨cause, herror⟩ | hresolve
      · rw [leadsToDirectory, herror] at hdirectory
        cases hdirectory
      · rwa [List.dropLast_concat] at hresolve
    rw [leadsToDirectory, hresolve] at hdirectory
    rw [leadsToDirectory, hresolve, if_pos hdirectory]
    refine ⟨⟨path.backup.names, path.name, _, rfl, hdirectory,
      foldlM_of_resolve hresolve⟩, ?_⟩
    intro hplace
    have htarget : (path.backup.below [path.name]).names.foldlM tree.enter
        (tree.startOf path.backup) = .ok (parent ++ [path.name]) :=
      foldlM_of_resolve hplace.resolve
    rw [Path.below, foldlM_enter_concat, foldlM_of_resolve hresolve] at htarget
    -- A name leads one level down or not down at all.
    rcases (enter_eq_ok htarget).2 with heq | heq
    · simpa using congrArg List.length heq
    · simpa using congrArg List.length heq
  · rw [if_neg hdirectory]
    refine ⟨⟨_, _, parent, rfl, hparent, hfold⟩, fun hplace => ?_⟩
    obtain ⟨other, hother, _⟩ := exists_parent hplace.resolve hplace.file
    have hbackupName : path.backup.name = path.name ++ ".bak".toList := by
      rw [Path.backup, Path.name, List.getLastD_concat]
    have hname := (List.append_inj' hother rfl).2
    rw [hbackupName, List.cons.injEq] at hname
    have hlengths := congrArg List.length hname.1
    rw [hlength] at hlengths
    omega

end OklchGate.FileTree
