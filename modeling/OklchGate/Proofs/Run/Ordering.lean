import OklchGate.Proofs.Files.Path
import OklchGate.Proofs.Run.Writing

/-!
# The order of the files in a run

The files of a run can be listed in any order.  Only a backup can be put where
another listed file is, or the backup of one.

There are four groups.

* Running through files: `forEach_cons`, one step at a time.
* `collectFiles_of_distinct`: files that are listed once are collected as they
  are listed.
* `Session.Reached`, what a tree holds after some files were processed in any
  order, and `reached_forEach`, by induction on the files.
* `run_perm` for two orders, and `run_order_matters` for a directory that has
  the name of a backup.
-/

namespace OklchGate

/-! ## Running through files -/

section Running

variable {α β : Type} {act : FileTree → α → Step β} {tree : FileTree} {item : α}
  {value : β}

theorem Step.forEach_cons (h : (act tree item).result = .ok value)
    (rest : List α) :
    (forEach act tree (item :: rest)).result =
        (forEach act (act tree item).tree rest).result.map (value :: ·) ∧
      (forEach act tree (item :: rest)).tree =
        (forEach act (act tree item).tree rest).tree := by
  rw [forEach, andThen, h]
  exact ⟨rfl, rfl⟩

theorem Step.forEach_cons_error {error : FileError}
    (h : (act tree item).result = .error error) (rest : List α) :
    (forEach act tree (item :: rest)).result = .error error := by
  rw [forEach, andThen, h]

end Running

namespace Session

variable {session : Session} {tree : FileTree}

theorem result_processAloud (session : Session) (tree : FileTree)
    (path : Path) :
    (session.processAloud tree path).result =
      (session.process tree path).result := by
  unfold processAloud Step.andThen
  cases (session.process tree path).result <;> rfl

theorem tree_processAloud (session : Session) (tree : FileTree) (path : Path) :
    (session.processAloud tree path).tree =
      (session.process tree path).tree := by
  unfold processAloud Step.andThen
  cases (session.process tree path).result <;> rfl

/-- A run over files that are collected. -/
theorem run_of_collectFiles (session : Session) {paths files : List Path}
    (h : collectFiles tree session.config paths = .ok files) :
    (session.run tree paths).result =
        (Step.forEach session.processAloud tree files).result.map
          (⟨·, session.options.dryRun⟩) ∧
      (session.run tree paths).tree =
        (Step.forEach session.processAloud tree files).tree := by
  unfold run
  rw [h]
  exact ⟨rfl, rfl⟩

theorem run_of_collectFiles_error (session : Session) {paths : List Path}
    {error : FileError}
    (h : collectFiles tree session.config paths = .error error) :
    (session.run tree paths).result = .error error := by
  unfold run
  rw [h]

end Session

/-! ## Files that are listed once -/

/-- Each path leads to a file, and no two lead to the same one. -/
structure FileTree.DistinctFiles (tree : FileTree) (paths : List Path) :
    Prop where
  files : ∀ path ∈ paths, ∃ content, tree.read path = .ok content
  distinct : paths.Pairwise fun a b => tree.resolve a ≠ tree.resolve b

/-- Files are distinct if they can be read and their paths lead to different
places. -/
theorem FileTree.distinctFiles_of_resolve {tree : FileTree} {paths : List Path}
    (hfiles : ∀ path ∈ paths, (tree.read path).isOk = true)
    (hdistinct : paths.Pairwise fun a b => (tree.resolve a).toOption ≠
      (tree.resolve b).toOption) :
    tree.DistinctFiles paths where
  files := fun path hpath => Css.exists_of_isOk (hfiles path hpath)
  distinct := hdistinct.imp fun hne heq => hne (by rw [heq])

theorem withoutRepeats_eq_self {paths : List Path}
    (h : paths.Pairwise fun a b => a.toText ≠ b.toText) :
    withoutRepeats paths = paths := by
  have hfold : ∀ (rest kept : List Path),
    (∀ a ∈ kept, ∀ b ∈ rest, a.toText ≠ b.toText) →
      rest.Pairwise (fun a b => a.toText ≠ b.toText) →
      rest.foldl (fun (kept : List Path) path =>
        if kept.any fun other => other.toText = path.toText then kept
        else path :: kept) kept = rest.reverse ++ kept := by
    intro rest
    induction rest with
    | nil => exact fun _ _ _ => rfl
    | cons path rest ih =>
      intro kept hkept hpairwise
      rw [List.pairwise_cons] at hpairwise
      have hnew : (kept.any fun other => other.toText = path.toText) =
          false := by
        rw [List.any_eq_false]
        intro other hother
        simpa using hkept other hother path List.mem_cons_self
      rw [List.foldl_cons, hnew, if_neg Bool.false_ne_true, ih,
        List.reverse_cons, List.append_assoc, List.singleton_append]
      · rw [List.forall_mem_cons]
        exact ⟨hpairwise.1, fun a ha b hb =>
          hkept a ha b (List.mem_cons_of_mem path hb)⟩
      · exact hpairwise.2
  rw [withoutRepeats, hfold paths [] (by simp) h, List.append_nil,
    List.reverse_reverse]

/-- Files that are listed once are collected as they are listed. -/
theorem collectFiles_of_distinct {tree : FileTree} (hwell : tree.WellFormed)
    {paths : List Path} (hplain : ∀ path ∈ paths, path.Plain)
    (hfiles : tree.DistinctFiles paths) (config : Config) :
    collectFiles tree config paths = .ok paths := by
  have hexpand : ∀ path ∈ paths, expand tree config path = .ok [path] := by
    intro path hpath
    obtain ⟨content, hread⟩ := hfiles.files path hpath
    obtain ⟨names, hplace, _⟩ := FileTree.IsPlace.of_read hwell hread
    rw [expand, hplace.resolve]
    dsimp only
    rw [hplace.file]
    rfl
  have hmap : paths.mapM (expand tree config) = .ok
      (paths.map fun path => [path]) := by
    clear hplain hfiles
    induction paths with
    | nil => rfl
    | cons path rest ih =>
      rw [List.forall_mem_cons] at hexpand
      rw [List.mapM_cons, hexpand.1, ih hexpand.2]
      rfl
  have htexts : paths.Pairwise fun a b => a.toText ≠ b.toText := by
    refine hfiles.distinct.imp_of_mem fun {a b} ha hb hne htext => hne ?_
    rw [(hplain a ha).eq_of_toText (hplain b hb) htext]
  unfold collectFiles
  rw [hmap]
  show Except.ok (withoutRepeats (paths.map fun path => [path]).flatten) = _
  rw [← List.flatMap_def, List.flatMap_singleton',
    withoutRepeats_eq_self htexts]

/-! ## Processing files in any order -/

namespace Session

variable {session : Session} {tree after : FileTree} {path : Path}
  {done rest : List Path}

/-- The report on a file, if it is processed before all others. -/
def reportAlone (session : Session) (tree : FileTree) (path : Path) :
    FileReport :=
  (session.process tree path).result.toOption.getD { path }

/-- What is stored for one file is neither what is read for the other nor what
is stored for it. -/
def Apart (session : Session) (tree : FileTree) (a b : Path) : Prop :=
  ∀ names content, session.Stores tree a names content →
    ((session.config.kindOf? b).isSome = true → tree.resolve b ≠ .ok names) ∧
      ∀ other, ¬ session.Stores tree b names other

/-- Everything that is stored for the processed files is there, and all else is
as it was. -/
structure Reached (session : Session) (tree : FileTree) (done : List Path)
    (after : FileTree) :
    Prop where
  directories : tree.SameDirectories after
  stored : ∀ path ∈ done, ∀ names content,
    session.Stores tree path names content → after.find? names = some content
  others : ∀ names,
    (∀ path ∈ done, ∀ content, ¬ session.Stores tree path names content) →
    after.find? names = tree.find? names

theorem Reached.refl (session : Session) (tree : FileTree) :
    session.Reached tree [] tree where
  directories := .refl tree
  stored := nofun
  others := fun _ _ => rfl

/-- One more file. -/
theorem Reached.concat {last : FileTree} (h : session.Reached tree done after)
    (hholds : session.Holds tree path after last)
    (hapart : ∀ other ∈ done, session.Apart tree other path) :
    session.Reached tree (done ++ [path]) last where
  directories := h.directories.trans hholds.directories
  stored := by
    intro other hother names content hstores
    rcases List.mem_append.mp hother with hdone | hlast
    · rw [hholds.others names (hapart other hdone names content hstores).2]
      exact h.stored other hdone names content hstores
    · obtain rfl := List.mem_singleton.mp hlast
      exact hholds.stored names content hstores
  others := by
    intro names hnames
    rw [List.forall_mem_append, List.forall_mem_singleton] at hnames
    rw [hholds.others names hnames.2, h.others names hnames.1]

/-- Files that stay apart get the reports that they get alone, whatever was
processed before. -/
theorem reached_forEach (hfiles : ∀ path ∈ rest, ∃ names content,
      tree.IsPlace path names ∧ tree.find? names = some content)
    (hapart : (done ++ rest).Pairwise (session.Apart tree))
    (h : session.Reached tree done after) :
    (Step.forEach session.processAloud after rest).result =
        .ok (rest.map (session.reportAlone tree)) ∧
      session.Reached tree (done ++ rest)
        (Step.forEach session.processAloud after rest).tree := by
  induction rest generalizing done after with
  | nil =>
    rw [List.append_nil]
    exact ⟨rfl, h⟩
  | cons path rest ih =>
    rw [List.forall_mem_cons] at hfiles
    obtain ⟨⟨names, content, hplace, hfound⟩, hfiles⟩ := hfiles
    have hbefore : ∀ other ∈ done, session.Apart tree other path := by
      intro other hother
      exact (List.pairwise_append.mp hapart).2.2 other hother path
        List.mem_cons_self
    have hsame : (session.config.kindOf? path).isSome = true →
        after.find? names = some content := by
      intro hkind
      rw [h.others names, hfound]
      intro other hother stored hstores
      exact (hbefore other hother names stored hstores).1 hkind hplace.resolve
    obtain ⟨report, hreport, hresult, hholds⟩ :=
      process_robust session hplace hfound h.directories hsame
    rw [← result_processAloud] at hresult
    rw [← tree_processAloud] at hholds
    have halone : session.reportAlone tree path = report := by
      rw [reportAlone, hreport]
      rfl
    obtain ⟨hfirst, htree⟩ := Step.forEach_cons hresult rest
    rw [List.append_cons] at hapart
    obtain ⟨hothers, hreached⟩ := ih hfiles hapart (h.concat hholds hbefore)
    rw [hfirst, htree, hothers, List.map_cons, halone, List.append_cons]
    exact ⟨rfl, hreached⟩

/-- Processing a file puts its old content under these names, as a backup. -/
structure BacksUp (session : Session) (tree : FileTree) (path : Path)
    (names : List Text) :
    Prop where
  keeps : session.options.backup = true
  rewrites : ∃ own old new, session.Rewrites tree path own old new
  place : tree.IsPlace (tree.copyTarget path path.backup) names

/-- No backup of a listed file is put where another listed file of a known kind
is, or its backup. -/
structure BackupsApart (session : Session) (tree : FileTree)
    (paths : List Path) :
    Prop where
  files : ∀ a ∈ paths, ∀ b ∈ paths, a ≠ b → ∀ names,
    session.BacksUp tree a names →
    (session.config.kindOf? b).isSome = true → tree.resolve b ≠ .ok names
  backups : ∀ a ∈ paths, ∀ b ∈ paths, a ≠ b → ∀ names,
    session.BacksUp tree a names → ¬ session.BacksUp tree b names

/-- What is stored is the file or its backup. -/
theorem Stores.cases {names : List Text} {content : Bytes}
    (h : session.Stores tree path names content) :
    (session.config.kindOf? path).isSome = true ∧
      (tree.resolve path = .ok names ∨ session.BacksUp tree path names) := by
  rcases h with ⟨hrewrites, _⟩ | ⟨hrewrites, hkeeps, hplace⟩
  · exact ⟨isSome_kindOf? hrewrites.output, Or.inl hrewrites.place.resolve⟩
  · exact ⟨isSome_kindOf? hrewrites.output,
      Or.inr ⟨hkeeps, ⟨_, _, _, hrewrites⟩, hplace⟩⟩

theorem apart_of_backupsApart {paths : List Path}
    (h : session.BackupsApart tree paths) {a b : Path} (ha : a ∈ paths)
    (hb : b ∈ paths) (hne : tree.resolve a ≠ tree.resolve b) :
    session.Apart tree a b := by
  have hpaths : a ≠ b := fun heq => hne (heq ▸ rfl)
  intro names content hstores
  obtain ⟨hkind, hown | hbackup⟩ := hstores.cases
  · refine ⟨fun _ hother => hne (hown.trans hother.symm),
      fun other hother => ?_⟩
    obtain ⟨_, hownOther | hbackupOther⟩ := hother.cases
    · exact hne (hown.trans hownOther.symm)
    · exact h.files b hb a ha hpaths.symm names hbackupOther hkind hown
  · refine ⟨h.files a ha b hb hpaths names hbackup, fun other hother => ?_⟩
    obtain ⟨hkindOther, hownOther | hbackupOther⟩ := hother.cases
    · exact h.files a ha b hb hpaths names hbackup hkindOther hownOther
    · exact h.backups a ha b hb hpaths names hbackup hbackupOther

/-! ## Two orders -/

/-- A run over files that are listed once gives each of them the report that it
gets alone, and stores what is stored for each of them alone. -/
theorem run_of_distinct (hwell : tree.WellFormed) {paths : List Path}
    (hplain : ∀ path ∈ paths, path.Plain) (hfiles : tree.DistinctFiles paths)
    (hapart : session.BackupsApart tree paths) :
    (session.run tree paths).result =
        .ok ⟨paths.map (session.reportAlone tree), session.options.dryRun⟩ ∧
      session.Reached tree paths (session.run tree paths).tree := by
  obtain ⟨hresult, htree⟩ :=
    run_of_collectFiles session
      (collectFiles_of_distinct hwell hplain hfiles session.config)
  have hplaces : ∀ path ∈ paths, ∃ names content,
      tree.IsPlace path names ∧ tree.find? names = some content := by
    intro path hpath
    obtain ⟨content, hread⟩ := hfiles.files path hpath
    obtain ⟨names, hplace, hfound⟩ := FileTree.IsPlace.of_read hwell hread
    exact ⟨names, content, hplace, hfound⟩
  have hpairwise : ([] ++ paths).Pairwise (session.Apart tree) :=
    hfiles.distinct.imp_of_mem fun ha hb hne =>
      apart_of_backupsApart hapart ha hb hne
  obtain ⟨hreports, hreached⟩ :=
    reached_forEach hplaces hpairwise (.refl session tree)
  rw [hresult, htree, hreports]
  exact ⟨rfl, hreached⟩

/-- What a tree holds after some files were processed does not depend on their
order. -/
theorem Reached.find?_eq {others : List Path} {last : FileTree}
    (h : session.Reached tree done after)
    (hother : session.Reached tree others last)
    (hmem : ∀ path, path ∈ done ↔ path ∈ others) (names : List Text) :
    after.find? names = last.find? names := by
  by_cases hstored : ∃ path ∈ done, ∃ content,
    session.Stores tree path names content
  · obtain ⟨path, hpath, content, hstores⟩ := hstored
    rw [h.stored path hpath names content hstores,
      hother.stored path ((hmem path).mp hpath) names content hstores]
  · have hnot : ∀ path ∈ done, ∀ content,
        ¬ session.Stores tree path names content :=
      fun path hpath content hstores => hstored ⟨path, hpath, content, hstores⟩
    rw [h.others names hnot, hother.others names fun path hpath =>
      hnot path ((hmem path).mpr hpath)]

/-- Two runs over the same files in different orders give each file the same
report, the one that it gets alone, and leave the same in every file; unless a
backup is put where another listed file is, or its backup. -/
theorem run_perm (session : Session) {tree : FileTree} (hwell : tree.WellFormed)
    {texts others : List Text} (hperm : texts.Perm others)
    (hfiles : tree.DistinctFiles (texts.map Path.ofText))
    (hapart : session.BackupsApart tree (texts.map Path.ofText)) :
    (∀ text ∈ texts, (session.process tree (Path.ofText text)).result =
        .ok (session.reportAlone tree (Path.ofText text))) ∧
      (session.run tree (texts.map Path.ofText)).result =
        .ok ⟨texts.map fun text => session.reportAlone tree (Path.ofText text),
          session.options.dryRun⟩ ∧
      (session.run tree (others.map Path.ofText)).result =
        .ok ⟨others.map fun text => session.reportAlone tree (Path.ofText text),
          session.options.dryRun⟩ ∧
      (∀ names, (session.run tree (texts.map Path.ofText)).tree.find? names =
        (session.run tree (others.map Path.ofText)).tree.find? names) ∧
      (session.run tree (texts.map Path.ofText)).tree.SameDirectories
        (session.run tree (others.map Path.ofText)).tree := by
  have hpaths := hperm.map Path.ofText
  have hplain : ∀ paths : List Text, ∀ path ∈ paths.map Path.ofText,
      path.Plain :=
    fun paths => List.forall_mem_map.mpr fun text _ => Path.plain_ofText text
  have hfilesOther : tree.DistinctFiles (others.map Path.ofText) :=
    ⟨fun path hpath => hfiles.files path (hpaths.mem_iff.mpr hpath),
      (hpaths.pairwise_iff fun hne => hne.symm).mp hfiles.distinct⟩
  have hapartOther : session.BackupsApart tree (others.map Path.ofText) :=
    ⟨fun a ha b hb => hapart.files a (hpaths.mem_iff.mpr ha) b
      (hpaths.mem_iff.mpr hb),
      fun a ha b hb => hapart.backups a (hpaths.mem_iff.mpr ha) b
        (hpaths.mem_iff.mpr hb)⟩
  obtain ⟨hresult, hreached⟩ :=
    run_of_distinct hwell (hplain texts) hfiles hapart
  obtain ⟨hresultOther, hreachedOther⟩ :=
    run_of_distinct hwell (hplain others) hfilesOther hapartOther
  rw [List.map_map] at hresult hresultOther
  refine ⟨fun text htext => ?_, hresult, hresultOther,
    hreached.find?_eq hreachedOther fun path => hpaths.mem_iff,
    hreached.directories.symm.trans hreachedOther.directories⟩
  obtain ⟨content, hread⟩ := hfiles.files _ (List.mem_map_of_mem htext)
  obtain ⟨names, hplace, hfound⟩ := FileTree.IsPlace.of_read hwell hread
  obtain ⟨report, hreport, _⟩ :=
    process_robust session hplace hfound (.refl tree) fun _ => hfound
  rw [reportAlone, hreport]
  rfl

/-- No backup is written in a dry run, or where none is asked for. -/
theorem backupsApart_of_none
    (h : session.options.backup = true → session.options.dryRun = true)
    (paths : List Path) : session.BackupsApart tree paths := by
  have hnone : ∀ path names, ¬ session.BacksUp tree path names := by
    rintro path names ⟨hkeeps, ⟨_, _, _, hrewrites⟩, _⟩
    have hdry := h hkeeps
    rw [hrewrites.real] at hdry
    cases hdry
  exact ⟨fun a _ _ _ _ names hbackup => absurd hbackup (hnone a names),
    fun a _ _ _ _ names hbackup => absurd hbackup (hnone a names)⟩

/-- Backups stay apart if the paths that they are copied to lead to different
places than the other files and their backups do. -/
theorem backupsApart_of_resolve {paths : List Path}
    (h : ∀ a ∈ paths, ∀ b ∈ paths, a ≠ b →
      (tree.resolve (tree.copyTarget a a.backup)).toOption ≠
      (tree.resolve b).toOption ∧
      (tree.resolve (tree.copyTarget a a.backup)).toOption ≠
      (tree.resolve (tree.copyTarget b b.backup)).toOption) :
    session.BackupsApart tree paths where
  files := by
    intro a ha b hb hne names hbackup _ hfile
    refine (h a ha b hb hne).1 ?_
    rw [hbackup.place.resolve, hfile]
  backups := by
    intro a ha b hb hne names hbackup hother
    refine (h a ha b hb hne).2 ?_
    rw [hbackup.place.resolve, hother.place.resolve]

/-- A tree with a mapping literal, an older backup of it and a style sheet that
is no text. -/
def brokenTree : FileTree :=
  { files := [(["a.ts".toList], Utf8.encode "'x': '#fff'".toList),
      (["a.ts.bak".toList], []), (["b.css".toList], [0xff])] }

/-- A file that is converted, with a backup, and one that fails. -/
theorem run_perm_broken :
    brokenTree.WellFormed ∧ ["a.ts".toList,
      "b.css".toList].Perm ["b.css".toList, "a.ts".toList] ∧
      brokenTree.DistinctFiles (["a.ts".toList,
        "b.css".toList].map Path.ofText) ∧
      backupSession.BackupsApart brokenTree (["a.ts".toList,
        "b.css".toList].map Path.ofText) ∧
      ∀ names,
        (backupSession.run brokenTree (["a.ts".toList, "b.css".toList].map
          Path.ofText)).tree.find? names =
        (backupSession.run brokenTree (["b.css".toList, "a.ts".toList].map
          Path.ofText)).tree.find? names := by
  have hwell : brokenTree.WellFormed := FileTree.wellFormed_of_files (by decide)
  have hperm : ["a.ts".toList,
      "b.css".toList].Perm ["b.css".toList, "a.ts".toList] :=
    .swap _ _ _
  have hfiles : brokenTree.DistinctFiles (["a.ts".toList,
      "b.css".toList].map Path.ofText) :=
    FileTree.distinctFiles_of_resolve (by decide +kernel) (by decide +kernel)
  have hapart : backupSession.BackupsApart brokenTree
      (["a.ts".toList, "b.css".toList].map Path.ofText) :=
    backupsApart_of_resolve (by decide +kernel)
  exact ⟨hwell, hperm, hfiles, hapart,
    (run_perm backupSession hwell hperm hfiles hapart).2.2.2.1⟩

/-- Two files, and the second one lies in a directory that has the name of the
backup of the first one. -/
def nestedTree : FileTree :=
  { files := [(["a.ts".toList], Utf8.encode "'x': '#fff'".toList),
      (["a.ts.bak".toList, "a.ts".toList], [])] }

/-- The second file is read before or after the backup of the first one is put
in its place. -/
theorem run_order_matters :
    nestedTree.WellFormed ∧
      ["a.ts".toList,
        "a.ts.bak/a.ts".toList].Perm ["a.ts.bak/a.ts".toList, "a.ts".toList] ∧
      nestedTree.DistinctFiles (["a.ts".toList,
        "a.ts.bak/a.ts".toList].map Path.ofText) ∧
      ∃ names,
        (backupSession.run nestedTree (["a.ts".toList,
          "a.ts.bak/a.ts".toList].map
          Path.ofText)).tree.find? names ≠
        (backupSession.run nestedTree (["a.ts.bak/a.ts".toList,
          "a.ts".toList].map
          Path.ofText)).tree.find? names := by
  exact ⟨FileTree.wellFormed_of_files (by decide), .swap _ _ _,
    FileTree.distinctFiles_of_resolve (by decide +kernel) (by decide +kernel),
    ["a.ts.bak".toList, "a.ts".toList], by decide +kernel⟩

end Session

end OklchGate
