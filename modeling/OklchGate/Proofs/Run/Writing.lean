import OklchGate.Proofs.Files.Backups
import OklchGate.Proofs.Run.Processing

/-!
# What processing a file reads and writes

Processing reads one file.  Its report and what it writes are decided by the
content of this file and by the directories of the tree, and it writes this file
and its backup only.

There are three groups.

* A file by its content: `Session.output?` and `Session.tell`, and
  `process_of_content`, which says that processing depends on them.
* Saving: `save_plain` and `save_backup`.
* `Session.Stores`, what is written, and `process_robust`: in another tree with
  the same file and the same directories the same is told and written.
-/

namespace OklchGate

/-! ## A file by its content -/

theorem FileTree.readText_of_read {tree : FileTree} {path : Path}
    {content : Bytes} (h : tree.read path = .ok content) :
    tree.readText path = (Utf8.decode content).mapError .notUtf8 := by
  rw [readText, h]

namespace Session

/-- What a content leads to in a file of a kind, or the wording of an error. -/
def outcome (session : Session) (path : Path) (kind : Kind) (content : Bytes) :
    Except Text Converted :=
  match Utf8.decode content with
  | .error fault => .error fault.message
  | .ok source =>
    (Converted.ofSource session.convert session.config kind source).mapError
      (SourceError.message path)

/-- The bytes that a file with this content is rewritten to, if its text
changes. -/
def output? (session : Session) (path : Path) (content : Bytes) :
    Option Bytes :=
  (session.config.kindOf? path).bind fun kind =>
    match session.outcome path kind content with
    | .ok done =>
      if done.status = .converted then some (Utf8.encode done.output) else none
    | .error _ => none

/-- Processing a file with this content writes nothing. -/
def Quiet (session : Session) (path : Path) (content : Bytes) : Prop :=
  session.output? path content = none ∨ session.options.dryRun = true

/-- The report on a file with this content, before anything is written. -/
def tell (session : Session) (path : Path) (content : Bytes) : FileReport :=
  match session.config.kindOf? path with
  | none => { path, dryRun := session.options.dryRun, status := .skipped }
  | some kind =>
    match session.outcome path kind content with
    | .ok done => session.reportOn path kind done
    | .error message =>
      { path, kind := some kind, dryRun := session.options.dryRun,
        status := .error, error := some message }

@[simp] theorem path_tell (session : Session) (path : Path) (content : Bytes) :
    (session.tell path content).path = path := by
  unfold tell
  split
  · rfl
  · split <;> rfl

theorem isSome_kindOf? {session : Session} {path : Path} {content new : Bytes}
    (h : session.output? path content = some new) :
    (session.config.kindOf? path).isSome = true := by
  obtain ⟨kind, hkind, _⟩ := Option.bind_eq_some_iff.mp h
  rw [hkind]
  rfl

variable {session : Session} {tree : FileTree} {path : Path} {names : List Text}
  {content new : Bytes}

theorem not_quiet (houtput : session.output? path content = some new)
    (hreal : session.options.dryRun = false) :
    ¬ session.Quiet path content := by
  rintro (hnone | hdry)
  · rw [houtput] at hnone
    cases hnone
  · rw [hreal] at hdry
    cases hdry

/-- A file of a known kind is converted or not by its content, and what it is
converted to is saved unless the run is a dry run. -/
theorem process_of_content (hresolve : tree.resolve path = .ok names)
    (hfound : tree.find? names = some content) :
    (session.Quiet path content ∧
        (session.process tree path).result = .ok (session.tell path content) ∧
        (session.process tree path).tree = tree) ∨
      ∃ output, session.output? path content = some (Utf8.encode output) ∧
        session.options.dryRun = false ∧
        (session.process tree path).result =
          .ok (session.save tree (session.tell path content) output).1 ∧
        (session.process tree path).tree =
          (session.save tree (session.tell path content) output).2 := by
  have htext := FileTree.readText_of_read
    (FileTree.read_eq_ok_iff.mpr ⟨names, hresolve, hfound⟩)
  unfold Quiet output? tell
  cases hkind : session.config.kindOf? path with
  | none =>
    left
    unfold process
    rw [hkind]
    exact ⟨Or.inl rfl, rfl, rfl⟩
  | some kind =>
    rw [Option.bind_some]
    unfold outcome
    cases hdecode : Utf8.decode content with
    | error fault =>
      left
      rw [hdecode] at htext
      unfold process
      rw [hkind]
      dsimp only
      rw [htext]
      exact ⟨Or.inl rfl, rfl, rfl⟩
    | ok source =>
      rw [hdecode] at htext
      dsimp only
      cases hdone : Converted.ofSource session.convert session.config kind
        source with
      | error error =>
        left
        rw [process_of_error hkind htext hdone]
        exact ⟨Or.inl rfl, rfl, rfl⟩
      | ok done =>
        rw [process_of_ofSource hkind htext hdone]
        by_cases hsaves : done.status = .converted ∧
          session.options.dryRun = false
        · right
          rw [if_pos hsaves]
          exact ⟨done.output, if_pos hsaves.1, hsaves.2, rfl, rfl⟩
        · left
          rw [if_neg hsaves]
          refine ⟨?_, rfl, rfl⟩
          by_cases hstatus : done.status = .converted
          · exact Or.inr (by simpa using fun hdry => hsaves ⟨hstatus, hdry⟩)
          · exact Or.inl (if_neg hstatus)

theorem process_quiet (session : Session)
    (hresolve : tree.resolve path = .ok names)
    (hfound : tree.find? names = some content)
    (hquiet : session.Quiet path content) :
    (session.process tree path).result = .ok (session.tell path content) ∧
      (session.process tree path).tree = tree := by
  rcases process_of_content hresolve hfound with
    ⟨_, hprocess⟩ | ⟨output, houtput, hreal, _⟩
  · exact hprocess
  · exact absurd hquiet (not_quiet houtput hreal)

theorem save_congr {a b : Text} (h : Utf8.encode a = Utf8.encode b)
    (report : FileReport) :
    session.save tree report a = session.save tree report b := by
  unfold save FileTree.writeText
  rw [h]

theorem process_saving {text : Text} (hresolve : tree.resolve path = .ok names)
    (hfound : tree.find? names = some content)
    (houtput : session.output? path content = some (Utf8.encode text))
    (hreal : session.options.dryRun = false) :
    (session.process tree path).result =
        .ok (session.save tree (session.tell path content) text).1 ∧
      (session.process tree path).tree =
        (session.save tree (session.tell path content) text).2 := by
  rcases process_of_content hresolve hfound with
    ⟨hquiet, _⟩ | ⟨output, hother, _, hprocess⟩
  · exact absurd hquiet (not_quiet houtput hreal)
  · rw [save_congr (Option.some.inj (houtput.symm.trans hother))]
    exact hprocess

theorem exists_text_of_output? (h : session.output? path content = some new) :
    ∃ text, new = Utf8.encode text := by
  obtain ⟨kind, _, hnew⟩ := Option.bind_eq_some_iff.mp h
  split at hnew
  · split at hnew
    · exact ⟨_, (Option.some.inj hnew).symm⟩
    · cases hnew
  · cases hnew

/-! ## Saving -/

/-- Without a backup, the file is stored. -/
theorem save_plain (hplace : tree.IsPlace path names) {report : FileReport}
    (hpath : report.path = path) (hbackup : session.options.backup = false)
    (output : Text) :
    session.save tree report output =
      ({ report with saved := some path },
        tree.put names (Utf8.encode output)) := by
  subst hpath
  unfold save
  rw [hbackup]
  dsimp only [Bool.false_eq_true, if_false]
  rw [if_neg Bool.false_ne_true]
  dsimp only
  rw [FileTree.writeText, hplace.write_eq]

theorem copy_backup {report : FileReport}
    (hplace : tree.IsPlace report.path names)
    (hfound : tree.find? names = some content) :
    tree.copy report.path report.path.backup =
      tree.write (tree.copyTarget report.path report.path.backup) content := by
  have hread := FileTree.read_eq_ok_iff.mpr ⟨names, hplace.resolve, hfound⟩
  rw [FileTree.copy, hread]
  rfl

/-- With a backup, the old content is stored before. -/
theorem save_backup (hplace : tree.IsPlace path names) {report : FileReport}
    (hpath : report.path = path) (hbackup : session.options.backup = true)
    (hfound : tree.find? names = some content) {beside : List Text}
    (hbeside : tree.IsPlace (tree.copyTarget path path.backup) beside)
    (output : Text) :
    session.save tree report output =
      ({ report with backup := some path.backup, saved := some path },
        (tree.put beside content).put names (Utf8.encode output)) := by
  subst hpath
  unfold save
  rw [hbackup, if_pos rfl, copy_backup hplace hfound, hbeside.write_eq]
  dsimp only
  rw [FileTree.writeText, (hbeside.put hplace content).write_eq]

/-- If the backup cannot be written, nothing is stored. -/
theorem save_backup_error (hplace : tree.IsPlace path names)
    {report : FileReport} (hpath : report.path = path)
    (hbackup : session.options.backup = true)
    (hfound : tree.find? names = some content) {error : FileError}
    (herror : tree.write (tree.copyTarget path path.backup)
      content = .error error)
    (output : Text) :
    session.save tree report output =
      ({ report with status := .error, error := some error.message },
        tree) := by
  subst hpath
  unfold save
  rw [hbackup, if_pos rfl, copy_backup hplace hfound, herror]

/-! ## What is stored -/

/-- Processing is to rewrite the file under these names, from one content to
another. -/
structure Rewrites (session : Session) (tree : FileTree) (path : Path)
    (names : List Text) (old new : Bytes) : Prop where
  place : tree.IsPlace path names
  found : tree.find? names = some old
  output : session.output? path old = some new
  real : session.options.dryRun = false

/-- Processing a file stores this content under these names: the new one in the
file, if its backup can be written, and the old one in the backup. -/
inductive Stores (session : Session) (tree : FileTree) (path : Path) :
    List Text → Bytes → Prop
  where
  | file {names : List Text} {old new : Bytes}
    (rewrites : session.Rewrites tree path names old new)
      (kept : session.options.backup = true →
        ∃ beside, tree.IsPlace (tree.copyTarget path path.backup) beside) :
      Stores session tree path names new
  | backup {own names : List Text} {old new : Bytes}
      (rewrites : session.Rewrites tree path own old new)
      (keeps : session.options.backup = true)
      (place : tree.IsPlace (tree.copyTarget path path.backup) names) :
      Stores session tree path names old

/-- A tree after the contents were stored in it: nothing else changed. -/
structure Holds (session : Session) (tree : FileTree) (path : Path)
    (before after : FileTree) :
    Prop where
  directories : before.SameDirectories after
  stored : ∀ names content, session.Stores tree path names content →
    after.find? names = some content
  others : ∀ names, (∀ content, ¬ session.Stores tree path names content) →
    after.find? names = before.find? names

theorem Rewrites.eq {own : List Text} {old old' new' : Bytes}
    (h : session.Rewrites tree path own old' new')
    (hplace : tree.IsPlace path names) (hfound : tree.find? names = some old)
    (houtput : session.output? path old = some new) :
    own = names ∧ old' = old ∧ new' = new := by
  obtain rfl := hplace.unique h.place
  obtain rfl : old' = old := Option.some.inj (h.found.symm.trans hfound)
  exact ⟨rfl, rfl, Option.some.inj (h.output.symm.trans houtput)⟩

theorem Stores.rewrites (h : session.Stores tree path names content) :
    ∃ own old new, session.Rewrites tree path own old new := by
  rcases h with ⟨hrewrites, _⟩ | ⟨hrewrites, _, _⟩ <;>
    exact ⟨_, _, _, hrewrites⟩

theorem not_stores_of_quiet {stored : Bytes} {own : List Text}
    (hplace : tree.IsPlace path names)
    (hfound : tree.find? names = some content)
    (hquiet : session.Quiet path content) :
    ¬ session.Stores tree path own stored := by
  intro hstores
  obtain ⟨other, old, new, hrewrites⟩ := hstores.rewrites
  obtain rfl := hplace.unique hrewrites.place
  obtain rfl : old = content :=
    Option.some.inj (hrewrites.found.symm.trans hfound)
  exact not_quiet hrewrites.output hrewrites.real hquiet

theorem holds_of_not_stores (before : FileTree)
    (h : ∀ names content, ¬ session.Stores tree path names content) :
    session.Holds tree path before before where
  directories := .refl before
  stored := fun names content hstores => absurd hstores (h names content)
  others := fun _ _ => rfl

theorem holds_put {before : FileTree} (hplace : tree.IsPlace path names)
    (hrewrites : session.Rewrites tree path names content new)
    (hbackup : session.options.backup = false)
    (hsame : tree.SameDirectories before) :
    session.Holds tree path before (before.put names new) where
  directories := .put (hsame.isPlace hplace) new
  stored := by
    rintro other _ (⟨hother, _⟩ | ⟨_, hkeeps, _⟩)
    · obtain ⟨rfl, rfl, rfl⟩ :=
        hother.eq hplace hrewrites.found hrewrites.output
      rw [FileTree.find?_put, if_pos rfl]
    · rw [hbackup] at hkeeps
      cases hkeeps
  others := by
    intro other hother
    rw [FileTree.find?_put, if_neg]
    rintro rfl
    refine hother new (.file hrewrites ?_)
    rw [hbackup]
    exact nofun

theorem holds_put_put {before : FileTree} {beside : List Text}
    (hplace : tree.IsPlace path names)
    (hrewrites : session.Rewrites tree path names content new)
    (hbackup : session.options.backup = true)
    (hsame : tree.SameDirectories before)
    (hbeside : tree.IsPlace (tree.copyTarget path path.backup) beside) :
    session.Holds tree path before
      ((before.put beside content).put names new) := by
  have hdirectories : before.SameDirectories (before.put beside content) :=
    .put (hsame.isPlace hbeside) content
  have hne : beside ≠ names := by
    rintro rfl
    exact (FileTree.copyTarget_backup hplace).2 hbeside
  refine ⟨hdirectories.trans
    (.put ((hsame.trans hdirectories).isPlace hplace) new), ?_, ?_⟩
  · rintro other _ (⟨hother, _⟩ | ⟨hother, _, hbesideOther⟩)
    · obtain ⟨rfl, rfl, rfl⟩ :=
        hother.eq hplace hrewrites.found hrewrites.output
      rw [FileTree.find?_put, if_pos rfl]
    · obtain ⟨rfl, rfl, rfl⟩ :=
        hother.eq hplace hrewrites.found hrewrites.output
      rw [hbeside.unique hbesideOther, FileTree.find?_put, if_neg hne,
        FileTree.find?_put, if_pos rfl]
  · intro other hother
    rw [FileTree.find?_put, if_neg, FileTree.find?_put, if_neg]
    · rintro rfl
      exact hother content (.backup hrewrites hbackup hbeside)
    · rintro rfl
      exact hother new (.file hrewrites fun _ => ⟨beside, hbeside⟩)

/-- Saving a file gives the same report in another tree with the same
directories and the same file, and the same is stored. -/
theorem save_robust {after : FileTree} {text : Text}
    (hrewrites : session.Rewrites tree path names content (Utf8.encode text))
    (hsame : tree.SameDirectories after)
    (hafter : after.find? names = some content) {report : FileReport}
    (hpath : report.path = path) :
    ∃ saved, (session.save tree report text).1 = saved ∧
      (session.save after report text).1 = saved ∧
      session.Holds tree path after (session.save after report text).2 := by
  have hplace := hrewrites.place
  have hplaceAfter := hsame.isPlace hplace
  cases hbackup : session.options.backup with
  | false =>
    rw [save_plain hplace hpath hbackup, save_plain hplaceAfter hpath hbackup]
    exact ⟨_, rfl, rfl, holds_put hplace hrewrites hbackup hsame⟩
  | true =>
    obtain ⟨hparent, _⟩ := FileTree.copyTarget_backup hplace
    have htarget := hsame.copyTarget path path.backup
    rcases FileTree.write_cases hsame hparent with
      ⟨error, herror⟩ | ⟨beside, hbeside⟩
    · have herrorAfter := (herror content).2
      rw [← htarget] at herrorAfter
      have hnot : ∀ beside,
          ¬ tree.IsPlace (tree.copyTarget path path.backup) beside := by
        intro beside hbeside
        have hwrite := hbeside.write_eq content
        rw [(herror content).1] at hwrite
        cases hwrite
      rw [save_backup_error hplace hpath hbackup hrewrites.found
        (herror content).1,
        save_backup_error hplaceAfter hpath hbackup hafter herrorAfter]
      refine ⟨_, rfl, rfl, holds_of_not_stores after ?_⟩
      rintro _ _ (⟨_, hkept⟩ | ⟨_, _, hbeside⟩)
      · obtain ⟨beside, hbeside⟩ := hkept hbackup
        exact hnot beside hbeside
      · exact hnot _ hbeside
    · have hbesideAfter := hsame.isPlace hbeside
      rw [← htarget] at hbesideAfter
      rw [save_backup hplace hpath hbackup hrewrites.found hbeside,
        save_backup hplaceAfter hpath hbackup hafter hbesideAfter]
      exact ⟨_, rfl, rfl, holds_put_put hplace hrewrites hbackup hsame hbeside⟩

/-- Processing a file gives the same report in another tree with the same
directories and the same file, and the same is stored. -/
theorem process_robust (session : Session) {after : FileTree}
    (hplace : tree.IsPlace path names)
    (hfound : tree.find? names = some content)
    (hsame : tree.SameDirectories after)
    (hafter : (session.config.kindOf? path).isSome = true →
      after.find? names = some content) :
    ∃ report, (session.process tree path).result = .ok report ∧
      (session.process after path).result = .ok report ∧
      session.Holds tree path after (session.process after path).tree := by
  cases hkind : session.config.kindOf? path with
  | none =>
    have hquiet : session.Quiet path content := by
      left
      rw [output?, hkind]
      rfl
    unfold process
    rw [hkind]
    exact ⟨_, rfl, rfl,
      holds_of_not_stores after fun _ _ =>
        not_stores_of_quiet hplace hfound hquiet⟩
  | some kind =>
    have hfoundAfter := hafter (by rw [hkind]; rfl)
    have hplaceAfter := hsame.isPlace hplace
    by_cases hquiet : session.Quiet path content
    · obtain ⟨hresult, _⟩ := process_quiet session hplace.resolve hfound hquiet
      obtain ⟨hresultAfter, htree⟩ :=
        process_quiet session hplaceAfter.resolve hfoundAfter hquiet
      rw [htree]
      exact ⟨_, hresult, hresultAfter,
        holds_of_not_stores after fun _ _ =>
          not_stores_of_quiet hplace hfound hquiet⟩
    · rw [Quiet, not_or, Bool.not_eq_true] at hquiet
      obtain ⟨new, houtput⟩ := Option.ne_none_iff_exists'.mp hquiet.1
      obtain ⟨text, rfl⟩ := exists_text_of_output? houtput
      obtain ⟨hresult, _⟩ :=
        process_saving hplace.resolve hfound houtput hquiet.2
      obtain ⟨hresultAfter, htree⟩ :=
        process_saving hplaceAfter.resolve hfoundAfter houtput hquiet.2
      obtain ⟨saved, hsaved, hsavedAfter, hholds⟩ :=
        save_robust ⟨hplace, hfound, houtput, hquiet.2⟩ hsame hfoundAfter
          (session.path_tell path content)
      rw [hresult, hresultAfter, htree, hsaved, hsavedAfter]
      exact ⟨saved, rfl, rfl, hholds⟩

end Session

end OklchGate
