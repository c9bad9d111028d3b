import OklchGate.Proofs.Files.Tree
import OklchGate.Proofs.Gate.Output
import OklchGate.Proofs.Mapping.Repeating
import OklchGate.Proofs.Text.Utf8
import OklchGate.Run.Convert

/-!
# Processing one file

A file is either rewritten as a whole, with everything else as it was, or no
file changes at all.

There are three groups.

* `Transforms`: the text that an insertion makes of a source.  It keeps the text
  of the source, and so do the bytes.
* `Saved`: what a tree holds after a file was rewritten, and `save_cases`: a
  file is rewritten, or the tree stays and the report is one of an error.
* `Processed`: what a report tells of a file, and `process_atomic`, which goes
  through the error exits in their order.
-/

namespace OklchGate

/-! ## Sources -/

/-- The insertion for a kind changes the source, and the output is the text that
it makes of it. -/
def Transforms (convert : Converter) (config : Config) (source output : Text) :
    Kind → Prop
  | .styleSheet => ∃ insertion,
      Gate.transform convert config.defaultIndent source = .ok insertion ∧
        insertion.changed = true ∧ output = insertion.output
  | .mapping => ∃ outcome,
      Mapping.transform convert source = .ok outcome ∧
        outcome.isChanged = true ∧ output = outcome.output source

theorem Converted.status_ofInsertion_iff (insertion : Gate.Insertion) :
    (ofInsertion insertion).status = .converted ↔ insertion.changed = true := by
  unfold ofInsertion
  dsimp only
  by_cases hchanged : insertion.changed = true
  · rw [if_pos hchanged]
    exact iff_of_true rfl hchanged
  · rw [if_neg hchanged]
    refine iff_of_false ?_ hchanged
    split <;> exact nofun

theorem Converted.status_ofOutcome_iff (source : Text)
    (outcome : Mapping.Outcome) :
    (ofOutcome source outcome).status = .converted ↔
      outcome.isChanged = true := by
  unfold ofOutcome
  dsimp only
  cases outcome with
  | alreadyProcessed => exact iff_of_false nofun nofun
  | untouched failures => exact iff_of_false nofun nofun
  | changed entries failures offset inserted =>
    have hnot : ¬ (Mapping.Outcome.changed entries failures offset
        inserted).isAlreadyProcessed = true := Bool.false_ne_true
    rw [if_neg hnot]
    split
    · next hchanged => exact iff_of_true rfl hchanged
    · next hchanged => exact iff_of_false nofun hchanged

/-- A source has the status of a converted one exactly if the insertion for its
kind changes it. -/
theorem transforms_iff {convert : Converter} {config : Config} {kind : Kind}
    {source output : Text} :
    Transforms convert config source output kind ↔
      ∃ done, Converted.ofSource convert config kind source = .ok done ∧
        done.status = .converted ∧ output = done.output := by
  cases kind with
  | styleSheet =>
    unfold Transforms Converted.ofSource
    dsimp only
    cases Gate.transform convert config.defaultIndent source with
    | error error => exact iff_of_false nofun nofun
    | ok insertion =>
      constructor
      · rintro ⟨_, ⟨⟩, hchanged, houtput⟩
        exact ⟨_, rfl,
          (Converted.status_ofInsertion_iff insertion).mpr hchanged, houtput⟩
      · rintro ⟨_, ⟨⟩, hstatus, houtput⟩
        exact ⟨_, rfl, (Converted.status_ofInsertion_iff insertion).mp hstatus,
          houtput⟩
  | mapping =>
    unfold Transforms Converted.ofSource
    dsimp only
    cases Mapping.transform convert source with
    | error error => exact iff_of_false nofun nofun
    | ok outcome =>
      constructor
      · rintro ⟨_, ⟨⟩, hchanged, houtput⟩
        exact ⟨_, rfl,
          (Converted.status_ofOutcome_iff source outcome).mpr hchanged, houtput⟩
      · rintro ⟨_, ⟨⟩, hstatus, houtput⟩
        exact ⟨_, rfl,
          (Converted.status_ofOutcome_iff source outcome).mp hstatus, houtput⟩

/-- An insertion keeps every character of the source and their order. -/
theorem Transforms.sublist {convert : Converter} {config : Config}
    {source output : Text} {kind : Kind}
    (h : Transforms convert config source output kind) :
    source.Sublist output := by
  cases kind with
  | styleSheet =>
    obtain ⟨insertion, hinsertion, _, rfl⟩ := h
    rw [Gate.transform] at hinsertion
    cases hparse : Css.Document.parse source with
    | error error =>
      rw [hparse] at hinsertion
      cases hinsertion
    | ok document =>
      rw [hparse] at hinsertion
      cases hinsertion
      exact Gate.sublist_output convert config.defaultIndent hparse
  | mapping =>
    obtain ⟨outcome, _, _, rfl⟩ := h
    exact Mapping.sublist_output source outcome

/-- A file that is read as a text holds the bytes of this text. -/
theorem FileTree.read_of_readText {tree : FileTree} {path : Path}
    {source : Text} (h : tree.readText path = .ok source) :
    tree.read path = .ok (Utf8.encode source) := by
  unfold FileTree.readText at h
  split at h
  · cases h
  · next content hcontent =>
    cases hdecode : Utf8.decode content with
    | error fault =>
      rw [hdecode] at h
      cases h
    | ok text =>
      rw [hdecode] at h
      cases h
      rw [hcontent, Utf8.encode_of_decode hdecode]

/-- A file that cannot be read as a text for another reason than its bytes
cannot be read. -/
theorem FileTree.read_of_readText_error {tree : FileTree} {path : Path}
    {error : FileError} (h : tree.readText path = .error (.file error)) :
    tree.read path = .error error := by
  unfold FileTree.readText at h
  split at h
  · next other hother =>
    cases h
    exact hother
  · next content _ =>
    cases hdecode : Utf8.decode content <;> rw [hdecode] at h <;> cases h

/-- Reading a text stops a run only at a path with a null character. -/
theorem FileTree.stop?_of_readText {tree : FileTree} {path : Path}
    {error : FileTree.ReadError} {stop : FileError}
    (h : tree.readText path = .error error) (hstop : error.stop? = some stop) :
    stop = ⟨.nullCharacter, path⟩ ∧ path.toText.contains '\x00' = true := by
  cases error with
  | notUtf8 fault => cases hstop
  | file error =>
    rw [FileTree.ReadError.stop?] at hstop
    split at hstop
    · next hcause =>
      cases hstop
      exact FileTree.null_of_read (FileTree.read_of_readText_error h) hcause
    · cases hstop

/-! ## Saving -/

/-- The tree afterwards holds new bytes in the file of a path, and in the backup
the old bytes if one is kept.  Everything else is as it was. -/
structure Saved (keeps : Bool) (path : Path) (old new : Bytes)
    (tree after : FileTree) :
    Prop where
  before : tree.read path = .ok old
  file : after.read path = .ok new
  backup : keeps = true → after.read path.backup = .ok old
  others : ∀ names, after.find? names ≠ tree.find? names →
    tree.resolve path = .ok names ∨
      keeps = true ∧ tree.resolve path.backup = .ok names
  directories : tree.SameDirectories after
  wellFormed : after.WellFormed

section Saving

variable {tree : FileTree} {path : Path} {names : List Text} {old : Bytes}

/-- Without a backup, a file is written at its place. -/
theorem saved_put (hwell : tree.WellFormed) (hplace : tree.IsPlace path names)
    (hfound : tree.find? names = some old) (new : Bytes) :
    Saved false path old new tree (tree.put names new) where
  before := FileTree.read_eq_ok_iff.mpr ⟨names, hplace.resolve, hfound⟩
  file := FileTree.read_eq_ok_iff.mpr
    ⟨names,
      (hplace.put hplace new).resolve, by rw [FileTree.find?_put, if_pos rfl]⟩
  backup := nofun
  others := by
    intro other hother
    rw [FileTree.eq_of_find?_put hother]
    exact Or.inl hplace.resolve
  directories := FileTree.sameDirectories_put hplace.parent new
  wellFormed := hwell.put hplace.file hplace.parent new

/-- With a backup, the old bytes are stored beside the file before. -/
theorem saved_put_put {beside : List Text} (hwell : tree.WellFormed)
    (hplace : tree.IsPlace path names)
    (hbeside : tree.IsPlace path.backup beside) (hne : beside ≠ names)
    (hfound : tree.find? names = some old) (new : Bytes) :
    Saved true path old new tree ((tree.put beside old).put names new) := by
  have hplaceNow := hbeside.put hplace old
  have hbesideNow := hbeside.put hbeside old
  have hwellNow := hwell.put hbeside.file hbeside.parent old
  have hfoundNow : (tree.put beside old).find? names = some old := by
    rw [FileTree.find?_put, if_neg (Ne.symm hne), hfound]
  have hsaved := saved_put hwellNow hplaceNow hfoundNow new
  have hkept := FileTree.sameDirectories_put hbeside.parent old
  refine ⟨FileTree.read_eq_ok_iff.mpr ⟨names, hplace.resolve, hfound⟩,
    hsaved.file, ?_, ?_, hkept.trans hsaved.directories, hsaved.wellFormed⟩
  · intro _
    refine FileTree.read_eq_ok_iff.mpr
      ⟨beside, (hplaceNow.put hbesideNow new).resolve, ?_⟩
    rw [FileTree.find?_put, if_neg hne, FileTree.find?_put, if_pos rfl]
  · intro other hother
    by_cases hown : other = names
    · rw [hown]
      exact Or.inl hplace.resolve
    · rw [FileTree.find?_put, if_neg hown] at hother
      rw [FileTree.eq_of_find?_put hother]
      exact Or.inr ⟨rfl, hbeside.resolve⟩

/-- A file whose backup does not lead to a directory is rewritten; or nothing
is, because the backup has no place, and the report is one of an error. -/
theorem Session.save_cases (session : Session) (hwell : tree.WellFormed)
    {report : FileReport} (hplace : tree.IsPlace report.path names)
    (hfound : tree.find? names = some old)
    (hbackup : session.options.backup = true →
      tree.leadsToDirectory report.path.backup = false)
    (output : Text) :
    ((session.options.backup = true ∧ ∃ cause,
      tree.resolve report.path.backup = .error cause) ∧
        (session.save tree report output).1.status = .error ∧
        (session.save tree report output).2 = tree) ∨
      ((session.options.backup = true →
          ∃ location, tree.resolve report.path.backup = .ok location) ∧
        (session.save tree report output).1.status = report.status ∧
        Saved session.options.backup report.path old (Utf8.encode output) tree
          (session.save tree report output).2) := by
  unfold Session.save
  by_cases hkeeps : session.options.backup = true
  · have hread := FileTree.read_eq_ok_iff.mpr ⟨names, hplace.resolve, hfound⟩
    have hcopy := FileTree.copy_eq_write hread (hbackup hkeeps)
    rw [hkeeps, if_pos rfl, hcopy]
    rcases FileTree.resolve_backup hplace.resolve hplace.file with
      ⟨cause, herror⟩ | hresolve
    · left
      rw [FileTree.write, herror]
      exact ⟨⟨rfl, cause, rfl⟩, rfl, rfl⟩
    · right
      have hbeside :=
        FileTree.isPlace_of_leadsToDirectory (hbackup hkeeps) hresolve
      rw [hbeside.write_eq]
      dsimp only
      rw [FileTree.writeText, (hbeside.put hplace old).write_eq]
      exact ⟨fun _ => ⟨_, hresolve⟩, rfl,
        saved_put_put hwell hplace hbeside hplace.backup_ne hfound _⟩
  · right
    rw [if_neg hkeeps]
    dsimp only
    rw [FileTree.writeText, hplace.write_eq, Bool.eq_false_iff.mpr hkeeps]
    exact ⟨fun hkept => absurd hkept Bool.false_ne_true, rfl,
      saved_put hwell hplace hfound _⟩

end Saving

/-! ## Processing -/

/-- The report on a file whose source was converted, before anything is
saved. -/
def Session.reportOn (session : Session) (path : Path) (kind : Kind)
    (done : Converted) :
    FileReport :=
  { path, kind := some kind, dryRun := session.options.dryRun,
    status := done.status,
    colors := done.colors, scopes := done.scopes, warnings := done.warnings }

/-- A file whose source is converted is saved if its text changed and the run is
no dry run. -/
theorem Session.process_of_ofSource {session : Session} {tree : FileTree}
    {path : Path} {kind : Kind} {source : Text} {done : Converted}
    (hkind : session.config.kindOf? path = some kind)
    (htext : tree.readText path = .ok source)
    (hdone : Converted.ofSource session.convert session.config kind
      source = .ok done) :
    session.process tree path =
      if done.status = .converted ∧ session.options.dryRun = false then
        ⟨.ok (session.save tree (session.reportOn path kind done)
          done.output).1,
          (session.save tree (session.reportOn path kind done) done.output).2,
            done.log⟩
      else ⟨.ok (session.reportOn path kind done), tree, done.log⟩ := by
  unfold Session.process
  rw [hkind]
  dsimp only
  rw [htext]
  dsimp only
  rw [hdone]
  dsimp only
  by_cases hsaves : done.status = .converted ∧ session.options.dryRun = false
  · rw [if_pos hsaves, if_pos (by rw [hsaves.1, hsaves.2]; rfl)]
    rfl
  · have hnot : ¬ (done.status = .converted && !session.options.dryRun) =
        true := by
      simpa using hsaves
    rw [if_neg hsaves, if_neg hnot]
    rfl

/-- A file whose source cannot be converted ends in the report of an error. -/
theorem Session.process_of_error {session : Session} {tree : FileTree}
    {path : Path} {kind : Kind} {source : Text} {error : SourceError}
    (hkind : session.config.kindOf? path = some kind)
    (htext : tree.readText path = .ok source)
    (hdone : Converted.ofSource session.convert session.config kind
      source = .error error) :
    session.process tree path =
      ⟨.ok { path, kind := some kind, dryRun := session.options.dryRun,
             status := .error, error := some (error.message path) }, tree,
               []⟩ := by
  unfold Session.process
  rw [hkind]
  dsimp only
  rw [htext]
  dsimp only
  rw [hdone]

/-- The file is read as a text that the insertion for its kind changes to this
output. -/
def Session.Converts (session : Session) (tree : FileTree) (path : Path)
    (source output : Text) :
    Prop :=
  ∃ kind, session.config.kindOf? path = some kind ∧
    tree.readText path = .ok source ∧
    Transforms session.convert session.config source output kind

theorem Session.exists_converts_iff {session : Session} {tree : FileTree}
    {path : Path} {kind : Kind} {source : Text}
    (hkind : session.config.kindOf? path = some kind)
    (htext : tree.readText path = .ok source) :
    (∃ text output, session.Converts tree path text output) ↔
      ∃ done, Converted.ofSource session.convert session.config kind
        source = .ok done ∧ done.status = .converted := by
  constructor
  · rintro ⟨text, output, own, hown, hread, htransforms⟩
    obtain rfl : kind = own := Option.some.inj (hkind.symm.trans hown)
    obtain rfl : source = text := Except.ok.inj (htext.symm.trans hread)
    obtain ⟨done, hdone, hstatus, _⟩ := transforms_iff.mp htransforms
    exact ⟨done, hdone, hstatus⟩
  · rintro ⟨done, hdone, hstatus⟩
    exact ⟨source, done.output, kind, hkind, htext,
      transforms_iff.mpr ⟨done, hdone, hstatus, rfl⟩⟩

/-- What a report tells of a file of a tree, and what the tree is afterwards.
The file counts as converted exactly if the insertion changes its text and there
is a place for the backup that is to be written.  If it does not, or in a dry
run, no file changes.  Otherwise the file holds the bytes of the new text, which
are the old bytes with others put in; the backup, if there is one, holds the old
bytes; and nothing else changes. -/
structure Session.Processed (session : Session) (path : Path) (tree : FileTree)
    (report : FileReport) (after : FileTree) : Prop where
  converted_iff : report.status = .converted ↔
    (∃ source output, session.Converts tree path source output) ∧
      (session.options.dryRun = false → session.options.backup = true →
        ∃ location, tree.resolve path.backup = .ok location)
  unchanged : report.status ≠ .converted ∨ session.options.dryRun = true →
    after = tree
  rewritten : report.status = .converted → session.options.dryRun = false →
    ∃ source output, session.Converts tree path source output ∧
      Saved session.options.backup path (Utf8.encode source)
        (Utf8.encode output) tree after ∧
      source.Sublist output ∧ (Utf8.encode source).Sublist (Utf8.encode output)

/-- A file that is not converted changes nothing. -/
theorem Session.processed_of_not_converts {session : Session} {path : Path}
    {tree : FileTree} {report : FileReport}
    (hstatus : report.status ≠ .converted)
    (hnot : ¬ ∃ source output, session.Converts tree path source output) :
    session.Processed path tree report tree where
  converted_iff := iff_of_false hstatus fun h => hnot h.1
  unchanged := fun _ => rfl
  rewritten := fun hconverted => absurd hconverted hstatus

/-- Saving a converted file, outside a dry run. -/
theorem Session.processed_save {session : Session} {path : Path}
    {tree : FileTree} {kind : Kind} {source : Text} {done : Converted}
    (hwell : tree.WellFormed)
    (hbackup : session.options.backup = true →
      tree.leadsToDirectory path.backup = false)
    (hkind : session.config.kindOf? path = some kind)
    (htext : tree.readText path = .ok source)
    (hdone : Converted.ofSource session.convert session.config kind
      source = .ok done)
    (hstatus : done.status = .converted)
    (hdry : session.options.dryRun = false) :
    session.Processed path tree
      (session.save tree (session.reportOn path kind done) done.output).1
      (session.save tree (session.reportOn path kind done) done.output).2 := by
  obtain ⟨names, hplace, hfound⟩ :=
    FileTree.IsPlace.of_read hwell (FileTree.read_of_readText htext)
  have hplaceOfReport :
      tree.IsPlace (session.reportOn path kind done).path names := hplace
  have htransforms := transforms_iff.mpr ⟨done, hdone, hstatus, rfl⟩
  have hconverts : session.Converts tree path source done.output :=
    ⟨kind, hkind, htext, htransforms⟩
  rcases session.save_cases hwell hplaceOfReport hfound hbackup done.output with
    ⟨⟨hkeeps, cause, hnowhere⟩, herror, hsame⟩ | ⟨hbeside, hreported, hsaved⟩
  · have hnot :
      (session.save tree (session.reportOn path kind done)
      done.output).1.status ≠
        .converted := by
      rw [herror]
      exact nofun
    refine ⟨iff_of_false hnot ?_, fun _ => hsame, fun hconverted =>
      absurd hconverted hnot⟩
    rintro ⟨_, hplaced⟩
    obtain ⟨location, hlocation⟩ := hplaced hdry hkeeps
    cases hnowhere.symm.trans hlocation
  · have hconverted := hreported.trans hstatus
    refine ⟨iff_of_true hconverted ⟨⟨_, _, hconverts⟩, fun _ => hbeside⟩, ?_,
      fun _ _ => ?_⟩
    · rintro (hnot | hdryRun)
      · exact absurd hconverted hnot
      · rw [hdry] at hdryRun
        cases hdryRun
    · exact ⟨source, done.output, hconverts, hsaved, htransforms.sublist,
        Utf8.sublist_encode htransforms.sublist⟩

/-- Processing a file of a well-formed tree whose backup does not lead to a
directory ends in a report that tells what became of it, unless the path holds a
null character.  A path leads where its names lead: links, permissions and what
the system runs out of are no part of a tree. -/
theorem Session.process_atomic (session : Session) {tree : FileTree}
    {path : Path} (hwell : tree.WellFormed)
    (hbackup : session.options.backup = true →
      tree.leadsToDirectory path.backup = false) :
    ((session.process tree path).result = .error ⟨.nullCharacter, path⟩ ∧
        path.toText.contains '\x00' = true ∧
          (session.process tree path).tree = tree) ∨
      ∃ report, (session.process tree path).result = .ok report ∧
        session.Processed path tree report
          (session.process tree path).tree := by
  cases hkind : session.config.kindOf? path with
  | none =>
    right
    unfold Session.process
    rw [hkind]
    refine ⟨_, rfl, processed_of_not_converts nofun ?_⟩
    rintro ⟨_, _, _, hknown, _⟩
    cases hkind.symm.trans hknown
  | some kind =>
    cases htext : tree.readText path with
    | error error =>
      unfold Session.process
      rw [hkind]
      dsimp only
      rw [htext]
      dsimp only
      cases hstop : error.stop? with
      | none =>
        right
        refine ⟨_, rfl, processed_of_not_converts nofun ?_⟩
        rintro ⟨_, _, _, _, hread, _⟩
        cases htext.symm.trans hread
      | some stop =>
        obtain ⟨rfl, hnull⟩ := FileTree.stop?_of_readText htext hstop
        exact Or.inl ⟨rfl, hnull, rfl⟩
    | ok source =>
      right
      have hconverts := Session.exists_converts_iff hkind htext
      cases hdone : Converted.ofSource session.convert session.config kind
        source with
      | error error =>
        rw [Session.process_of_error hkind htext hdone]
        refine ⟨_, rfl, processed_of_not_converts nofun ?_⟩
        rw [hconverts]
        rintro ⟨other, hother, _⟩
        cases hdone.symm.trans hother
      | ok done =>
        rw [Session.process_of_ofSource hkind htext hdone]
        by_cases hstatus : done.status = .converted
        · cases hdry : session.options.dryRun with
          | false =>
            rw [if_pos ⟨hstatus, rfl⟩]
            exact ⟨_, rfl,
              processed_save hwell hbackup hkind htext hdone hstatus hdry⟩
          | true =>
            rw [if_neg (fun hsaves => nomatch hsaves.2)]
            refine ⟨_, rfl, ?_, fun _ => rfl, ?_⟩
            · refine iff_of_true hstatus
                ⟨hconverts.mpr ⟨done, hdone, hstatus⟩, ?_⟩
              rw [hdry]
              exact nofun
            · rw [hdry]
              exact fun _ => nofun
        · rw [if_neg (fun hsaves => hstatus hsaves.1)]
          refine ⟨_, rfl, processed_of_not_converts hstatus ?_⟩
          rw [hconverts]
          rintro ⟨other, hother, hconverted⟩
          obtain rfl : done = other := Except.ok.inj (hdone.symm.trans hother)
          exact hstatus hconverted

/-- A tree with one mapping literal. -/
def mappingTree : FileTree :=
  { files := [(["a.ts".toList], Utf8.encode "'x': '#fff'".toList)] }

/-- A session that keeps a backup. -/
def backupSession : Session :=
  ⟨fun _ => some "oklch(1 0 0)".toList, {}, { backup := true }⟩

/-- A mapping literal that is rewritten, with a backup. -/
theorem Session.process_atomic_backup :
    mappingTree.WellFormed ∧
      mappingTree.leadsToDirectory (Path.ofText "a.ts".toList).backup = false ∧
      ∃ report source output,
        (backupSession.process mappingTree
          (Path.ofText "a.ts".toList)).result = .ok report ∧
          report.status = .converted ∧
          Saved true (Path.ofText "a.ts".toList) (Utf8.encode source)
            (Utf8.encode output)
            mappingTree (backupSession.process mappingTree
              (Path.ofText "a.ts".toList)).tree := by
  have hwell : mappingTree.WellFormed := by
    intro names hnames
    obtain ⟨file, hfile, rfl⟩ :=
      (FileTree.isSome_find?_iff mappingTree names).mp hnames
    rw [mappingTree, List.mem_singleton] at hfile
    rw [hfile]
    decide
  have hbackup :
      mappingTree.leadsToDirectory (Path.ofText "a.ts".toList).backup =
      false := by
    decide +kernel
  have hconverted :
      (backupSession.process mappingTree
        (Path.ofText "a.ts".toList)).result.toOption.map
        FileReport.status = some .converted := by
    decide +kernel
  refine ⟨hwell, hbackup, ?_⟩
  rcases Session.process_atomic backupSession hwell fun _ => hbackup with
    ⟨herror, _⟩ | ⟨report, hresult, hprocessed⟩
  · rw [herror] at hconverted
    cases hconverted
  · rw [hresult] at hconverted
    have hstatus : report.status = .converted := Option.some.inj hconverted
    obtain ⟨source, output, _, hsaved, _⟩ := hprocessed.rewritten hstatus rfl
    exact ⟨report, source, output, hresult, hstatus, hsaved⟩

end OklchGate
