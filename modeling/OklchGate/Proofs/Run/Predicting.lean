import Mathlib.Logic.Function.Iterate
import OklchGate.Proofs.Run.Ordering

/-!
# Dry runs

A dry run tells of each file what the real run does to it.  But a file that is
listed by two different texts is converted before it comes again, and only the
real run sees that.

There are four groups.

* `FileReport.account`, what a report tells apart from what was written.
* Reading files in a tree where others were rewritten: `read_error_congr`, and
  `countSame`, which counts the paths to a file.
* `Session.Rewritten`, what a tree holds during a real run without backups: a
  file was converted once for each path to it.
* Both runs: `process_both` is one step, `forEach_both` is by induction on the
  files, and `predicts_iff` is for two runs.  `not_predicts_alias` is a file
  that is listed by two texts.
-/

namespace OklchGate

/-! ## What a report tells -/

/-- The report without what was written. -/
def FileReport.account (report : FileReport) : FileReport :=
  { report with dryRun := false, saved := none, backup := none }

/-- The lines at the end of a run depend on the accounts of the files. -/
theorem RunReport.summary_congr {a b : RunReport}
    (h : a.files.map FileReport.account = b.files.map FileReport.account) :
    a.summary = b.summary := by
  have hlength := congrArg List.length h
  rw [List.length_map, List.length_map] at hlength
  have hcount : ∀ status, a.count status = b.count status := by
    intro status
    have hmap : ∀ files : List FileReport,
        files.countP (fun file => file.status = status) =
          (files.map FileReport.account).countP fun file => file.status =
            status := by
      intro files
      rw [List.countP_map]
      rfl
    rw [count, count, hmap a.files, hmap b.files, h]
  have hcolors : a.colors = b.colors := by
    have hmap : ∀ (files : List FileReport) (total : Nat),
        files.foldl (fun total file => total + file.colors) total =
          (files.map FileReport.account).foldl
            (fun total file => total + file.colors) total := by
      intro files total
      rw [List.foldl_map]
      rfl
    rw [colors, colors, hmap a.files, hmap b.files, h]
  rw [summary, summary, hlength, hcount, hcount, hcount, hcolors]

/-! ## Reading where others were rewritten -/

namespace FileTree

variable {tree after : FileTree}

/-- A path leads to the same place, or nowhere for the same reason, if
directories and names of files are the same. -/
theorem resolve_eq_of_names (hsame : tree.SameDirectories after)
    (hnames : ∀ names, (after.find? names).isSome = (tree.find? names).isSome)
    (path : Path) :
    after.resolve path = tree.resolve path := by
  have henter : after.enter = tree.enter := by
    funext names name
    rw [enter, enter, hsame.directories, hnames]
  rw [resolve, resolve, henter, hsame.startOf_eq]

theorem read_error_congr (hsame : tree.SameDirectories after)
    (hnames : ∀ names, (after.find? names).isSome = (tree.find? names).isSome)
    {path : Path} {error : FileError} (h : tree.read path = .error error) :
    after.read path = .error error := by
  unfold read at h ⊢
  rw [resolve_eq_of_names hsame hnames]
  cases hresolve : tree.resolve path with
  | error cause =>
    rw [hresolve] at h
    exact h
  | ok names =>
    rw [hresolve] at h
    dsimp only at h ⊢
    cases hfound : tree.find? names with
    | some content =>
      rw [hfound] at h
      cases h
    | none =>
      have hnone : after.find? names = none := by
        rw [← Option.isNone_iff_eq_none, ← Option.isSome_eq_false_iff, hnames,
          hfound]
        rfl
      rw [hfound] at h
      rw [hnone, hsame.directories]
      exact h

/-- Both paths lead to the same place. -/
def sharesPlace (tree : FileTree) (a b : Path) : Bool :=
  (tree.resolve a).toOption = (tree.resolve b).toOption

/-- How many of the paths lead where a path leads. -/
def countSame (tree : FileTree) (paths : List Path) (path : Path) : Nat :=
  paths.countP (tree.sharesPlace path)

section Places

variable {a b : Path} {own names : List Text}

theorem sharesPlace_eq (ha : tree.IsPlace a own) (hb : tree.IsPlace b names) :
    tree.sharesPlace a b = decide (own = names) := by
  rw [sharesPlace, ha.resolve, hb.resolve, decide_eq_decide]
  simp only [Except.toOption, Option.some.injEq]

/-- Paths to the same file end in the same name. -/
theorem IsPlace.name_eq (ha : tree.IsPlace a names)
    (hb : tree.IsPlace b names) :
    a.name = b.name := by
  obtain ⟨above, hown, _⟩ := exists_parent ha.resolve ha.file
  obtain ⟨other, hother, _⟩ := exists_parent hb.resolve hb.file
  exact List.singleton_inj.mp (List.append_inj' (hown.symm.trans hother) rfl).2

theorem IsPlace.countSame_eq (ha : tree.IsPlace a names)
    (hb : tree.IsPlace b names) (paths : List Path) :
    tree.countSame paths a = tree.countSame paths b := by
  unfold countSame sharesPlace
  rw [ha.resolve, hb.resolve]

end Places

end FileTree

/-! ## One file after the other -/

namespace Session

variable {session : Session} {tree after : FileTree} {path : Path}
  {names : List Text} {content : Bytes}

/-- The content of a file after it was processed, outside a dry run. -/
def rewritten (session : Session) (path : Path) (content : Bytes) : Bytes :=
  (session.output? path content).getD content

/-- What processing a file ends in that cannot be read. -/
def refuse (session : Session) (path : Path) (error : FileError) :
    Except FileError FileReport :=
  match session.config.kindOf? path with
  | none => .ok { path, dryRun := session.options.dryRun, status := .skipped }
  | some kind =>
    if error.cause = .nullCharacter then .error error
    else .ok { path, kind := some kind, dryRun := session.options.dryRun,
               status := .error, error := some error.message }

theorem process_of_read_error {error : FileError}
    (h : tree.read path = .error error) :
    session.process tree path = ⟨session.refuse path error, tree, []⟩ := by
  have htext : tree.readText path = .error (.file error) := by
    rw [FileTree.readText, h]
  unfold process refuse
  cases session.config.kindOf? path with
  | none => rfl
  | some kind =>
    dsimp only
    rw [htext]
    dsimp only
    rw [FileTree.ReadError.stop?]
    by_cases hnull : error.cause = .nullCharacter
    · rw [if_pos hnull, if_pos hnull]
    · rw [if_neg hnull, if_neg hnull]
      rfl

/-- The name of a path decides what its file is rewritten to. -/
theorem output?_congr {a b : Path} (h : a.name = b.name) (content : Bytes) :
    session.output? a content = session.output? b content := by
  have hkind : session.config.kindOf? a = session.config.kindOf? b := by
    rw [Config.kindOf?, Config.kindOf?, Path.suffix, Path.suffix, h]
  unfold output? outcome
  rw [hkind]
  cases session.config.kindOf? b with
  | none => rfl
  | some kind =>
    rw [Option.bind_some, Option.bind_some]
    cases Utf8.decode content with
    | error fault => rfl
    | ok source =>
      dsimp only
      cases Converted.ofSource session.convert session.config kind source <;>
        rfl

/-- Outside dry runs and without backups, processing a file rewrites it and
nothing else, and what is told of it is decided by its content. -/
theorem process_plain (session : Session) (hplace : tree.IsPlace path names)
    (hfound : tree.find? names = some content)
    (hreal : session.options.dryRun = false)
    (hbackup : session.options.backup = false) :
    ∃ report, (session.process tree path).result = .ok report ∧
      report.account = (session.tell path content).account ∧
      tree.SameDirectories (session.process tree path).tree ∧
      ∀ other, (session.process tree path).tree.find? other =
        if other = names then some (session.rewritten path content)
        else tree.find? other := by
  unfold rewritten
  cases houtput : session.output? path content with
  | none =>
    obtain ⟨hresult, htree⟩ :=
      process_quiet session hplace.resolve hfound (Or.inl houtput)
    rw [hresult, htree]
    refine ⟨_, rfl, rfl, .refl tree, fun other => ?_⟩
    split
    · next heq => rw [heq, hfound, Option.getD_none]
    · rfl
  | some new =>
    obtain ⟨text, rfl⟩ := exists_text_of_output? houtput
    obtain ⟨hresult, htree⟩ :=
      process_saving hplace.resolve hfound houtput hreal
    rw [save_plain hplace (session.path_tell path content) hbackup]
      at hresult htree
    rw [hresult, htree]
    exact ⟨_, rfl, rfl, .put hplace _, fun other =>
      FileTree.find?_put _ _ _ other⟩

/-- What a tree holds during a real run without backups: every file was
rewritten once for each path to it. -/
structure Rewritten (session : Session) (tree : FileTree) (done : List Path)
    (after : FileTree) :
    Prop where
  directories : tree.SameDirectories after
  names : ∀ names, (after.find? names).isSome = (tree.find? names).isSome
  files : ∀ path names content, tree.IsPlace path names →
    tree.find? names = some content →
    after.find? names =
      some ((session.rewritten path)^[tree.countSame done path] content)

namespace Rewritten

theorem refl (session : Session) (tree : FileTree) :
    session.Rewritten tree [] tree where
  directories := .refl tree
  names := fun _ => rfl
  files := fun _ _ _ _ hfound => hfound

theorem countSame_concat (done : List Path) (last : Path) (tree : FileTree)
    (path : Path) :
    tree.countSame (done ++ [last]) path =
      tree.countSame done path + if tree.sharesPlace path last then 1
        else 0 := by
  rw [FileTree.countSame, FileTree.countSame, List.countP_append,
    List.countP_singleton]

/-- A path that cannot be read changes nothing. -/
theorem concat_unread {done : List Path} (h : session.Rewritten tree done after)
    (hunread : ∀ content, tree.read path ≠ .ok content) :
    session.Rewritten tree (done ++ [path]) after where
  directories := h.directories
  names := h.names
  files := by
    intro other names content hplace hfound
    have hnot : tree.sharesPlace other path = false := by
      rw [FileTree.sharesPlace, hplace.resolve, decide_eq_false_iff_not]
      intro hshared
      cases hresolve : tree.resolve path with
      | error cause =>
        rw [hresolve] at hshared
        cases hshared
      | ok location =>
        rw [hresolve] at hshared
        obtain rfl := Option.some.inj hshared
        exact hunread content
          (FileTree.read_eq_ok_iff.mpr ⟨names, hresolve, hfound⟩)
    rw [countSame_concat, hnot, if_neg Bool.false_ne_true, Nat.add_zero]
    exact h.files other names content hplace hfound

/-- A file that is rewritten once more. -/
theorem concat_read {done : List Path} {last : FileTree}
    (h : session.Rewritten tree done after) (hplace : tree.IsPlace path names)
    (hfound : tree.find? names = some content)
    (hdirectories : after.SameDirectories last)
    (hfiles : ∀ other, last.find? other = if other = names then
      some (session.rewritten path
      ((session.rewritten path)^[tree.countSame done path] content)) else
      after.find? other) :
    session.Rewritten tree (done ++ [path]) last where
  directories := h.directories.trans hdirectories
  names := by
    intro other
    rw [hfiles]
    split
    · next heq => rw [heq, hfound, Option.isSome_some, Option.isSome_some]
    · exact h.names other
  files := by
    intro other own old hown hold
    rw [countSame_concat, hfiles, FileTree.sharesPlace_eq hown hplace]
    by_cases heq : own = names
    · -- Both paths lead to the file, so they end in the same name.
      subst heq
      obtain rfl : old = content := Option.some.inj (hold.symm.trans hfound)
      have hrewritten : session.rewritten other = session.rewritten path := by
        funext bytes
        rw [rewritten, rewritten, output?_congr (hown.name_eq hplace)]
      rw [if_pos rfl, if_pos (decide_eq_true rfl), hown.countSame_eq hplace,
        hrewritten, Function.iterate_succ_apply']
    · rw [if_neg heq, decide_eq_false heq, if_neg Bool.false_ne_true,
        Nat.add_zero]
      exact h.files other own old hown hold

end Rewritten

/-! ## Both runs -/

/-- A dry run. -/
def dryRun (convert : Converter) (config : Config) : Session :=
  ⟨convert, config, { dryRun := true }⟩

/-- The same run, which writes what it converts and keeps no backups. -/
def realRun (convert : Converter) (config : Config) : Session :=
  ⟨convert, config, {}⟩

/-- What is told of a file stays the same when it was rewritten for each of
these paths to it. -/
def TellsSame (session : Session) (tree : FileTree) (done : List Path)
    (path : Path) : Prop :=
  ∀ content, tree.read path = .ok content →
    (session.tell path
        ((session.rewritten path)^[tree.countSame done path] content)).account =
      (session.tell path content).account

section Both

variable {convert : Converter} {config : Config}

theorem account_tell (path : Path) (content : Bytes) :
    ((dryRun convert config).tell path content).account =
      ((realRun convert config).tell path content).account := by
  unfold tell
  rw [show (dryRun convert config).config = (realRun convert config).config from
    rfl]
  cases (realRun convert config).config.kindOf? path with
  | none => rfl
  | some kind =>
    dsimp only
    rw [show (dryRun convert config).outcome path kind content =
      (realRun convert config).outcome path kind content from rfl]
    cases (realRun convert config).outcome path kind content <;> rfl

theorem refuse_cases (convert : Converter) (config : Config) (path : Path)
    (error : FileError) :
    (∃ stop, (dryRun convert config).refuse path error = .error stop ∧
        (realRun convert config).refuse path error = .error stop) ∨
      ∃ predicted actual,
        (dryRun convert config).refuse path error = .ok predicted ∧
        (realRun convert config).refuse path error = .ok actual ∧
        predicted.account = actual.account := by
  unfold refuse
  rw [show (dryRun convert config).config = (realRun convert config).config from
    rfl]
  cases (realRun convert config).config.kindOf? path with
  | none => exact Or.inr ⟨_, _, rfl, rfl, rfl⟩
  | some kind =>
    dsimp only
    by_cases hnull : error.cause = .nullCharacter
    · rw [if_pos hnull, if_pos hnull]
      exact Or.inl ⟨error, rfl, rfl⟩
    · rw [if_neg hnull, if_neg hnull]
      exact Or.inr ⟨_, _, rfl, rfl, rfl⟩

/-- Both runs stop at a file, or both report on it; and then they tell the same
exactly if the content that the file has by then is told of as the content that
it had. -/
theorem process_both (hwell : tree.WellFormed) {done : List Path}
    (h : (realRun convert config).Rewritten tree done after) (path : Path) :
    (∃ stop, ((dryRun convert config).process tree path).result = .error stop ∧
        ((realRun convert config).process after path).result = .error stop) ∨
      ∃ predicted actual,
        ((dryRun convert config).process tree path).result = .ok predicted ∧
        ((dryRun convert config).process tree path).tree = tree ∧
        ((realRun convert config).process after path).result = .ok actual ∧
        (realRun convert config).Rewritten tree (done ++ [path])
          ((realRun convert config).process after path).tree ∧
        (predicted.account = actual.account ↔
          (realRun convert config).TellsSame tree done path) := by
  cases hread : tree.read path with
  | error error =>
    have hreadAfter := FileTree.read_error_congr h.directories h.names hread
    have hunread : ∀ content, tree.read path ≠ .ok content := by
      intro content hcontent
      cases hread.symm.trans hcontent
    rw [process_of_read_error hread, process_of_read_error hreadAfter]
    rcases refuse_cases convert config path error with
      hstop | ⟨predicted, actual, hpredicted, hactual, haccount⟩
    · exact Or.inl hstop
    · right
      refine ⟨predicted, actual, hpredicted, rfl, hactual,
        h.concat_unread hunread, ?_⟩
      exact iff_of_true haccount fun content hcontent =>
        absurd hcontent (hunread content)
  | ok content =>
    right
    obtain ⟨names, hplace, hfound⟩ := FileTree.IsPlace.of_read hwell hread
    have hplaceAfter := h.directories.isPlace hplace
    have hfoundAfter := h.files path names content hplace hfound
    obtain ⟨hpredicted, htree⟩ := process_quiet (dryRun convert config)
      hplace.resolve hfound (Or.inr rfl)
    obtain ⟨actual, hactual, haccount, hdirectories, hfiles⟩ :=
      process_plain (realRun convert config) hplaceAfter hfoundAfter rfl rfl
    refine ⟨_, actual, hpredicted, htree, hactual,
      h.concat_read hplace hfound hdirectories hfiles, ?_⟩
    rw [account_tell, haccount, eq_comm, TellsSame]
    constructor
    · intro htells other hother
      obtain rfl : content = other := Except.ok.inj (hread.symm.trans hother)
      exact htells
    · exact fun htells => htells content hread

theorem forall_split_cons {α : Type} {p : List α → α → Prop} {first : α}
    {rest : List α} :
    (∀ before item others, first :: rest = before ++ item :: others →
      p before item) ↔
      p [] first ∧ ∀ before item others, rest = before ++ item :: others →
        p (first :: before) item := by
  constructor
  · intro h
    refine ⟨h [] first rest rfl, fun before item others hrest => ?_⟩
    exact h (first :: before) item others (by rw [hrest, List.cons_append])
  · rintro ⟨hfirst, hrest⟩ before item others hsplit
    cases before with
    | nil =>
      obtain ⟨rfl, rfl⟩ := List.cons.inj hsplit
      exact hfirst
    | cons other before =>
      obtain ⟨rfl, rfl⟩ := List.cons.inj hsplit
      exact hrest before item others rfl

/-- Both runs stop with the same error, or both report on all files; and then
they tell the same exactly if this is so for each file. -/
theorem forEach_both (hwell : tree.WellFormed) (rest : List Path)
    {done : List Path}
    (h : (realRun convert config).Rewritten tree done after) :
    (∃ stop, (Step.forEach (dryRun convert config).processAloud tree
      rest).result = .error stop ∧
        (Step.forEach (realRun convert config).processAloud after
          rest).result = .error stop) ∨
      ∃ predicted actual,
        (Step.forEach (dryRun convert config).processAloud tree
          rest).result = .ok predicted ∧
        (Step.forEach (realRun convert config).processAloud after
          rest).result = .ok actual ∧
        (predicted.map FileReport.account = actual.map FileReport.account ↔
          ∀ before path others, rest = before ++ path :: others →
            (realRun convert config).TellsSame tree (done ++ before) path) := by
  induction rest generalizing done after with
  | nil =>
    refine Or.inr ⟨[], [], rfl, rfl,
      iff_of_true rfl fun before path others hsplit => ?_⟩
    cases before <;> cases hsplit
  | cons path rest ih =>
    rcases process_both hwell h path with
      ⟨stop, hdry, hreal⟩ | ⟨first, made, hdry, hdryTree, hreal,
        hrewritten, hfirst⟩
    · rw [← result_processAloud] at hdry hreal
      exact Or.inl ⟨stop, Step.forEach_cons_error hdry rest,
        Step.forEach_cons_error hreal rest⟩
    · rw [← result_processAloud] at hdry hreal
      rw [← tree_processAloud] at hdryTree hrewritten
      obtain ⟨hdryResult, _⟩ := Step.forEach_cons hdry rest
      obtain ⟨hrealResult, _⟩ := Step.forEach_cons hreal rest
      rw [hdryResult, hrealResult, hdryTree]
      rcases ih hrewritten with ⟨stop, hdryRest, hrealRest⟩ |
        ⟨predicted, actual, hdryRest, hrealRest, hrest⟩
      · rw [hdryRest, hrealRest]
        exact Or.inl ⟨stop, rfl, rfl⟩
      · rw [hdryRest, hrealRest]
        refine Or.inr ⟨first :: predicted, made :: actual, rfl, rfl, ?_⟩
        rw [List.map_cons, List.map_cons, List.cons.injEq, hfirst, hrest,
          forall_split_cons, List.append_nil]
        simp only [List.append_assoc, List.singleton_append]

end Both

end Session

/-- A run tells the same of each file as another one, and the same at the
end. -/
structure RunReport.Predicts (predicted actual : RunReport) : Prop where
  files : predicted.files.map FileReport.account =
    actual.files.map FileReport.account
  summary : predicted.summary = actual.summary

namespace Session

theorem tellsSame_of_countSame {session : Session} {tree : FileTree}
    {done : List Path} {path : Path} (h : tree.countSame done path = 0) :
    session.TellsSame tree done path := by
  intro content _
  rw [h, Function.iterate_zero_apply]

/-- A dry run and the real run stop with the same error, or both report on all
files; and then the dry run predicts the real one exactly if each file that is
collected again is told of in the same way after it was rewritten for the paths
to it before.  Two paths share a place by their names; links, which give a file
another place, and permissions are no part of a tree. -/
theorem predicts_iff (convert : Converter) (config : Config) {tree : FileTree}
    (hwell : tree.WellFormed) (paths : List Path) :
    (∃ stop, ((dryRun convert config).run tree paths).result = .error stop ∧
        ((realRun convert config).run tree paths).result = .error stop) ∨
      ∃ files predicted actual, collectFiles tree config paths = .ok files ∧
        ((dryRun convert config).run tree paths).result = .ok predicted ∧
        ((realRun convert config).run tree paths).result = .ok actual ∧
        (predicted.Predicts actual ↔
          ∀ before path others, files = before ++ path :: others →
            0 < tree.countSame before path →
              (realRun convert config).TellsSame tree before path) := by
  cases hfiles : collectFiles tree config paths with
  | error error =>
    exact Or.inl ⟨error,
      run_of_collectFiles_error (dryRun convert config) hfiles,
      run_of_collectFiles_error (realRun convert config) hfiles⟩
  | ok files =>
    obtain ⟨hdry, _⟩ := run_of_collectFiles (dryRun convert config) hfiles
    obtain ⟨hreal, _⟩ := run_of_collectFiles (realRun convert config) hfiles
    rw [hdry, hreal]
    rcases forEach_both hwell files (.refl (realRun convert config) tree) with
      ⟨stop, hdryFiles, hrealFiles⟩ | ⟨predicted, actual, hdryFiles,
        hrealFiles, hiff⟩
    · rw [hdryFiles, hrealFiles]
      exact Or.inl ⟨stop, rfl, rfl⟩
    · rw [hdryFiles, hrealFiles]
      simp only [List.nil_append] at hiff
      refine Or.inr ⟨files, _, _, rfl, rfl, rfl,
        fun h before path others hsplit _ => ?_, fun h => ?_⟩
      · exact hiff.mp h.files before path others hsplit
      · have htells := hiff.mpr fun before path others hsplit =>
          (Nat.eq_zero_or_pos (tree.countSame before path)).elim
            tellsSame_of_countSame (h before path others hsplit)
        exact ⟨htells, RunReport.summary_congr htells⟩

/-- Every color converts to the same text. -/
def oneColor : Converter := fun _ => some "oklch(1 0 0)".toList

/-- A tree with a file that is converted, one that fails, one without colors and
an empty directory. -/
def mixedTree : FileTree :=
  { files := [(["a.ts".toList], Utf8.encode "'x': '#fff'".toList),
      (["b.css".toList], [0xff]),
      (["c.ts".toList], Utf8.encode "'x': 'red'".toList)]
    directories := [["d".toList]] }

/-- The three files, and another text for the last one. -/
def mixedPaths : List Path :=
  ["a.ts".toList, "b.css".toList, "c.ts".toList,
    "d/../c.ts".toList].map Path.ofText

/-- The file that is collected twice has nothing to convert, so the real run is
predicted. -/
theorem predicts_mixed :
    mixedTree.WellFormed ∧ (collectFiles mixedTree {} mixedPaths).toOption =
      some mixedPaths ∧
      mixedTree.countSame (mixedPaths.take 3) (Path.ofText "d/../c.ts".toList) =
        1 ∧
      ∃ predicted actual,
        ((dryRun oneColor {}).run mixedTree mixedPaths).result = .ok predicted ∧
        ((realRun oneColor {}).run mixedTree mixedPaths).result = .ok actual ∧
        predicted.Predicts actual := by
  have hwell : mixedTree.WellFormed := FileTree.wellFormed_of_files (by decide)
  have hok : ((dryRun oneColor {}).run mixedTree mixedPaths).result.isOk =
      true := by
    decide +kernel
  have hcollected : (collectFiles mixedTree {} mixedPaths).toOption =
      some mixedPaths := by
    decide +kernel
  refine ⟨hwell, hcollected, by decide +kernel, ?_⟩
  rcases predicts_iff oneColor {} hwell mixedPaths with
    ⟨stop, hstop, _⟩ | ⟨files, predicted, actual, hfiles, hpredicted,
      hactual, hiff⟩
  · rw [hstop] at hok
    cases hok
  · rw [hfiles] at hcollected
    obtain rfl := Option.some.inj hcollected
    refine ⟨predicted, actual, hpredicted, hactual, hiff.mpr ?_⟩
    rw [mixedPaths, List.map_cons, List.map_cons, List.map_cons, List.map_cons,
      List.map_nil, forall_split_cons, forall_split_cons, forall_split_cons,
      forall_split_cons]
    refine ⟨fun hcount => absurd hcount (by decide +kernel),
      fun hcount => absurd hcount (by decide +kernel),
      fun hcount => absurd hcount (by decide +kernel),
        fun _ content hread => ?_, ?_⟩
    · have hcontent : mixedTree.read (Path.ofText "d/../c.ts".toList) =
          .ok (Utf8.encode "'x': 'red'".toList) := rfl
      rw [hcontent] at hread
      obtain rfl := Except.ok.inj hread
      decide +kernel
    · rintro before path others hsplit
      exact absurd hsplit.symm (by simp)

/-- A tree with a file and an empty directory. -/
def aliasTree : FileTree :=
  { files := [(["a.ts".toList], Utf8.encode "'x': '#fff'".toList)],
    directories := [["d".toList]] }

/-- Two texts for the file. -/
def aliasPaths : List Path := ["a.ts".toList,
  "d/../a.ts".toList].map Path.ofText

/-- The real run finds the file converted when it comes to it again. -/
theorem not_predicts_alias :
    aliasTree.WellFormed ∧
      ∃ predicted actual,
        ((dryRun oneColor {}).run aliasTree aliasPaths).result = .ok predicted ∧
        ((realRun oneColor {}).run aliasTree aliasPaths).result = .ok actual ∧
        ¬ predicted.Predicts actual := by
  have hsummary :
      ((dryRun oneColor {}).run aliasTree aliasPaths).result.toOption.map
        RunReport.summary ≠
        ((realRun oneColor {}).run aliasTree aliasPaths).result.toOption.map
          RunReport.summary := by
    decide +kernel
  obtain ⟨predicted, hpredicted⟩ : ∃ predicted,
      ((dryRun oneColor {}).run aliasTree aliasPaths).result = .ok predicted :=
    Css.exists_of_isOk (by decide +kernel)
  obtain ⟨actual, hactual⟩ : ∃ actual,
      ((realRun oneColor {}).run aliasTree aliasPaths).result = .ok actual :=
    Css.exists_of_isOk (by decide +kernel)
  refine ⟨FileTree.wellFormed_of_files (by decide), predicted, actual,
    hpredicted, hactual, ?_⟩
  intro hpredicts
  rw [hpredicted, hactual] at hsummary
  exact hsummary (congrArg some hpredicts.summary)

end Session

end OklchGate
