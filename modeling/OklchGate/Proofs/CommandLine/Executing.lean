import OklchGate.CommandLine.Execute
import OklchGate.Proofs.Run.Collecting
import OklchGate.Proofs.Run.Ordering

/-!
# What a command line does

A command line that only reads leaves all files as they are.  A command that was
carried out exits with 0, whatever became of each file; two kinds of paths stop
it: one that is too long, and one with a null character that would be opened.

There are five groups.

* `Path.mem_toText_iff` and `stops_iff`: null characters in paths.
* `Step.tree_forEach` and `Step.isOk_forEach_iff`, by induction on the items of
  a loop.
* Single files: `isOk_process_iff` and `isOk_scanPath_iff`.
* `Passes`, what is asked of the paths of a run, and the two commands.
* `execute_readOnly`, which puts this together.
-/

namespace OklchGate

/-! ## Null characters -/

theorem Text.mem_joinWith_iff {separator : Text} {c : Char} (hc : c ∉ separator)
    {texts : List Text} :
    c ∈ joinWith separator texts ↔ ∃ text ∈ texts, c ∈ text := by
  induction texts with
  | nil => simp [joinWith]
  | cons first rest ih =>
    cases rest with
    | nil => simp [joinWith]
    | cons second rest =>
      rw [joinWith, List.mem_append, List.mem_append, or_iff_left hc, ih]
      · exact (List.exists_mem_cons_iff _ first _).symm
      · exact List.cons_ne_nil second rest

theorem Path.mem_toText_iff {path : Path} {c : Char} (hdot : c ≠ '.')
    (hslash : c ≠ '/') :
    c ∈ path.toText ↔ c ∈ path.root ∨ ∃ name ∈ path.names, c ∈ name := by
  by_cases hempty : path.root = [] ∧ path.names = []
  · have htext : path.toText = ['.'] := by simp [toText, hempty]
    rw [htext, hempty.1, hempty.2]
    simp [hdot]
  · have hnot : c ∉ ['/'] := by simpa using hslash
    rw [path.toText_eq hempty, List.mem_append, Text.mem_joinWith_iff hnot]

/-- What a path with a null character stands for is only the path. -/
theorem StandsFor.eq_of_null {tree : FileTree} {config : Config}
    {path file : Path} (hnamed : tree.Named)
    (h : StandsFor tree config path file) (hnull : '\x00' ∈ file.toText) :
    file = path := by
  rcases h with _ | ⟨hpath, -, hfile, -⟩
  · rfl
  · have hpathNull : '\x00' ∉ path.toText := by
      intro hmem
      rw [FileTree.resolve, if_pos (List.contains_iff_mem.mpr hmem)] at hpath
      cases hpath
    rw [Path.mem_toText_iff (by decide) (by decide)] at hnull hpathNull
    obtain ⟨stored, hstored, hnames⟩ := (FileTree.isSome_find?_iff _ _).mp hfile
    rcases hnull with hroot | ⟨name, hname, hmem⟩
    · exact absurd (Or.inl hroot) hpathNull
    · rcases List.mem_append.mp hname with hown | hbelow
      · exact absurd (Or.inr ⟨name, hown, hmem⟩) hpathNull
      · have hlisted : name ∈ stored.1 :=
          hnames ▸ List.mem_append_right _ hbelow
        exact absurd hmem (hnamed stored hstored name hlisted).2.2.2

/-- Reading a file stops a run exactly if its path holds a null character. -/
theorem FileTree.stops_iff (tree : FileTree) (path : Path) :
    (∃ error stop, tree.readText path = .error error ∧ error.stop? =
      some stop) ↔ '\x00' ∈ path.toText := by
  constructor
  · rintro ⟨error, stop, hread, hstop⟩
    exact List.contains_iff_mem.mp (FileTree.stop?_of_readText hread hstop).2
  · intro hnull
    have hresolve : tree.resolve path = .error .nullCharacter := by
      rw [resolve, if_pos (List.contains_iff_mem.mpr hnull)]
    refine ⟨.file ⟨.nullCharacter, path⟩, ⟨.nullCharacter, path⟩, ?_, rfl⟩
    rw [readText, read, hresolve]

/-! ## Loops -/

theorem isOk_map {ε α β : Type} (f : α → β) (result : Except ε α) :
    (result.map f).isOk = result.isOk := by
  cases result <;> rfl

namespace Step

variable {α β γ : Type} {act : FileTree → α → Step β}

/-- A loop leaves the files as they are if each round does. -/
theorem tree_forEach (h : ∀ tree item, (act tree item).tree = tree)
    (tree : FileTree) (items : List α) :
    (forEach act tree items).tree = tree := by
  induction items with
  | nil => rfl
  | cons item rest ih =>
    rw [forEach, andThen]
    split
    · exact h tree item
    · show (forEach act (act tree item).tree rest).tree = tree
      rw [h, ih]

/-- A loop goes on to the end exactly if each round goes on. -/
theorem isOk_forEach_iff {goesOn : α → Prop}
    (h : ∀ tree item, (act tree item).result.isOk = true ↔ goesOn item)
    (tree : FileTree) (items : List α) :
    (forEach act tree items).result.isOk = true ↔ ∀ item ∈ items,
      goesOn item := by
  induction items generalizing tree with
  | nil => exact iff_of_true rfl nofun
  | cons item rest ih =>
    rw [List.forall_mem_cons, ← h tree item]
    cases hresult : (act tree item).result with
    | error error =>
      rw [forEach_cons_error hresult]
      exact iff_of_false Bool.false_ne_true fun hall =>
        Bool.false_ne_true hall.1
    | ok value =>
      rw [(forEach_cons hresult rest).1, isOk_map, ih]
      exact (and_iff_right rfl).symm

/-- What comes after a step that goes on and keeps the files. -/
theorem andThen_ok {step : Step β} {next : β → FileTree → Step γ}
    (hnext : ∀ value tree, (next value tree).result.isOk = true ∧
      (next value tree).tree = tree) :
    (step.andThen next).result.isOk = step.result.isOk ∧
      (step.andThen next).tree = step.tree := by
  rw [andThen]
  cases hresult : step.result with
  | error error => exact ⟨rfl, rfl⟩
  | ok value => exact hnext value step.tree

end Step

/-! ## Single files -/

/-- A path that cannot even be tried: it is one of a known kind with a null
character. -/
def Unopenable (config : Config) (path : Path) : Prop :=
  (config.kindOf? path).isSome = true ∧ '\x00' ∈ path.toText

namespace Session

/-- Every file gets its report, whatever becomes of it, unless its path cannot
be tried. -/
theorem isOk_process_iff (session : Session) (tree : FileTree) (path : Path) :
    (session.process tree path).result.isOk = true ↔
      ¬ Unopenable session.config path := by
  rw [Unopenable, ← tree.stops_iff path]
  cases hkind : session.config.kindOf? path with
  | none =>
    unfold process
    rw [hkind]
    exact iff_of_true rfl fun h => Bool.false_ne_true h.1
  | some kind =>
    cases htext : tree.readText path with
    | error error =>
      unfold process
      rw [hkind]
      dsimp only
      rw [htext]
      dsimp only
      cases hstop : error.stop? with
      | none =>
        refine iff_of_true rfl ?_
        rintro ⟨-, _, _, ⟨⟩, hother⟩
        cases hstop.symm.trans hother
      | some stop =>
        exact iff_of_false Bool.false_ne_true fun hnot =>
          hnot ⟨rfl, error, stop, rfl, hstop⟩
    | ok source =>
      have hnot : ¬ ((some kind).isSome = true ∧ ∃ error stop,
          (Except.ok source : Except FileTree.ReadError Text) = .error error ∧
            error.stop? = some stop) := by
        rintro ⟨-, _, _, ⟨⟩, -⟩
      refine iff_of_true ?_ hnot
      cases hdone : Converted.ofSource session.convert session.config kind
        source with
      | error error =>
        rw [process_of_error hkind htext hdone]
        rfl
      | ok done =>
        rw [process_of_ofSource hkind htext hdone]
        split <;> rfl

/-- A dry run writes no file. -/
theorem tree_process_of_dryRun {session : Session}
    (hdry : session.options.dryRun = true) (tree : FileTree) (path : Path) :
    (session.process tree path).tree = tree := by
  cases hkind : session.config.kindOf? path with
  | none =>
    unfold process
    rw [hkind]
  | some kind =>
    cases htext : tree.readText path with
    | error error =>
      unfold process
      rw [hkind]
      dsimp only
      rw [htext]
      dsimp only
      split <;> rfl
    | ok source =>
      cases hdone : Converted.ofSource session.convert session.config kind
        source with
      | error error => rw [process_of_error hkind htext hdone]
      | ok done =>
        have hreal : ¬ (done.status = .converted ∧ session.options.dryRun =
            false) := by
          rw [hdry]
          exact fun h => nomatch h.2
        rw [process_of_ofSource hkind htext hdone, if_neg hreal]

end Session

namespace CommandLine

/-- Every file is scanned or passed over with a line about it, unless its path
cannot be tried. -/
theorem isOk_scanPath_iff (session : Session) (tree : FileTree) (path : Path) :
    (scanPath session tree path).result.isOk = true ↔
      ¬ Unopenable session.config path := by
  rw [Unopenable, ← tree.stops_iff path]
  unfold scanPath
  cases hkind : session.config.kindOf? path with
  | none =>
    rw [if_pos (by rfl)]
    exact iff_of_true rfl fun h => Bool.false_ne_true h.1
  | some kind =>
    rw [if_neg (by exact Bool.false_ne_true)]
    unfold Session.scanFile
    cases htext : tree.readText path with
    | error error =>
      dsimp only [Session.ScanError.stop?]
      cases hstop : error.stop? with
      | none =>
        refine iff_of_true rfl ?_
        rintro ⟨-, _, _, ⟨⟩, hother⟩
        cases hstop.symm.trans hother
      | some stop =>
        exact iff_of_false Bool.false_ne_true fun hnot =>
          hnot ⟨rfl, error, stop, rfl, hstop⟩
    | ok source =>
      refine iff_of_true ?_ ?_
      · dsimp only
        cases Session.scanSource session.convert (session.config.kindOf? path)
          source <;> rfl
      · rintro ⟨-, _, _, ⟨⟩, -⟩

theorem tree_scanPath (session : Session) (tree : FileTree) (path : Path) :
    (scanPath session tree path).tree = tree := by
  unfold scanPath
  split
  · rfl
  · split
    · split <;> rfl
    · rfl

end CommandLine

/-! ## Runs -/

/-- What does not stop a run: no path is too long, of something that is listed
or that lies below a listed directory, and every listed path can be tried. -/
structure Passes (tree : FileTree) (config : Config) (paths : List Path) :
    Prop where
  short : ∀ path ∈ paths, ∀ entry, ¬ Overlong tree path entry
  opens : ∀ path ∈ paths, ¬ Unopenable config path

section Runs

variable {tree : FileTree} {paths : List Path}

/-- The files that are collected can be tried if what is listed can. -/
theorem passes_iff (hnamed : tree.Named) (hplain : ∀ path ∈ paths, path.Plain)
    (config : Config) :
    (∃ files, collectFiles tree config paths = .ok files ∧
        ∀ file ∈ files, ¬ Unopenable config file) ↔
          Passes tree config paths := by
  rcases collectFiles_cases tree config paths with
    ⟨files, hfiles, hcollects, hshort⟩ | ⟨path, hpath, entry, hlong, hstops⟩
  · constructor
    · rintro ⟨others, hothers, hopens⟩
      obtain rfl : files = others := Except.ok.inj (hfiles.symm.trans hothers)
      refine ⟨hshort, fun path hpath hnot => hopens path ?_ hnot⟩
      have hdirectory : tree.leadsToDirectory path = false := by
        rw [FileTree.leadsToDirectory, FileTree.resolve,
          if_pos (List.contains_iff_mem.mpr hnot.2)]
      exact (hcollects.mem_iff hnamed hplain path).mpr
        ⟨path, hpath, .listed hdirectory⟩
    · rintro ⟨-, hopens⟩
      refine ⟨files, hfiles, fun file hfile hnot => ?_⟩
      obtain ⟨path, hpath, hstands⟩ := hcollects.sound file hfile
      rw [hstands.eq_of_null hnamed hnot.2] at hnot
      exact hopens path hpath hnot
  · refine iff_of_false ?_ fun h => h.short path hpath entry hlong
    rintro ⟨files, hfiles, -⟩
    cases hstops.symm.trans hfiles

variable (session : Session)

theorem isOk_run_iff (hnamed : tree.Named)
    (hplain : ∀ path ∈ paths, path.Plain) :
    (session.run tree paths).result.isOk = true ↔
      Passes tree session.config paths := by
  rw [← passes_iff hnamed hplain]
  cases hfiles : collectFiles tree session.config paths with
  | error error =>
    rw [session.run_of_collectFiles_error hfiles]
    exact iff_of_false Bool.false_ne_true nofun
  | ok files =>
    have hround : ∀ tree path, (session.processAloud tree path).result.isOk =
      true ↔ ¬ Unopenable session.config path := by
      intro tree path
      rw [session.result_processAloud, session.isOk_process_iff]
    rw [(session.run_of_collectFiles hfiles).1, isOk_map,
      Step.isOk_forEach_iff hround]
    simp

theorem tree_run_of_dryRun (hdry : session.options.dryRun = true) :
    (session.run tree paths).tree = tree := by
  unfold Session.run
  split
  · rfl
  · refine Step.tree_forEach (fun tree path => ?_) tree _
    rw [session.tree_processAloud, Session.tree_process_of_dryRun hdry]

namespace CommandLine

theorem runConvert_eq (tree : FileTree) (paths : List Path) :
    (runConvert session tree paths).result.isOk =
      (session.run tree paths).result.isOk ∧
      (runConvert session tree paths).tree = (session.run tree paths).tree :=
  Step.andThen_ok fun _ _ => ⟨rfl, rfl⟩

theorem isOk_runScan_iff (hnamed : tree.Named)
    (hplain : ∀ path ∈ paths, path.Plain) :
    (runScan session tree paths).result.isOk = true ↔
      Passes tree session.config paths := by
  rw [← passes_iff hnamed hplain]
  unfold runScan
  cases hfiles : collectFiles tree session.config paths with
  | error error => exact iff_of_false Bool.false_ne_true nofun
  | ok files =>
    dsimp only
    rw [(Step.andThen_ok fun _ _ => ⟨rfl, rfl⟩).1,
      Step.isOk_forEach_iff (isOk_scanPath_iff session)]
    simp

theorem tree_runScan (tree : FileTree) (paths : List Path) :
    (runScan session tree paths).tree = tree := by
  unfold runScan
  split
  · rfl
  · rw [(Step.andThen_ok fun _ _ => ⟨rfl, rfl⟩).2,
      Step.tree_forEach (tree_scanPath session)]

end CommandLine

end Runs

/-! ## Command lines -/

namespace CommandLine

/-- The paths of a command line. -/
def Arguments.paths : Arguments → List Text
  | .nothing => []
  | .command _ settings => settings.paths

/-- The configuration that a command line is carried out with. -/
def Arguments.load (world : World) : Arguments → Except ConfigError Config
  | .nothing => .ok {}
  | .command _ settings =>
    Config.loadFrom world.tree
      (Config.choose settings.config world.configVariable)

/-- A command line that only reads: a scan, a dry run, one without paths, or one
whose configuration cannot be read or is not valid. -/
inductive ReadsOnly (world : World) : Arguments → Prop where
  | scan {settings : Settings} : ReadsOnly world (.command .scan settings)
  | dryRun {settings : Settings} (h : settings.dryRun = true) :
      ReadsOnly world (.command .convert settings)
  | noPaths {accepted : Arguments} (h : accepted.paths = []) :
    ReadsOnly world accepted
  | noConfig {accepted : Arguments} {error : ConfigError}
    (h : accepted.load world = .error error) : ReadsOnly world accepted

section Executing

variable {world : World} {arguments : List Text} {settings : Settings}
  {config : Config}

theorem execute_noPaths {accepted : Arguments}
    (h : Request.ofArguments arguments = .arguments accepted)
    (hpaths : accepted.paths = []) :
    (execute world arguments).exit = .ok 1 ∧ (execute world arguments).tree =
      world.tree := by
  unfold execute
  rw [h]
  cases accepted with
  | nothing => exact ⟨rfl, rfl⟩
  | command command settings =>
    replace hpaths : settings.paths = [] := hpaths
    dsimp only
    rw [hpaths]
    exact ⟨rfl, rfl⟩

theorem execute_command {command : Command}
    (h : Request.ofArguments arguments = .arguments (.command command settings))
    (hpaths : settings.paths ≠ []) :
    execute world arguments = runCommand world command settings := by
  unfold execute
  rw [h]
  dsimp only
  rw [if_neg (by rwa [List.isEmpty_iff])]

theorem runCommand_noConfig {command : Command} {error : ConfigError}
    (h : (Arguments.command command settings).load world = .error error) :
    (runCommand world command settings).exit = .ok 2 ∧
      (runCommand world command settings).tree = world.tree := by
  replace h : Config.loadFrom world.tree
    (Config.choose settings.config world.configVariable) = .error error := h
  unfold runCommand
  dsimp only
  rw [h]
  exact ⟨rfl, rfl⟩

/-- The exit code is 0 if a step was not stopped, and there is none if it
was. -/
theorem exit_cases {step : Step Unit} {passes : Prop}
    (h : step.result.isOk = true ↔ passes) :
    (step.result.map fun _ => 0) = .ok 0 ∧ passes ∨
      (∃ error, (step.result.map fun _ => 0) =
        (.error error : Except FileError Nat)) ∧ ¬ passes := by
  cases hresult : step.result with
  | error error =>
    rw [hresult] at h
    exact Or.inr ⟨⟨error, rfl⟩, fun hpasses =>
      Bool.false_ne_true (h.mpr hpasses)⟩
  | ok value =>
    rw [hresult] at h
    exact Or.inl ⟨rfl, h.mp rfl⟩

/-- A command with a configuration exits with 0, or it is stopped. -/
theorem runCommand_cases {command : Command} (hnamed : world.tree.Named)
    (h : (Arguments.command command settings).load world = .ok config) :
    (runCommand world command settings).exit = .ok 0 ∧
        Passes world.tree config (settings.paths.map Path.ofText) ∨
      (∃ error, (runCommand world command settings).exit = .error error) ∧
        ¬ Passes world.tree config (settings.paths.map Path.ofText) := by
  replace h : Config.loadFrom world.tree
    (Config.choose settings.config world.configVariable) = .ok config := h
  unfold runCommand
  dsimp only
  rw [h]
  cases command with
  | convert =>
    refine exit_cases ?_
    rw [(runConvert_eq _ _ _).1]
    exact isOk_run_iff _ hnamed Path.plain_of_mem_map
  | scan => exact exit_cases (isOk_runScan_iff _ hnamed Path.plain_of_mem_map)

theorem tree_runCommand {command : Command}
    (h : command = .scan ∨ settings.dryRun = true) :
    (runCommand world command settings).tree = world.tree := by
  unfold runCommand
  dsimp only
  split
  · rfl
  · next config _ =>
    cases command with
    | convert =>
      rcases h with hscan | hdry
      · cases hscan
      · show (runConvert _ _ _).tree = world.tree
        rw [(runConvert_eq _ _ _).2, tree_run_of_dryRun _ hdry]
    | scan => exact tree_runScan _ _ _

theorem ReadsOnly.tree_eq {accepted : Arguments} (h : ReadsOnly world accepted)
    (haccepted : Request.ofArguments arguments = .arguments accepted) :
    (execute world arguments).tree = world.tree := by
  by_cases hpaths : accepted.paths = []
  · exact (execute_noPaths haccepted hpaths).2
  · cases accepted with
    | nothing => exact absurd rfl hpaths
    | command command settings =>
      rw [execute_command haccepted hpaths]
      rcases h with _ | hdry | hnone | herror
      · exact tree_runCommand (Or.inl rfl)
      · exact tree_runCommand (Or.inr hdry)
      · exact absurd hnone hpaths
      · exact (runCommand_noConfig herror).2

/-- A command line that only reads leaves every file as it is.  It exits with 1
if it has no paths, and otherwise with 2 if there is no valid configuration.  In
all other cases, in a tree whose files have names that can stand in paths, it
exits with 0, unless its paths stop the run. -/
theorem execute_readOnly (world : World) {arguments : List Text}
    {accepted : Arguments}
    (h : Request.ofArguments arguments = .arguments accepted) :
    (ReadsOnly world accepted → (execute world arguments).tree = world.tree) ∧
      (accepted.paths = [] → (execute world arguments).exit = .ok 1) ∧
      (accepted.paths ≠ [] → ∀ error, accepted.load world = .error error →
        (execute world arguments).exit = .ok 2) ∧
      (world.tree.Named → accepted.paths ≠ [] → ∀ config,
        accepted.load world = .ok config →
        (execute world arguments).exit = .ok 0 ∧
            Passes world.tree config (accepted.paths.map Path.ofText) ∨
          (∃ error, (execute world arguments).exit = .error error) ∧
            ¬ Passes world.tree config (accepted.paths.map Path.ofText)) := by
  refine ⟨fun hreads => hreads.tree_eq h, fun hpaths =>
    (execute_noPaths h hpaths).1, ?_, ?_⟩
  · intro hpaths error herror
    cases accepted with
    | nothing => exact absurd rfl hpaths
    | command command settings =>
      rw [execute_command h hpaths]
      exact (runCommand_noConfig herror).1
  · intro hnamed hpaths config hconfig
    cases accepted with
    | nothing => exact absurd rfl hpaths
    | command command settings =>
      rw [execute_command h hpaths]
      exact runCommand_cases hnamed hconfig

/-- A style sheet, a file that is no text, and a mapping literal. -/
def mixedWorld : World where
  convert := fun _ => some "oklch(1 0 0)".toList
  configVariable := none
  tree :=
    { files :=
      [(["a.css".toList], Utf8.encode "a \x7b color: #fff \x7d".toList),
        (["d".toList, "b.css".toList], [0xff]),
        (["d".toList, "c.ts".toList], Utf8.encode "'x': '#fff'".toList)] }

/-- A dry run over a file, a directory with a file that cannot be decoded, and a
file that is not there. -/
theorem execute_readOnly_mixed :
    mixedWorld.tree.Named ∧
      Request.ofArguments ["convert".toList, "--dry-run".toList, "a.css".toList,
          "d".toList, "e.ts".toList] =
        .arguments (.command .convert
          { group := .inside, dryRun := true
            paths := ["a.css".toList, "d".toList, "e.ts".toList] }) ∧
      (execute mixedWorld ["convert".toList, "--dry-run".toList, "a.css".toList,
        "d".toList, "e.ts".toList]).exit = .ok 0 ∧
      (execute mixedWorld ["convert".toList, "--dry-run".toList, "a.css".toList,
        "d".toList, "e.ts".toList]).tree = mixedWorld.tree := by
  have hnamed : mixedWorld.tree.Named := by
    unfold FileTree.Named
    decide
  have haccepted : Request.ofArguments ["convert".toList, "--dry-run".toList,
      "a.css".toList, "d".toList, "e.ts".toList] =
      .arguments (.command .convert
        { group := .inside, dryRun := true
          paths := ["a.css".toList, "d".toList, "e.ts".toList] }) := by
    decide +kernel
  have hshort : ∀ path ∈ ["a.css".toList, "d".toList,
      "e.ts".toList].map Path.ofText,
      ∀ entry, ¬ Overlong mixedWorld.tree path entry := by
    have hresolve : ∀ name ∈ ["a.css".toList, "d".toList, "e.ts".toList],
        mixedWorld.tree.resolve (Path.ofText name) = .ok [name] ∧
          ∀ rest ∈ mixedWorld.tree.entriesBelow [name],
            exceeds pathLimit ((Path.ofText name).below rest).toText =
              false := by
      decide +kernel
    exact List.forall_mem_map.mpr fun name hname =>
      not_overlong_of_entries (hresolve name hname).1 (hresolve name hname).2
  have hopens : ∀ path ∈ ["a.css".toList, "d".toList,
      "e.ts".toList].map Path.ofText,
      '\x00' ∉ path.toText := by
    decide +kernel
  have hpasses : Passes mixedWorld.tree {}
      (["a.css".toList, "d".toList, "e.ts".toList].map Path.ofText) :=
    ⟨hshort, fun path hpath hnot => hopens path hpath hnot.2⟩
  obtain ⟨htree, -, -, hexit⟩ := execute_readOnly mixedWorld haccepted
  refine ⟨hnamed, haccepted, ?_, htree (.dryRun rfl)⟩
  rcases hexit hnamed (List.cons_ne_nil _ _) {} rfl with ⟨hzero, -⟩ | ⟨-, hnot⟩
  · exact hzero
  · exact absurd hpasses hnot

/-- A name of 260 characters stops a run, although the command line is accepted
and there is a configuration. -/
theorem execute_long_name :
    ∃ accepted, Request.ofArguments ["convert".toList,
      List.replicate 256 'a' ++ ".css".toList] =
        .arguments accepted ∧
      accepted.paths ≠ [] ∧ accepted.load mixedWorld = .ok {} ∧
      (execute mixedWorld ["convert".toList,
        List.replicate 256 'a' ++ ".css".toList]).exit ≠
        .ok 0 := by
  refine ⟨.command .convert { group := .inside
                              paths :=
                                [List.replicate 256 'a' ++ ".css".toList] },
    by decide +kernel, List.cons_ne_nil _ _, rfl, fun hzero => ?_⟩
  have hstops : (execute mixedWorld
      ["convert".toList,
        List.replicate 256 'a' ++ ".css".toList]).exit.isOk = false := by
    decide +kernel
  rw [hzero] at hstops
  cases hstops

end Executing

end CommandLine

end OklchGate
