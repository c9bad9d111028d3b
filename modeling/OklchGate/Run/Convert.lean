import OklchGate.Config.Load
import OklchGate.Gate.Insert
import OklchGate.Mapping.Insert
import OklchGate.Run.Report

/-!
# Converting files

* `collectFiles` turns the paths that are asked for into the files to process:
  a directory stands for the files of known kinds below it.
* `Converted.ofSource` converts one source by its kind, without files.
* `Session.process` converts one file of a tree and reports on it; the file is
  written only when it changes and the run is no dry run.
* `Session.run` processes all files one after the other.
* `Session.scanFile` lists the colors of a file and writes nothing.
* `Step` is what a part of a run leads to.  An error with a file is reported and
  the run goes on, but two errors stop it: a path with a null character that
  would be opened, and a name or a path that is too long for a file while the
  files are collected.
-/

namespace OklchGate

/-! ## Files to process -/

/-- The files of known kinds that a path stands for: the files below a
directory, by their names, and any other path itself. -/
def expand (tree : FileTree) (config : Config) (path : Path) :
    Except FileError (List Path) :=
  match tree.resolve path with
  | .ok names =>
    if tree.isDirectory names then
      match tree.overlong? path names with
      | some entry => .error ⟨.nameTooLong, entry⟩
      | none =>
        .ok (((FileTree.sortNames (tree.filesBelow names)).map
          path.below).filter fun file => (config.kindOf? file).isSome)
    else .ok [path]
  | .error .nameTooLong => .error ⟨.nameTooLong, path⟩
  | .error _ => .ok [path]

/-- The paths without those that come again with the same text. -/
def withoutRepeats (paths : List Path) : List Path :=
  (paths.foldl (fun (kept : List Path) path =>
    if kept.any fun other => other.toText = path.toText then kept
    else path :: kept) []).reverse

/-- The files that some paths stand for, each once. -/
def collectFiles (tree : FileTree) (config : Config) (paths : List Path) :
    Except FileError (List Path) := do
  let files ← paths.mapM (expand tree config)
  return withoutRepeats files.flatten

/-! ## Sources -/

/-- What became of a source: its status, what was counted, the text to write
and the lines for the log. -/
structure Converted where
  status : Status
  colors : Nat
  scopes : Nat
  warnings : List Text
  output : Text
  log : List LogLine
  deriving DecidableEq, Repr

/-- Why a source cannot be converted. -/
inductive SourceError where
  | parse (error : Css.ParseError)
  | anchor (error : Mapping.MissingAnchor)
  deriving DecidableEq, Repr

/-- The wording of an error about the file with the given path. -/
def SourceError.message (path : Path) : SourceError → Text
  | parse error => error.message
  | anchor error => error.message (some path.toText)

namespace Converted

/-- The outcome of inserting gates into a style sheet. -/
def ofInsertion (insertion : Gate.Insertion) : Converted :=
  let status : Status := if insertion.changed then .converted
    else if insertion.alreadyProcessed then .alreadyProcessed else .nothingToDo
  { status
    colors := if insertion.changed then insertion.colorsConverted else 0
    scopes :=
      if insertion.changed then
        insertion.rulesConverted +
          (if insertion.rootColorsConverted = 0 then 0 else 1)
      else 0
    warnings := insertion.failures
    output := insertion.output
    log := insertion.skipped.map LogLine.ofPaired }

/-- The outcome of inserting an entry into a mapping literal. -/
def ofOutcome (source : Text) (outcome : Mapping.Outcome) : Converted :=
  let status : Status := if outcome.isAlreadyProcessed then .alreadyProcessed
    else if outcome.isChanged then .converted else .nothingToDo
  { status
    colors := outcome.colorsConverted
    scopes := if outcome.isChanged then 1 else 0
    warnings := outcome.failures
    output := outcome.output source
    log :=
      match outcome with
      | .changed entries _ offset _ =>
        [LogLine.ofInsertion entries.length offset]
      | _ => [] }

/-- Converts a source by its kind. -/
def ofSource (convert : Converter) (config : Config) (kind : Kind)
    (source : Text) :
    Except SourceError Converted :=
  match kind with
  | .styleSheet =>
    match Gate.transform convert config.defaultIndent source with
    | .ok insertion => .ok (ofInsertion insertion)
    | .error error => .error (.parse error)
  | .mapping =>
    match Mapping.transform convert source with
    | .ok outcome => .ok (ofOutcome source outcome)
    | .error error => .error (.anchor error)

end Converted

/-! ## Steps -/

/-- What a part of a run leads to: its result or the error that stops the run,
the files afterwards, and the lines for the log that come up on the way. -/
structure Step (α : Type) where
  result : Except FileError α
  tree : FileTree
  log : List LogLine := []
  deriving Repr

namespace Step

/-- The step that goes on after another one with its result and its files,
unless that one stopped. -/
def andThen {α β : Type} (step : Step α) (next : α → FileTree → Step β) :
    Step β :=
  match step.result with
  | .error error => ⟨.error error, step.tree, step.log⟩
  | .ok value =>
    let last := next value step.tree
    { last with log := step.log ++ last.log }

/-- The step with another result. -/
def map {α β : Type} (f : α → β) (step : Step α) : Step β :=
  ⟨step.result.map f, step.tree, step.log⟩

/-- Every item taken through a step, one after the other. -/
def forEach {α β : Type} (act : FileTree → α → Step β) (tree : FileTree) :
    List α → Step (List β)
  | [] => ⟨.ok [], tree, []⟩
  | item :: rest =>
    (act tree item).andThen fun value tree =>
      (forEach act tree rest).map (value :: ·)

end Step

/-- The error that stops a run, if a text cannot be read because of it. -/
def FileTree.ReadError.stop? : FileTree.ReadError → Option FileError
  | .file error => if error.cause = .nullCharacter then some error else none
  | .notUtf8 _ => none

/-! ## Sessions -/

/-- What the caller of a run decides. -/
structure Options where
  dryRun : Bool := false
  backup : Bool := false
  deriving DecidableEq, Repr

/-- Everything that stays the same during a run. -/
structure Session where
  convert : Converter
  config : Config
  options : Options

namespace Session

/-- Writes the new text of a file after the backup, if one is wanted.  The
report names what was written. -/
def save (session : Session) (tree : FileTree) (report : FileReport)
    (output : Text) :
    FileReport × FileTree :=
  let failure (error : FileError) (report : FileReport) : FileReport :=
    { report with status := .error, error := some error.message }
  let backedUp : Except FileError (FileReport × FileTree) :=
    if session.options.backup then
      match tree.copy report.path report.path.backup with
      | .ok tree =>
        .ok ({ report with backup := some report.path.backup }, tree)
      | .error error => .error error
    else .ok (report, tree)
  match backedUp with
  | .error error => (failure error report, tree)
  | .ok (report, tree) =>
    match tree.writeText report.path output with
    | .ok tree => ({ report with saved := some report.path }, tree)
    | .error error => (failure error report, tree)

/-- Processes one file and reports on it. -/
def process (session : Session) (tree : FileTree) (path : Path) :
    Step FileReport :=
  let kind := session.config.kindOf? path
  let report : FileReport := { path, kind, dryRun := session.options.dryRun }
  let failed (message : Text) : FileReport :=
    { report with status := .error, error := some message }
  match kind with
  | none => ⟨.ok { report with status := .skipped }, tree, []⟩
  | some kind =>
    match tree.readText path with
    | .error error =>
      match error.stop? with
      | some error => ⟨.error error, tree, []⟩
      | none => ⟨.ok (failed error.message), tree, []⟩
    | .ok source =>
      match Converted.ofSource session.convert session.config kind source with
      | .error error => ⟨.ok (failed (error.message path)), tree, []⟩
      | .ok done =>
        let report :=
          { report with
            status := done.status
            colors := done.colors
            scopes := done.scopes
            warnings := done.warnings }
        if done.status = .converted && !session.options.dryRun then
          let (report, tree) := session.save tree report done.output
          ⟨.ok report, tree, done.log⟩
        else ⟨.ok report, tree, done.log⟩

/-- Processes one file, and tells of it by the line about it and its
warnings. -/
def processAloud (session : Session) (tree : FileTree) (path : Path) :
    Step FileReport :=
  (session.process tree path).andThen fun report tree =>
    ⟨.ok report, tree,
      LogLine.ofReport report :: report.warnings.map LogLine.ofWarning⟩

/-- Processes the files that some paths stand for. -/
def run (session : Session) (tree : FileTree) (paths : List Path) :
    Step RunReport :=
  match collectFiles tree session.config paths with
  | .error error => ⟨.error error, tree, []⟩
  | .ok files =>
    (Step.forEach session.processAloud tree files).map fun reports =>
      ⟨reports, session.options.dryRun⟩

/-! ## Scans -/

/-- Why a file cannot be scanned. -/
inductive ScanError where
  | read (error : FileTree.ReadError)
  | parse (error : Css.ParseError)
  deriving DecidableEq, Repr

/-- The wording of an error. -/
def ScanError.message : ScanError → Text
  | read error => error.message
  | parse error => error.message

/-- The error that stops a run, if a file cannot be scanned because of it. -/
def ScanError.stop? : ScanError → Option FileError
  | read error => error.stop?
  | parse _ => none

/-- The colors of a source of the given kind, and the lines for the log. -/
def scanSource (convert : Converter) (kind : Option Kind) (source : Text) :
    Except Css.ParseError (List Gate.Row × List LogLine) :=
  match kind with
  | some .styleSheet => do
    let document ← Css.Document.parse source
    let scan := Gate.scan convert document
    return (scan.rows, scan.skipped.map LogLine.ofPaired)
  | some .mapping =>
    .ok ((Mapping.scan convert source).entries.map fun entry =>
      ⟨[], entry.key, entry.hex, entry.oklch⟩, [])
  | none => .ok ([], [])

/-- The colors of a file, and the lines for the log. -/
def scanFile (session : Session) (tree : FileTree) (path : Path) :
    Except ScanError (List Gate.Row × List LogLine) :=
  match tree.readText path with
  | .error error => .error (.read error)
  | .ok source =>
    (scanSource session.convert (session.config.kindOf? path)
      source).mapError .parse

end Session

end OklchGate
