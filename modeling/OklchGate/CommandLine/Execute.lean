import OklchGate.CommandLine.Usage
import OklchGate.Run.Convert

/-!
# Carrying out a command line

`execute` takes the arguments, the environment and the files, and gives the
exit code, the output and the files afterwards.  The exit code is 0 when the
command was carried out, whatever became of each file; 1 when there was nothing
to do; 2 when the arguments or the configuration cannot be read.  A run that was
stopped by an error has no exit code of its own.

* `runConvert` and `runScan` carry out the two commands.
* `execute` reads the arguments, chooses the configuration and calls them.
* `concernedPaths` are the paths that have to be known before.
-/

namespace OklchGate.CommandLine

/-- What is around a run: the converter, the variable of the environment that
names a configuration, and the files. -/
structure World where
  convert : Converter
  configVariable : Option Text
  tree : FileTree

/-- The result of a run: the exit code, or the error that stopped the run, with
the output and the files up to then. -/
structure Result where
  exit : Except FileError Nat
  output : Text
  tree : FileTree

/-- The text of log lines, without those for debugging unless `verbose`. -/
def logText (verbose : Bool) (log : List LogLine) : Text :=
  (log.filter fun line => verbose || line.isRegular).flatMap fun line =>
    line.text ++ ['\n']

/-- A line for everyone. -/
def info (text : Text) : LogLine := ⟨.info, text⟩

/-! ## Commands -/

/-- Converts files. -/
def runConvert (session : Session) (tree : FileTree) (paths : List Path) :
    Step Unit :=
  let start :=
    if session.options.dryRun then
      [info "DRY RUN - No files will be written".toList] else []
  let ended := (session.run tree paths).andThen fun report tree =>
    ⟨.ok (), tree,
      info "\n=== Summary ===".toList :: report.summary.map info ++
        [info "Done!".toList]⟩
  { ended with log := start ++ ended.log }

/-- The line about a color. -/
def rowLine (row : Gate.Row) : LogLine :=
  let scope := if row.scope.isEmpty then [] else row.scope ++ [' ']
  info ("  ".toList ++ scope ++ row.property ++ [':', ' '] ++ row.hex ++
    " -> ".toList ++ row.oklch)

/-- Scans one file: the number of colors. -/
def scanPath (session : Session) (tree : FileTree) (path : Path) : Step Nat :=
  if (session.config.kindOf? path).isNone then
    ⟨.ok 0, tree,
      [⟨.warning, "⚠ Skipping ".toList ++ path.toText ++
        " - unknown file type".toList⟩]⟩
  else
    match session.scanFile tree path with
    | .error error =>
      match error.stop? with
      | some error => ⟨.error error, tree, []⟩
      | none =>
        ⟨.ok 0, tree,
          [⟨.error,
            "✗ Error scanning ".toList ++ path.toText ++ [':', ' '] ++
              error.message⟩]⟩
    | .ok (rows, log) =>
      ⟨.ok rows.length, tree,
        log ++ info (path.toText ++ [':', ' '] ++ Text.ofNat rows.length ++
          " hex colors".toList) :: rows.map rowLine⟩

/-- Scans files. -/
def runScan (session : Session) (tree : FileTree) (paths : List Path) :
    Step Unit :=
  match collectFiles tree session.config paths with
  | .error error => ⟨.error error, tree, []⟩
  | .ok files =>
    (Step.forEach (scanPath session) tree files).andThen fun counts tree =>
      let total := counts.foldl (· + ·) 0
      ⟨.ok (), tree,
        [info ("Total: ".toList ++ Text.ofNat total ++ " hex colors".toList)]⟩

/-! ## Execution -/

/-- The line about the choice of a configuration. -/
def sourceLog : Config.Source → List LogLine
  | .environment path =>
    [⟨.debug, "Using config from ".toList ++ Config.variableName ++
      [':', ' '] ++ path.toText⟩]
  | _ => []

/-- Carries out a command with its paths. -/
def runCommand (world : World) (command : Command) (settings : Settings) :
    Result :=
  let source := Config.choose settings.config world.configVariable
  let paths := settings.paths.map Path.ofText
  let finish (exit : Except FileError Nat) (log : List LogLine)
    (tree : FileTree) : Result :=
    ⟨exit, logText settings.verbose (sourceLog source ++ log), tree⟩
  match Config.loadFrom world.tree source with
  | .error error =>
    finish (.ok 2) [⟨.error, "✗ ".toList ++ error.message⟩] world.tree
  | .ok config =>
    let step :=
      match command with
      | .convert =>
        let options : Options :=
          ⟨settings.dryRun, settings.backup || config.backup⟩
        runConvert ⟨world.convert, config, options⟩ world.tree paths
      | .scan =>
        let session : Session := ⟨world.convert, config, ⟨false, config.backup⟩⟩
        runScan session world.tree paths
    finish (step.result.map fun _ => 0) step.log step.tree

/-- Carries out a command line. -/
def execute (world : World) (arguments : List Text) : Result :=
  match Request.ofArguments arguments with
  | .usageError => ⟨.ok 2, [], world.tree⟩
  | .mainHelp => ⟨.ok 0, mainHelp, world.tree⟩
  | .commandHelp command => ⟨.ok 0, command.help, world.tree⟩
  | .arguments .nothing => ⟨.ok 1, banner, world.tree⟩
  | .arguments (.command command settings) =>
    if settings.paths.isEmpty then ⟨.ok 1, banner, world.tree⟩
    else runCommand world command settings

/-- The paths that a command line is about: those that are asked for and the
configuration. -/
def concernedPaths (configVariable : Option Text) (arguments : List Text) :
    List Path :=
  match Request.ofArguments arguments with
  | .arguments (.command _ settings) =>
    settings.paths.map Path.ofText ++
      (Config.choose settings.config configVariable).path?.toList
  | _ => []

end OklchGate.CommandLine
