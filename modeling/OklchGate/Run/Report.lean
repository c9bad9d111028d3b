import OklchGate.Config.Basic

/-!
# Reports of a run

* `FileReport` is what became of one file, and `FileReport.line` the line that
  tells it.
* `RunReport` is what became of all files, and `RunReport.summary` the lines at
  the end.
* `LogLine` is a line of output with its level.
-/

namespace OklchGate

/-! ## One file -/

/-- What became of a file. -/
inductive Status where
  | converted
  | nothingToDo
  | alreadyProcessed
  | skipped
  | error
  /-- A status that was given from outside and has no meaning here. -/
  | other (name : Text)
  deriving DecidableEq, Repr

namespace Status

/-- The name of a status. -/
def name : Status → Text
  | converted => "converted".toList
  | nothingToDo => "nothing-to-do".toList
  | alreadyProcessed => "already-processed".toList
  | skipped => "skipped".toList
  | error => "error".toList
  | other name => name

/-- The status with a name. -/
def ofName (name : Text) : Status :=
  ([converted, nothingToDo, alreadyProcessed, skipped, error].find?
    fun status => status.name = name).getD (other name)

end Status

/-- What became of one file. -/
structure FileReport where
  path : Path
  kind : Option Kind := none
  status : Status := .nothingToDo
  colors : Nat := 0
  /-- The number of rules or mappings that got a gate. -/
  scopes : Nat := 0
  /-- The colors that could not be converted. -/
  warnings : List Text := []
  error : Option Text := none
  dryRun : Bool := false
  saved : Option Path := none
  backup : Option Path := none
  deriving DecidableEq, Repr

namespace FileReport

/-- The file was or would be changed. -/
def hasChanges (report : FileReport) : Bool := report.status = .converted

/-- The file could not be processed. -/
def failed (report : FileReport) : Bool := report.status = .error

/-- The line about a file. -/
def line (report : FileReport) : Text :=
  let path := report.path.toText
  let mark := if report.dryRun then "[DRY-RUN] ".toList else []
  match report.status with
  | .converted =>
    mark ++ (if report.dryRun then "✓ Would convert ".toList
      else "✓ Converted ".toList) ++
      path ++ " (found ".toList ++ Text.ofNat report.colors ++
        " hex colors)".toList
  | .alreadyProcessed =>
    mark ++ "ℹ @supports block already exists in ".toList ++ path ++
      ", skipping".toList
  | .nothingToDo => mark ++ "ℹ No hex colors found in ".toList ++ path
  | .skipped =>
    "⚠ Skipping ".toList ++ path ++
      " - unknown file type. Use .css, .ts, .tsx, .js, or .jsx".toList
  | _ =>
    "✗ Error processing ".toList ++ path ++ [':', ' '] ++
      report.error.getD "None".toList

end FileReport

/-! ## All files -/

/-- What became of all files, in the order of processing. -/
structure RunReport where
  files : List FileReport
  dryRun : Bool
  deriving DecidableEq, Repr

namespace RunReport

/-- The number of files with a status. -/
def count (report : RunReport) (status : Status) : Nat :=
  report.files.countP fun file => file.status = status

/-- The number of colors in all files. -/
def colors (report : RunReport) : Nat :=
  report.files.foldl (fun total file => total + file.colors) 0

/-- A file was or would be changed. -/
def hasChanges (report : RunReport) : Bool :=
  report.files.any FileReport.hasChanges

/-- A line with a number, unless the number is zero. -/
def lineUnlessZero (label : Text) (n : Nat) : List Text :=
  if n = 0 then [] else [label ++ Text.ofNat n]

/-- The lines at the end of a run. -/
def summary (report : RunReport) : List Text :=
  ["Files processed: ".toList ++ Text.ofNat report.files.length,
    "Files converted: ".toList ++ Text.ofNat (report.count .converted),
    "Colors converted: ".toList ++ Text.ofNat report.colors] ++
    lineUnlessZero "Files failed: ".toList (report.count .error) ++
    lineUnlessZero "Files skipped: ".toList (report.count .skipped)

end RunReport

/-! ## Log lines -/

/-- How important a line is. -/
inductive Level where
  | debug
  | info
  | warning
  | error
  deriving DecidableEq, Repr

/-- A line of output. -/
structure LogLine where
  level : Level
  text : Text
  deriving DecidableEq, Repr

namespace LogLine

/-- The line is shown when nothing more is asked for. -/
def isRegular (line : LogLine) : Bool := line.level ≠ .debug

/-- The line about a processed file. -/
def ofReport (report : FileReport) : LogLine :=
  let level : Level := if report.failed then .error
    else if report.status = .skipped then .warning else .info
  ⟨level, report.line⟩

/-- The line about a color that could not be converted. -/
def ofWarning (warning : Text) : LogLine :=
  ⟨.warning, "  ⚠ Could not convert ".toList ++ warning⟩

/-- The line about a rule that is paired already. -/
def ofPaired (selector : Text) : LogLine :=
  ⟨.debug, "Skipping ".toList ++ selector ++
    ": already followed by a supports block".toList⟩

/-- The line about an insertion into a mapping. -/
def ofInsertion (entries offset : Nat) : LogLine :=
  ⟨.debug, "Inserting ".toList ++ Text.ofNat entries ++
    " entries at offset ".toList ++ Text.ofNat offset⟩

end LogLine

/-! ## Names of loggers -/

/-- The name under which all loggers stand. -/
def rootLogger : Text := "oklchify".toList

/-- The name of the logger for a part of the program. -/
def loggerName (name : Text) : Text :=
  if name = rootLogger ∨ (rootLogger ++ ['.']).isPrefixOf name then name
  else rootLogger ++ '.' :: name

end OklchGate
