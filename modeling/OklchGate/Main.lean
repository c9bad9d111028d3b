import OklchGate.CommandLine.Execute

/-!
# The program

The program works on the files that its paths lead to, from the working
directory or from the root.  When a directory is asked for, the files in it are
found by their names, which are read from standard input, one on each line.

* `learn` adds what lies at a path to what is known of the files.
* `survey` learns everything that a command line is about.
* `store` writes the files that are new or have changed.
-/

namespace OklchGate.CommandLine

/-- The number of the error that says that a path leads to a directory. -/
def directoryErrorCode : UInt32 := 21

/-- The tree with what lies at a path.  A path that cannot be read adds
nothing. -/
def learn (tree : FileTree) (path : Path) : IO FileTree := do
  match tree.resolve path with
  | .error _ => return tree
  | .ok names =>
    if tree.isDirectory names || (tree.find? names).isSome then return tree
    match ← (IO.FS.readBinFile (String.ofList path.toText)).toBaseIO with
    | .ok content => return tree.put names content.toList
    | .error (.inappropriateType _ code _) =>
      return if code = directoryErrorCode then tree.makeDirectory names
        else tree
    | .error _ => return tree

/-- The tree with what lies at some paths and at their backups. -/
def learnAll (tree : FileTree) (paths : List Path) : IO FileTree :=
  (paths ++ paths.map Path.backup).foldlM
    (fun tree path => path.stages.foldlM learn tree) tree

/-- The lines of standard input. -/
def inputLines : IO (List Text) := do
  let content ← (← IO.getStdin).readToEnd
  return (content.splitOn "\n").map String.toList

/-- The names of the working directory. -/
def workingNames : IO (List Text) := do
  return (Path.ofText (← IO.currentDir).toString.toList).names

/-- The files that a command line is about. -/
def survey (paths : List Path) : IO FileTree := do
  let tree ← learnAll { working := ← workingNames } paths
  if paths.any tree.leadsToDirectory then
    learnAll tree ((← inputLines).map Path.ofText)
  else return tree

/-- Writes the files that are new in a tree or have changed. -/
def store (before after : FileTree) : IO Unit :=
  after.files.forM fun (names, content) => do
    if before.find? names ≠ some content then
      IO.FS.writeBinFile (String.ofList (Path.toText ⟨['/'], names⟩))
        ⟨content.toArray⟩

end OklchGate.CommandLine

open OklchGate CommandLine in
/-- Carries out the command line that the program was called with. -/
def main (arguments : List String) : IO UInt32 := do
  let arguments := arguments.map String.toList
  let variableText ← IO.getEnv (String.ofList Config.variableName)
  let configVariable := variableText.map String.toList
  let tree ← survey (concernedPaths configVariable arguments)
  let result := execute ⟨Converter.oklch, configVariable, tree⟩ arguments
  store tree result.tree
  IO.print (String.ofList result.output)
  match result.exit with
  | .ok code => return UInt32.ofNat code
  | .error error =>
    IO.eprintln (String.ofList error.message)
    return 1
