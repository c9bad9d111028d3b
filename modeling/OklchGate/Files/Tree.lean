import OklchGate.Files.Path
import OklchGate.Text.Quoted
import OklchGate.Text.Utf8

/-!
# Files and directories

A `FileTree` holds all files under their names from the root, and the working
directory, where relative paths start.  A directory is there if the working
directory is or lies in it, if it was made or if something else lies in it.

Each file has one place: links are no part of a tree.  Neither are permissions,
sizes and times, and no file is in use by anyone else.

* `FileTree.find?` and `FileTree.put` look up and store a file under its
  names.
* `FileTree.resolve` follows a path through the directories of the tree to the
  names of what it leads to.
* `FileTree.read` and `FileTree.write` are the operations on paths, with their
  errors; `FileTree.readText` and `FileTree.writeText` are about UTF-8 texts.
* `FileTree.filesBelow` lists the files below a directory, by names, and
  `FileTree.overlong?` finds what cannot be listed because its path is too long.
-/

namespace OklchGate

/-! ## Errors -/

/-- Why a path cannot be opened. -/
inductive FileError.Cause where
  | notFound
  | notDirectory
  | isDirectory
  | nameTooLong
  | nullCharacter
  deriving DecidableEq, Repr

/-- A cause and the path it is about. -/
structure FileError where
  cause : FileError.Cause
  path : Path
  deriving DecidableEq, Repr

namespace FileError

/-- The wording of a cause, with its number if it has one. -/
def Cause.message : Cause → Text
  | notFound => "[Errno 2] No such file or directory".toList
  | notDirectory => "[Errno 20] Not a directory".toList
  | isDirectory => "[Errno 21] Is a directory".toList
  | nameTooLong => "[Errno 36] File name too long".toList
  | nullCharacter => "embedded null byte".toList

/-- The wording of an error.  A path with a null character is not repeated. -/
def message (error : FileError) : Text :=
  match error.cause with
  | .nullCharacter => error.cause.message
  | _ => error.cause.message ++ [':', ' '] ++ error.path.toText.quoted

end FileError

/-! ## Limits -/

/-- The greatest number of bytes in a name. -/
def nameLimit : Nat := 255

/-- The greatest number of bytes in a path. -/
def pathLimit : Nat := 4095

/-- The text takes more bytes than the limit. -/
def exceeds (limit : Nat) (text : Text) : Bool :=
  limit < (Utf8.encode text).length

/-! ## Trees -/

/-- The files under their names from the root, the directories that were made,
and the working directory. -/
structure FileTree where
  files : List (List Text × Bytes) := []
  directories : List (List Text) := []
  working : List Text := []
  deriving DecidableEq, Repr

namespace FileTree

/-- The content of the file under some names. -/
def find? (tree : FileTree) (names : List Text) : Option Bytes :=
  (tree.files.find? fun file => file.1 = names).map (·.2)

/-- Stores a file under some names. -/
def put (tree : FileTree) (names : List Text) (content : Bytes) : FileTree :=
  if (tree.find? names).isSome then
    { tree with
      files := tree.files.map fun file =>
        if file.1 = names then (names, content) else file }
  else { tree with files := tree.files ++ [(names, content)] }

/-- Makes a directory. -/
def makeDirectory (tree : FileTree) (names : List Text) : FileTree :=
  { tree with directories := tree.directories ++ [names] }

/-- The names are those of a directory. -/
def isDirectory (tree : FileTree) (names : List Text) : Bool :=
  (tree.working :: tree.directories).any
    (fun directory => names.isPrefixOf directory) ||
    tree.files.any fun file => names.isPrefixOf file.1 && names ≠ file.1

/-- Where a name leads to from a directory.  Two dots lead to the directory
around it, and from the root to the root. -/
def enter (tree : FileTree) (names : List Text) (name : Text) :
    Except FileError.Cause (List Text) :=
  if tree.isDirectory names then
    if exceeds nameLimit name then .error .nameTooLong
    else if name = ['.', '.'] then .ok names.dropLast
    else .ok (names ++ [name])
  else if (tree.find? names).isSome then .error .notDirectory
  else .error .notFound

/-- Where a path starts: at the working directory if it is relative, and at the
root otherwise. -/
def startOf (tree : FileTree) (path : Path) : List Text :=
  if path.root.isEmpty then tree.working else []

/-- The names of what a path leads to, which need not be there. -/
def resolve (tree : FileTree) (path : Path) :
    Except FileError.Cause (List Text) :=
  if path.toText.contains '\x00' then .error .nullCharacter
  else if exceeds pathLimit path.toText then .error .nameTooLong
  else path.names.foldlM tree.enter (tree.startOf path)

/-- The path leads to a directory. -/
def leadsToDirectory (tree : FileTree) (path : Path) : Bool :=
  match tree.resolve path with
  | .ok names => tree.isDirectory names
  | .error _ => false

/-! ## Reading and writing -/

/-- The content of a file. -/
def read (tree : FileTree) (path : Path) : Except FileError Bytes :=
  match tree.resolve path with
  | .error cause => .error ⟨cause, path⟩
  | .ok names =>
    match tree.find? names with
    | some content => .ok content
    | none =>
      if tree.isDirectory names then .error ⟨.isDirectory, path⟩
      else .error ⟨.notFound, path⟩

/-- The tree with a new content in a file, which need not be there yet. -/
def write (tree : FileTree) (path : Path) (content : Bytes) :
    Except FileError FileTree :=
  match tree.resolve path with
  | .error cause => .error ⟨cause, path⟩
  | .ok names =>
    if tree.isDirectory names then .error ⟨.isDirectory, path⟩
    else .ok (tree.put names content)

/-- Why a text cannot be read. -/
inductive ReadError where
  | file (error : FileError)
  | notUtf8 (fault : Utf8.Fault)
  deriving DecidableEq, Repr

/-- The wording of an error. -/
def ReadError.message : ReadError → Text
  | file error => error.message
  | notUtf8 fault => fault.message

/-- The text in a file. -/
def readText (tree : FileTree) (path : Path) : Except ReadError Text :=
  match tree.read path with
  | .error error => .error (.file error)
  | .ok content => (Utf8.decode content).mapError .notUtf8

/-- The tree with a new text in a file. -/
def writeText (tree : FileTree) (path : Path) (text : Text) :
    Except FileError FileTree :=
  tree.write path (Utf8.encode text)

/-- The place of a copy: the target itself, or below it under the name of the
copied file if it leads to a directory. -/
def copyTarget (tree : FileTree) (file target : Path) : Path :=
  if tree.leadsToDirectory target then target.below [file.name] else target

/-- The tree with a copy of a file. -/
def copy (tree : FileTree) (file target : Path) : Except FileError FileTree :=
  do
  let content ← tree.read file
  tree.write (tree.copyTarget file target) content

/-! ## Listing -/

/-- The names of the files below a directory, counted from the directory. -/
def filesBelow (tree : FileTree) (directory : List Text) : List (List Text) :=
  tree.files.filterMap fun file =>
    if directory.isPrefixOf file.1 && directory ≠ file.1 then
      some (file.1.drop directory.length)
    else none

/-- The names of what lies below a directory, counted from the directory: of
the files, of the working directory and of the directories that were made. -/
def entriesBelow (tree : FileTree) (directory : List Text) :
    List (List Text) :=
  tree.filesBelow directory ++
    (tree.working :: tree.directories).filterMap fun names =>
      if directory.isPrefixOf names && directory ≠ names then
        some (names.drop directory.length)
      else none

/-- Lists of names in the order of their first difference. -/
def sortNames (names : List (List Text)) : List (List Text) :=
  names.mergeSort fun a b => !decide (b < a)

/-- A path that is too long, on the way to something below the directory that a
path leads to. -/
def overlong? (tree : FileTree) (path : Path) (directory : List Text) :
    Option Path :=
  (sortNames (tree.entriesBelow directory)).findSome? fun names =>
    (path.below names).stages.find? fun stage => exceeds pathLimit stage.toText

end FileTree

end OklchGate
