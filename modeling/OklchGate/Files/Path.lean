import OklchGate.Text

/-!
# Paths

A path is a root and the names that follow it.  Reading drops empty names and
`.`, so paths that differ only in those are equal; `..` is kept.

* `Path.ofText` and `Path.toText` read and write a path; the path without names
  is written `.`.
* `Path.suffix` is the last dot of the last name with what follows it.
-/

namespace OklchGate

/-- A root, which is empty for a relative path, and names. -/
structure Path where
  root : Text
  names : List Text
  deriving DecidableEq, Repr

namespace Path

/-- The parts of a text between its slashes. -/
def splitSlashes : Text → List Text
  | [] => [[]]
  | c :: rest =>
    if c = '/' then [] :: splitSlashes rest
    else
      match splitSlashes rest with
      | [] => [[c]]
      | part :: parts => (c :: part) :: parts

/-- The root of a path: two slashes stay two, and any other number of slashes
is one. -/
def rootOf (text : Text) : Text :=
  let slashes := (text.takeWhile (· = '/')).length
  if slashes = 0 then [] else if slashes = 2 then ['/', '/'] else ['/']

/-- Reads a path. -/
def ofText (text : Text) : Path :=
  ⟨rootOf text,
    (splitSlashes text).filter fun name => !name.isEmpty && name ≠ ['.']⟩

/-- The text of a path. -/
def toText (path : Path) : Text :=
  if path.root.isEmpty && path.names.isEmpty then ['.']
  else path.root ++ Text.joinWith ['/'] path.names

/-- The path of something below a path. -/
def below (path : Path) (names : List Text) : Path :=
  ⟨path.root, path.names ++ names⟩

/-- The paths to everything that a path leads through, and the path itself. -/
def stages (path : Path) : List Path :=
  (List.range (path.names.length + 1)).map fun n =>
    ⟨path.root, path.names.take n⟩

/-- The last name of a path. -/
def name (path : Path) : Text := path.names.getLastD []

/-- The last dot of a name and what follows it, if the dot is neither the first
nor the last character; otherwise nothing. -/
def suffixOf (name : Text) : Text :=
  match Text.findLast? ['.'] name with
  | some offset =>
    if 0 < offset ∧ offset + 1 < name.length then name.drop offset else []
  | none => []

/-- The suffix of the last name. -/
def suffix (path : Path) : Text := suffixOf path.name

/-- The path with `.bak` after its last name. -/
def backup (path : Path) : Path :=
  ⟨path.root, path.names.dropLast ++ [path.name ++ ".bak".toList]⟩

end Path

end OklchGate
