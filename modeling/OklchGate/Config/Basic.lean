import OklchGate.Css.Node
import OklchGate.Files.Path
import OklchGate.Text.Lowercase
import OklchGate.Text.Blank

/-!
# Configuration

A configuration says which file suffixes hold style sheets and which hold
mapping literals, how to indent where a source shows no indent, and whether to
keep a backup.

* `Config` holds the settings with their defaults.
* `normalizeExtensions` brings configured suffixes into the form in which
  they are compared: trimmed, in lower case and with a dot.
* `Config.kindOf?` finds the kind of a file by its suffix.
-/

namespace OklchGate

/-- What a file holds. -/
inductive Kind where
  | styleSheet
  | mapping
  deriving DecidableEq, Repr

/-- The settings. -/
structure Config where
  schemaVersion : Int := 1
  styleExtensions : List Text := [".css".toList]
  mappingExtensions : List Text :=
    [".ts".toList, ".tsx".toList, ".js".toList, ".jsx".toList]
  /-- The indent of one level in gates of rules that show none. -/
  defaultIndent : Text := Css.defaultUnit
  backup : Bool := false
  deriving DecidableEq, Repr

/-- The form of a configured suffix in which it is compared; nothing for a
blank one. -/
def normalizeExtension? (entry : Text) : Option Text :=
  match entry.trim.lower with
  | [] => none
  | '.' :: rest => some ('.' :: rest)
  | name => some ('.' :: name)

/-- The forms of configured suffixes, without blank ones. -/
def normalizeExtensions (entries : List Text) : List Text :=
  entries.filterMap normalizeExtension?

/-- The kind of a file.  A suffix that is configured for both kinds counts as
one of style sheets. -/
def Config.kindOf? (config : Config) (path : Path) : Option Kind :=
  let suffix := path.suffix.lower
  if config.styleExtensions.contains suffix then some .styleSheet
  else if config.mappingExtensions.contains suffix then some .mapping
  else none

end OklchGate
