import OklchGate.Config.Validation
import OklchGate.Files.Tree
import OklchGate.Json.Reader

/-!
# Loading a configuration

* `Config.load` reads and validates a file; `ConfigError` says why it cannot.
* `Config.choose` decides where the configuration comes from: a path that is
  given, or the path in the environment, or the defaults.
-/

namespace OklchGate

/-- Why a file cannot be read as JSON. -/
inductive ConfigError.Cause where
  | unreadable (error : FileTree.ReadError)
  | notJson (error : Json.Error)
  | invalid (complaints : List Complaint)
  deriving DecidableEq, Repr

/-- A cause and the path of the configuration. -/
structure ConfigError where
  cause : ConfigError.Cause
  path : Path
  deriving DecidableEq, Repr

/-- The first line of the wording of an error. -/
def ConfigError.message (error : ConfigError) : Text :=
  let unread (reason : Text) : Text :=
    "Could not read config ".toList ++ error.path.toText ++ [':', ' '] ++ reason
  match error.cause with
  | .unreadable reason => unread reason.message
  | .notJson reason => unread reason.message
  | .invalid complaints =>
    "Invalid config ".toList ++ error.path.toText ++ [':', ' '] ++
      Text.ofNat complaints.length ++
      (if complaints.length = 1 then " validation error".toList
        else " validation errors".toList) ++
      " for OklchifyConfig".toList

namespace Config

/-- Loads the configuration in a file. -/
def load (tree : FileTree) (path : Path) : Except ConfigError Config := do
  let text ← (tree.readText path).mapError fun error =>
    ⟨.unreadable error, path⟩
  let data ← (Json.parse (unifyNewlines text)).mapError fun error =>
    ⟨.notJson error, path⟩
  (ofJson data).mapError fun complaints => ⟨.invalid complaints, path⟩

/-- The name of the variable of the environment that holds a path. -/
def variableName : Text := "OKLCHIFY_CONFIG".toList

/-- The path that an optional text gives; the empty text gives none. -/
def pathOf? (text : Option Text) : Option Path :=
  match text with
  | none => none
  | some [] => none
  | some text => some (Path.ofText text)

/-- Where a configuration comes from. -/
inductive Source where
  | given (path : Path)
  | environment (path : Path)
  | defaults
  deriving DecidableEq, Repr

/-- The path that a configuration is read from. -/
def Source.path? : Source → Option Path
  | given path => some path
  | environment path => some path
  | defaults => none

/-- Decides where the configuration comes from. -/
def choose (given environment : Option Text) : Source :=
  match pathOf? given, pathOf? environment with
  | some path, _ => .given path
  | none, some path => .environment path
  | none, none => .defaults

/-- Loads the configuration from its source. -/
def loadFrom (tree : FileTree) (source : Source) : Except ConfigError Config :=
  match source.path? with
  | some path => load tree path
  | none => .ok {}

end Config

end OklchGate
