import OklchGate.Text.Digit
import OklchGate.Text.Line

/-!
# Arguments of the command line

A command is followed by options and by one group of paths.  An option may be
shortened as long as only one option starts like it, a value may follow an
option after `=`, short options may be joined, and `--` ends the options.

* `Mark` is what an argument looks like, and `markAll` looks at all of them.
* `readOptions` goes through the arguments of a command.  A request for help
  ends the reading at once, an argument that does not fit only at the end.
* `Request.ofArguments` reads a whole command line.
-/

namespace OklchGate.CommandLine

/-! ## Options and commands -/

/-- The options. -/
inductive Switch where
  | help
  | dryRun
  | backup
  | config
  | verbose
  deriving DecidableEq, Repr

namespace Switch

/-- The name of an option. -/
def name : Switch → Text
  | help => "--help".toList
  | dryRun => "--dry-run".toList
  | backup => "--backup".toList
  | config => "--config".toList
  | verbose => "--verbose".toList

/-- The letter that stands for an option behind a single dash. -/
def letter? : Switch → Option Char
  | help => some 'h'
  | verbose => some 'v'
  | _ => none

/-- The option takes a value.  No option with a letter does. -/
def takesValue : Switch → Bool
  | config => true
  | _ => false

end Switch

/-- The commands. -/
inductive Command where
  | convert
  | scan
  deriving DecidableEq, Repr

/-- The options before the command. -/
def mainSwitches : List Switch := [.help]

/-- The options of a command. -/
def Command.switches : Command → List Switch
  | convert => [.help, .dryRun, .backup, .config, .verbose]
  | scan => [.help, .config, .verbose]

/-- The command with a name. -/
def Command.ofName? (name : Text) : Option Command :=
  if name = "convert".toList then some .convert
  else if name = "scan".toList then some .scan
  else none

/-! ## What an argument looks like -/

/-- What an argument looks like. -/
inductive Mark where
  | operand
  /-- The `--` that ends the options. -/
  | separator
  /-- An option by its name, with the value that is written with it. -/
  | option (switch : Switch) (value : Option Text)
  /-- The text behind a single dash, without an equals sign behind the first
  letter if more follows.  The first letter stands for an option. -/
  | letters (text : Text)
  | unknown
  /-- The start of more than one option. -/
  | ambiguous
  deriving DecidableEq, Repr

/-- A text before its first `=` and the text after it, if it has one. -/
def splitValue (argument : Text) : Text × Option Text :=
  let name := argument.takeWhile (· ≠ '=')
  (name,
    if name.length < argument.length then some (argument.drop (name.length + 1))
    else none)

/-- The options that a name may mean: the one with just that name, or all that
start like it. -/
def named (switches : List Switch) (name : Text) : List Switch :=
  match switches.find? fun switch => switch.name = name with
  | some switch => [switch]
  | none => switches.filter fun switch => name.isPrefixOf switch.name

/-- The option that a letter stands for. -/
def lettered? (switches : List Switch) (letter : Char) : Option Switch :=
  switches.find? fun switch => switch.letter? = some letter

/-- The text is a negative number. -/
def isNegativeNumber (argument : Text) : Bool :=
  let text := if argument.getLast? = some '\n' then argument.dropLast
    else argument
  match text with
  | '-' :: rest =>
    let isDecimal (c : Char) : Bool := (decimalValue? c).isSome
    let whole := rest.takeWhile isDecimal
    match rest.drop whole.length with
    | [] => !whole.isEmpty
    | '.' :: fraction => !fraction.isEmpty && fraction.all isDecimal
    | _ => false
  | _ => false

/-- What an argument with a dash looks like if it names no option: a negative
number and a text with a space are operands. -/
def markUnnamed (argument : Text) : Mark :=
  if isNegativeNumber argument || argument.contains ' ' then .operand
  else .unknown

/-- The letters in the text behind a single dash.  An equals sign may stand
behind the first one if more follows. -/
def joinedLetters : Text → Text
  | letter :: '=' :: next :: rest => letter :: next :: rest
  | text => text

/-- What one argument looks like where options may stand. -/
def mark (switches : List Switch) (argument : Text) : Mark :=
  match argument with
  | ['-', '-'] => .separator
  | '-' :: '-' :: _ =>
    let (name, value) := splitValue argument
    match named switches name with
    | [] => markUnnamed argument
    | [switch] => .option switch value
    | _ => .ambiguous
  | '-' :: letter :: rest =>
    if (lettered? switches letter).isSome then
      .letters (joinedLetters (letter :: rest))
    else markUnnamed argument
  | _ => .operand

/-- What all arguments look like, each with its text.  Everything after the
separator is an operand. -/
def markAll (switches : List Switch) : List Text → List (Text × Mark)
  | [] => []
  | argument :: rest =>
    match mark switches argument with
    | .separator =>
      (argument, .separator) :: rest.map fun operand => (operand, .operand)
    | other => (argument, other) :: markAll switches rest

/-- An argument is the start of more than one option. -/
def hasAmbiguous (marked : List (Text × Mark)) : Bool :=
  marked.any fun entry => entry.2 = .ambiguous

/-! ## Options of a command -/

/-- Whether the group of paths has come. -/
inductive Group where
  | before
  | inside
  | after
  deriving DecidableEq, Repr

/-- What is known after some arguments. -/
structure Settings where
  group : Group := .before
  paths : List Text := []
  dryRun : Bool := false
  backup : Bool := false
  config : Option Text := none
  verbose : Bool := false
  /-- An argument fits nowhere. -/
  stray : Bool := false
  deriving DecidableEq, Repr

/-- How the reading of arguments ends. -/
inductive Outcome (α : Type) where
  | done (value : α)
  | help
  | usageError
  deriving Repr

/-- The options that some letters stand for, if each letter stands for one. -/
def readLetters? (switches : List Switch) (letters : Text) :
    Option (List Switch) :=
  letters.mapM (lettered? switches)

namespace Settings

/-- An option ends the group of paths. -/
def closeGroup (settings : Settings) : Settings :=
  if settings.group = .inside then { settings with group := .after }
  else settings

/-- Takes an option without a value. -/
def set (settings : Settings) : Switch → Settings
  | .dryRun => { settings with dryRun := true }
  | .backup => { settings with backup := true }
  | .verbose => { settings with verbose := true }
  | _ => settings

/-- Takes a path. -/
def addPath (settings : Settings) (path : Text) : Settings :=
  if settings.group = .after then { settings with stray := true }
  else { settings with group := .inside, paths := settings.paths ++ [path] }

/-- Takes the end of the options. -/
def separate (settings : Settings) : Settings :=
  if settings.group = .after then { settings with stray := true }
  else { settings with group := .inside }

end Settings

/-- Takes options without values. -/
def Settings.setAll (settings : Settings) (switches : List Switch) : Settings :=
  switches.foldl Settings.set settings

/-- Takes the value of the option for the configuration.  The separator is no
value. -/
def Settings.setConfig (settings : Settings) (value : Text) : Settings :=
  { settings with config := if value = ['-', '-'] then none else some value }

/-- Goes through the arguments of a command.  `awaiting` tells that an option
waits for its value. -/
def readOptions (switches : List Switch) (settings : Settings)
    (awaiting : Bool) :
    List (Text × Mark) → Outcome Settings
  | [] => if awaiting || settings.stray then .usageError else .done settings
  | (argument, mark) :: rest =>
    match awaiting, mark with
    | true, .operand =>
      readOptions switches (settings.setConfig argument) false rest
    | true, _ => .usageError
    | false, .operand =>
      readOptions switches (settings.addPath argument) false rest
    | false, .separator => readOptions switches settings.separate false rest
    | false, .unknown =>
      readOptions switches { settings.closeGroup with stray := true } false rest
    | false, .ambiguous => .usageError
    | false, .option switch value =>
      let settings := settings.closeGroup
      match switch.takesValue, value with
      | true, some value =>
        readOptions switches (settings.setConfig value) false rest
      | true, none => readOptions switches settings true rest
      | false, some _ => .usageError
      | false, none =>
        if switch = .help then .help
        else readOptions switches (settings.set switch) false rest
    | false, .letters text =>
      match readLetters? switches text with
      | none => .usageError
      | some found =>
        if found.contains .help then .help
        else readOptions switches (settings.closeGroup.setAll found) false rest

/-! ## The whole command line -/

/-- A command line: a command with its settings, or no command. -/
inductive Arguments where
  | nothing
  | command (command : Command) (settings : Settings)
  deriving DecidableEq, Repr

/-- What a command line asks for. -/
inductive Request where
  | arguments (arguments : Arguments)
  | mainHelp
  | commandHelp (command : Command)
  | usageError
  deriving DecidableEq, Repr

/-- Reads the arguments of a command.  `stray` tells that an argument before the
command fits nowhere. -/
def readCommand (command : Command) (stray : Bool) (arguments : List Text) :
    Request :=
  let marked := markAll command.switches arguments
  if hasAmbiguous marked then .usageError
  else
    match readOptions command.switches { stray } false marked with
    | .done settings => .arguments (.command command settings)
    | .help => .commandHelp command
    | .usageError => .usageError

/-- Goes through the arguments up to the command. -/
def readMain (stray : Bool) : List (Text × Mark) → Request
  | [] => if stray then .usageError else .arguments .nothing
  | (argument, mark) :: rest =>
    match mark with
    | .operand =>
      match Command.ofName? argument with
      | some command => readCommand command stray (rest.map (·.1))
      | none => .usageError
    | .unknown => readMain true rest
    | .option .help none => .mainHelp
    | .letters text =>
      if (readLetters? mainSwitches text).isSome then .mainHelp else .usageError
    | _ => .usageError

/-- Reads a command line. -/
def Request.ofArguments (arguments : List Text) : Request :=
  readMain false (markAll mainSwitches arguments)

end OklchGate.CommandLine
