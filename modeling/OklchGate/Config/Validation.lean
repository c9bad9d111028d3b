import OklchGate.Config.Basic
import OklchGate.Json.Value
import OklchGate.Number.Numeral

/-!
# Validation of configuration data

A configuration is read from a JSON object.  Members with other names are
ignored, and a setting that is not given has its default.  All settings are
checked, in the order of `Config`, and all complaints are kept.

* `Complaint` is a fault with the setting and the list index that it is about.
* `integerSetting`, `flagSetting`, `listSetting` and `indentSetting` read one
  setting each; the first two also take some texts and numbers that mean an
  integer or a truth value.
* `Config.ofJson` reads them all.
-/

namespace OklchGate

/-! ## Complaints -/

/-- What is wrong with a setting. -/
inductive SettingFault where
  | notObject
  | notInteger
  | badIntegerText
  | tooLarge
  | fractional
  | notFinite
  | belowOne
  | notList
  | notString
  | badIndent
  | notFlag
  | badFlag
  deriving DecidableEq, Repr

namespace SettingFault

/-- The short name of a fault. -/
def code : SettingFault → Text
  | notObject => "model_type".toList
  | notInteger => "int_type".toList
  | badIntegerText => "int_parsing".toList
  | tooLarge => "int_parsing_size".toList
  | fractional => "int_from_float".toList
  | notFinite => "finite_number".toList
  | belowOne => "greater_than_equal".toList
  | notList => "list_type".toList
  | notString => "string_type".toList
  | badIndent => "value_error".toList
  | notFlag => "bool_type".toList
  | badFlag => "bool_parsing".toList

/-- The wording of a fault. -/
def message : SettingFault → Text
  | notObject =>
    "Input should be a valid dictionary or instance of OklchifyConfig".toList
  | notInteger => "Input should be a valid integer".toList
  | badIntegerText =>
    "Input should be a valid integer, unable to parse string as an integer".toList
  | tooLarge =>
    "Unable to parse input string as an integer, exceeded maximum size".toList
  | fractional =>
    "Input should be a valid integer, got a number with a fractional part".toList
  | notFinite => "Input should be a finite number".toList
  | belowOne => "Input should be greater than or equal to 1".toList
  | notList => "Input should be a valid list".toList
  | notString => "Input should be a valid string".toList
  | badIndent =>
    "Value error, default_indent must contain only spaces or tabs".toList
  | notFlag => "Input should be a valid boolean".toList
  | badFlag =>
    "Input should be a valid boolean, unable to interpret input".toList

end SettingFault

/-- A fault, the setting it is in, and the index in a list. -/
structure Complaint where
  setting : Option Text
  index : Option Nat
  fault : SettingFault
  deriving DecidableEq, Repr

/-- The outcome of reading one setting: a value, or the faults with the list
indexes that they are about. -/
abbrev SettingResult (α : Type) := Except (List (Option Nat × SettingFault)) α

/-- A fault of a whole setting. -/
def SettingFault.whole {α : Type} (fault : SettingFault) : SettingResult α :=
  .error [(none, fault)]

/-! ## Integers -/

/-- The number as an integer, if it is one. -/
def Dyadic.toInt? (x : Dyadic) : Option Int :=
  if x.numerator % x.denominator = 0 then
    let size : Int := x.numerator / x.denominator
    some (if x.negative then -size else size)
  else none

/-- The text without a point that only zeros, and at least one, come after. -/
def dropZeroFraction (text : Text) : Text :=
  let whole := text.takeWhile (· ≠ '.')
  let fraction := (text.drop whole.length).drop 1
  if !fraction.isEmpty && fraction.all (· = '0') then whole else text

/-- The text from its first character on that is neither a zero nor a low line,
after a zero at its start; the last character of a text of zeros and low lines.
A text that goes on with something else than a digit or a dash has no such
part. -/
def dropLeadingZeros? (text : Text) : Option Text :=
  let startsNumber (c : Char) : Bool := c ≠ '0' && (isDigit c || c = '-')
  match text with
  | '0' :: rest =>
    match rest.dropWhile fun c => c = '0' || c = '_' with
    | [] => text.getLast?.map fun last => [last]
    | c :: tail => if startsNumber c then some (c :: tail) else none
  | c :: _ => if startsNumber c then some text else none
  | [] => none

/-- Every low line of the text stands between two characters that are none. -/
def hasLoneLowLines (text : Text) : Bool :=
  text.head? ≠ some '_' && text.getLast? ≠ some '_' &&
    (Text.find? ['_', '_'] text).isNone

/-- The integer that a text writes with digits and at most one dash before them.
No zero stands before another digit. -/
def plainInteger? (text : Text) : Option Int :=
  let natural? (digits : Text) : Option Nat :=
    if digits.isEmpty || !digits.all isDigit ||
      (digits.head? = some '0' && digits ≠ ['0'])
      then none else some (digitsValue digits)
  match text with
  | '-' :: digits => (natural? digits).map fun size => -(size : Int)
  | digits => (natural? digits).map Int.ofNat

/-- The integer that a text writes: padding, a sign, zeros in front, digits with
low lines between them, and a fraction of zeros.  A dash may also follow the
zeros in front. -/
def integerOfText? (text : Text) : Option Int := do
  let body := dropZeroFraction (text.trimClass isPadding)
  let (sign, unsigned) ← match body with
    | '-' :: rest => some (['-'], rest)
    | '+' :: '-' :: _ => none
    | '+' :: rest => some ([], rest)
    | rest => some ([], rest)
  let digits ← dropLeadingZeros? unsigned
  let digits := if hasLoneLowLines digits then digits.filter (· ≠ '_')
    else digits
  plainInteger? (sign ++ digits)

/-- A number whose size is at least this bound does not fit into 64 bits. -/
def integerBound : Nat := twoTo 63

/-- Reads an integer.  Truth values count as zero and one. -/
def readInteger : JsonValue → SettingResult Int
  | .integer value => .ok value
  | .bool value => .ok (if value then 1 else 0)
  | .real (.finite value) =>
    match value.toInt? with
    | some n =>
      if n.natAbs < integerBound then .ok n else SettingFault.tooLarge.whole
    | none => SettingFault.fractional.whole
  | .real _ => SettingFault.notFinite.whole
  | .string text =>
    match integerOfText? text with
    | some n => .ok n
    | none => SettingFault.badIntegerText.whole
  | _ => SettingFault.notInteger.whole

/-- Reads an integer of at least one. -/
def integerSetting (value : JsonValue) : SettingResult Int := do
  let n ← readInteger value
  if n < 1 then SettingFault.belowOne.whole else return n

/-! ## Truth values -/

/-- The texts that mean yes. -/
def yesTexts : List Text :=
  ["1".toList, "on".toList, "t".toList, "true".toList, "y".toList, "yes".toList]

/-- The texts that mean no. -/
def noTexts : List Text :=
  ["0".toList, "off".toList, "f".toList, "false".toList, "n".toList,
    "no".toList]

/-- The truth value of an integer that fits into 64 bits. -/
def flagOfInteger (n : Int) : SettingResult Bool :=
  if n = 0 then .ok false else if n = 1 then .ok true
  else SettingFault.badFlag.whole

/-- Reads a truth value. -/
def flagSetting : JsonValue → SettingResult Bool
  | .bool value => .ok value
  | .integer n =>
    if -(integerBound : Int) ≤ n ∧ n < integerBound then flagOfInteger n
    else SettingFault.notFlag.whole
  | .real (.finite value) =>
    match value.toInt? with
    | some n =>
      if n.natAbs < integerBound then flagOfInteger n
      else SettingFault.notFlag.whole
    | none => SettingFault.notFlag.whole
  | .string text =>
    let word := text.map Char.toLower
    if yesTexts.contains word then .ok true
    else if noTexts.contains word then .ok false
    else SettingFault.badFlag.whole
  | _ => SettingFault.notFlag.whole

/-! ## Texts and lists -/

/-- The indexes of the items that are no strings, counted from `index`. -/
def itemFaults (index : Nat) : List JsonValue → List (Option Nat × SettingFault)
  | [] => []
  | .string _ :: rest => itemFaults (index + 1) rest
  | _ :: rest => (some index, .notString) :: itemFaults (index + 1) rest

/-- The strings among some items. -/
def itemTexts (items : List JsonValue) : List Text :=
  items.filterMap fun
    | .string text => some text
    | _ => none

/-- Reads a list of suffixes. -/
def listSetting : JsonValue → SettingResult (List Text)
  | .array items =>
    match itemFaults 0 items with
    | [] => .ok (normalizeExtensions (itemTexts items))
    | faults => .error faults
  | _ => SettingFault.notList.whole

/-- Reads an indent, which has to be blank. -/
def indentSetting : JsonValue → SettingResult Text
  | .string text =>
    if text.allBlank then .ok text else SettingFault.badIndent.whole
  | _ => SettingFault.notString.whole

/-! ## The whole configuration -/

/-- Reads the member with the given name, or takes the default if there is
none. -/
def setting {α : Type} (members : List (Text × JsonValue)) (name : Text)
    (default : α) (read : JsonValue → SettingResult α) :
    Except (List Complaint) α :=
  match JsonValue.member? name members with
  | none => .ok default
  | some value =>
    (read value).mapError fun faults =>
      faults.map fun (index, fault) => ⟨some name, index, fault⟩

/-- The complaints about a setting. -/
def complaintsOf {α : Type} : Except (List Complaint) α → List Complaint
  | .ok _ => []
  | .error complaints => complaints

/-- Reads a configuration. -/
def Config.ofJson : JsonValue → Except (List Complaint) Config
  | .object members =>
    let defaults : Config := {}
    let version :=
      setting members "schema_version".toList defaults.schemaVersion
        integerSetting
    let styles := setting members "css_extensions".toList
      defaults.styleExtensions listSetting
    let mappings :=
      setting members "literal_extensions".toList defaults.mappingExtensions
        listSetting
    let indent := setting members "default_indent".toList defaults.defaultIndent
      indentSetting
    let backup := setting members "backup".toList defaults.backup flagSetting
    match version, styles, mappings, indent, backup with
    | .ok version, .ok styles, .ok mappings, .ok indent, .ok backup =>
      .ok ⟨version, styles, mappings, indent, backup⟩
    | _, _, _, _, _ =>
      .error (complaintsOf version ++ complaintsOf styles ++
        complaintsOf mappings ++ complaintsOf indent ++ complaintsOf backup)
  | _ => .error [⟨none, none, .notObject⟩]

end OklchGate
