import OklchGate.Color.Perceptual
import OklchGate.Number.FixedPlaces

/-!
# The text of an OKLCH color

* `componentText` writes one component: its exact value rounded to a number
  of places, a half going away from zero, without zeros at the end.
* `oklchText` writes a color as `oklch(L C H)`, with three places for
  lightness and chroma and two for the hue.
* `oklchOfHex` converts a hex color, and `Failure` says why it cannot.
* A `Converter` is any function from hex colors to texts that may fail; the
  rest of the library works with all of them.
-/

namespace OklchGate

/-- The greatest number of digits that a rounded component may have. -/
def componentDigits : Nat := 28

/-- The text of a component with at most `places` places, unless it is infinite
or has too many digits. -/
def componentText (places : Nat) : Binary64 → Option Text
  | .nan => some "NaN".toList
  | .infinite _ => none
  | .finite value =>
    let units := value.roundTo .awayFromZero places
    if units < tenTo componentDigits then
      some (shortText places value.negative units)
    else none

/-- The text of a component that may be missing and then is zero. -/
def optionalComponentText (places : Nat) (value : Option Float) : Option Text :=
  componentText places (Binary64.ofFloat (value.getD 0.0))

/-- The text of a color, unless a component has none. -/
def oklchText (color : Perceptual) : Option Text := do
  let lightness ← optionalComponentText 3 color.lightness
  let chroma ← optionalComponentText 3 color.chroma
  let hue ← optionalComponentText 2 color.hue
  return "oklch(".toList ++ lightness ++ [' '] ++ chroma ++ [' '] ++ hue ++
    [')']

/-! ## Conversion of hex colors -/

/-- Why a hex color has no text in OKLCH. -/
inductive Failure where
  /-- The text is no hex color. -/
  | noResult
  /-- A component cannot be rounded. -/
  | unprintable
  /-- The coordinates could not be computed. -/
  | failed (reason : Text)

/-- The wording of a failure. -/
def Failure.message : Failure → Text
  | noResult => "no result".toList
  | unprintable => "[<class 'decimal.InvalidOperation'>]".toList
  | failed reason => reason

/-- The warning about a value that could not be converted. -/
def Failure.warning (value : Text) (failure : Failure) : Text :=
  "Failed to convert ".toList ++ value ++ ": ".toList ++ failure.message

/-- Converts a hex color with coordinates computed by `perceive`. -/
def oklchOfHexBy (perceive : Text → Except Text (Option Perceptual))
    (value : Text) :
    Except Failure Text :=
  match perceive value with
  | .error reason => .error (.failed reason)
  | .ok none => .error .noResult
  | .ok (some color) =>
    match oklchText color with
    | some text => .ok text
    | none => .error .unprintable

/-- Converts a hex color. -/
def oklchOfHex (value : Text) : Except Failure Text :=
  oklchOfHexBy (Perceptual.ofHexBy Measure.oklch) value

/-- A way to turn hex colors into texts, which may fail. -/
abbrev Converter := Text → Option Text

/-- The conversion to OKLCH. -/
def Converter.oklch : Converter := fun value => (oklchOfHex value).toOption

end OklchGate
