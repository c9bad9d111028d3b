import OklchGate.Text.Blank
import OklchGate.Text.Digit
import OklchGate.Text.Quoted

/-!
# Hex colors

A hex color is a `#` and three, four, six or eight hexadecimal digits.

* `isHexColor` recognizes a hex color with blanks around it.
* `Rgba.ofHex` reads the channels.  It takes more than `isHexColor` does:
  any number of `#` at the start or none, and for the two characters of a
  channel also a sign or a blank beside one digit, and digits of any script.
-/

namespace OklchGate

/-- The text is a hex color with blanks around it. -/
def isHexColor (text : Text) : Bool :=
  match text.trim with
  | '#' :: digits =>
    digits.all isHexDigit && [3, 4, 6, 8].contains digits.length
  | _ => false

/-- A color with channels in units of 1/255. -/
structure Rgba where
  red : Int
  green : Int
  blue : Int
  alpha : Int
  deriving DecidableEq, Repr

/-- Why a text is no color. -/
inductive HexError where
  /-- The text has the wrong number of digits. -/
  | wrongLength (text : Text)
  /-- The two characters of a channel are no number. -/
  | badChannel (pair : Text)
  deriving DecidableEq, Repr

/-- The wording of an error. -/
def HexError.message : HexError → Text
  | wrongLength text => "Not a hex colour: ".toList ++ text.quoted
  | badChannel pair =>
    "invalid literal for int() with base 16: ".toList ++ pair.quoted

/-- The value of a hexadecimal digit whose decimal digits may be of any
script. -/
def channelDigit? (c : Char) : Option Nat :=
  if isHexDigit c then some (hexDigitValue c) else decimalValue? c

/-- The number that some digits write in base sixteen. -/
def channelDigits? (digits : Text) : Option Nat :=
  if digits.isEmpty then none
  else (digits.mapM channelDigit?).map fun values =>
    values.foldl (fun n value => 16 * n + value) 0

/-- The value of the characters of one channel. -/
def channel? (pair : Text) : Option Int :=
  match pair.trimClass isPadding with
  | '-' :: digits => (channelDigits? digits).map fun n => -(n : Int)
  | '+' :: digits => (channelDigits? digits).map fun n => (n : Int)
  | digits => (channelDigits? digits).map fun n => (n : Int)

/-- The digits of a color, two for each channel: blanks around the text and
`#` at its start are left out, and three or four digits are doubled. -/
def channelText (text : Text) : Text :=
  let digits := text.trim.dropWhile (· = '#')
  if digits.length = 3 ∨ digits.length = 4 then digits.flatMap fun c => [c, c]
  else digits

namespace Rgba

/-- Reads one channel that starts at an offset. -/
def readChannel (digits : Text) (offset : Nat) : Except HexError Int :=
  let pair := digits.slice offset (offset + 2)
  match channel? pair with
  | some value => .ok value
  | none => .error (.badChannel pair)

/-- Reads a color.  A color without alpha is opaque. -/
def ofHex (text : Text) : Except HexError Rgba := do
  let digits := channelText text
  if digits.length = 6 ∨ digits.length = 8 then
    let red ← readChannel digits 0
    let green ← readChannel digits 2
    let blue ← readChannel digits 4
    let alpha ← if digits.length = 8 then readChannel digits 6 else .ok 255
    return ⟨red, green, blue, alpha⟩
  else .error (.wrongLength text)

/-- A channel as a number, where 255 is one. -/
def toFloat (channel : Int) : Float := Float.ofInt channel / 255.0

end Rgba

end OklchGate
