import OklchGate.Color.Hex
import OklchGate.Number.Binary64

/-!
# Perceptual coordinates of a color

An sRGB color in the OKLCH space: lightness, chroma and hue.

* `linearized`, `Matrix3.apply` and `Polar.ofChannels` compute the
  coordinates: sRGB to linear light, to XYZ, to cone responses, to OKLab, and
  from there to polar form.  A `Measure` is any way to compute them.
* A color whose chroma is below `achromaticThreshold` has no hue.
* `Perceptual.ofHexBy` is the whole way from the text of a hex color with some
  measure, and `Perceptual.ofHex?` with the one of OKLCH.
-/

namespace OklchGate

/-- Coordinates in OKLCH.  A coordinate may be missing; the hue of a grey
is. -/
structure Perceptual where
  lightness : Option Float
  chroma : Option Float
  hue : Option Float

/-- Coordinates as they are computed.  The hue of a grey means nothing. -/
structure Polar where
  lightness : Float
  chroma : Float
  hue : Float

/-- Three numbers. -/
structure Triple where
  x : Float
  y : Float
  z : Float

/-- A matrix of three rows. -/
structure Matrix3 where
  first : Triple
  second : Triple
  third : Triple

namespace Matrix3

/-- The product of a matrix and a column. -/
def apply (m : Matrix3) (v : Triple) : Triple :=
  let dot (row : Triple) := row.x * v.x + row.y * v.y + row.z * v.z
  ⟨dot m.first, dot m.second, dot m.third⟩

/-- Linear sRGB to XYZ. -/
def linearToXyz : Matrix3 where
  first := ⟨0.4123907992659593, 0.357584339383878, 0.1804807884018343⟩
  second := ⟨0.21263900587151024, 0.715168678767756, 0.07219231536073371⟩
  third := ⟨0.01933081871559182, 0.11919477979462598, 0.9505321522496607⟩

/-- XYZ to cone responses. -/
def xyzToCones : Matrix3 where
  first := ⟨0.819022437996703, 0.3619062600528904, -0.1288737815209879⟩
  second := ⟨0.03298365393238847, 0.9292868615863434, 0.03614466635064236⟩
  third := ⟨0.04817718935962421, 0.2642395317527308, 0.6335478284694309⟩

/-- Cube roots of cone responses to OKLab. -/
def conesToLab : Matrix3 where
  first := ⟨0.21045426830931396, 0.7936177747023053, -0.0040720430116192585⟩
  second := ⟨1.9779985324311686, -2.42859224204858, 0.450593709617411⟩
  third := ⟨0.025904042465547734, 0.7827717124575297, -0.8086757549230774⟩

end Matrix3

/-- The linear light of an sRGB channel. -/
def linearized (x : Float) : Float :=
  if x > 0.04045 then ((x + 0.055) / 1.055).pow 2.4 else x / 12.92

/-- The angle of a point in degrees, from zero up to 360. -/
def hueDegrees (a b : Float) : Float :=
  let degrees := (Float.atan2 b a) * (180.0 / 3.141592653589793)
  if degrees < 0 then degrees + 360.0 else degrees

/-- The chroma at which the text of a chroma stops being zero: the binary64
number nearest to 0.0005. -/
def achromaticThreshold : Dyadic := ⟨false, 0x10624DD2F1A9FC, -63⟩

/-- A chroma is too small for a hue. -/
def isAchromatic (chroma : Binary64) : Bool :=
  match chroma with
  | .finite value => value.negative || value.sizeLt achromaticThreshold
  | .infinite negative => negative
  | .nan => false

/-- The coordinates of a color given by its channels from zero to one. -/
def Polar.ofChannels (channels : Triple) : Polar :=
  let linear : Triple :=
    ⟨linearized channels.x, linearized channels.y, linearized channels.z⟩
  let cones := Matrix3.xyzToCones.apply (Matrix3.linearToXyz.apply linear)
  let lab := Matrix3.conesToLab.apply
    ⟨Float.cbrt cones.x, Float.cbrt cones.y, Float.cbrt cones.z⟩
  ⟨lab.x, Float.sqrt (lab.y * lab.y + lab.z * lab.z), hueDegrees lab.y lab.z⟩

/-- A way to compute the coordinates of a color from its channels, which may
fail. -/
abbrev Measure := Triple → Except Text Polar

/-- The coordinates in OKLCH. -/
def Measure.oklch : Measure := fun channels => .ok (Polar.ofChannels channels)

/-- The channels without alpha, from zero to one. -/
def Rgba.channels (color : Rgba) : Triple :=
  ⟨Rgba.toFloat color.red, Rgba.toFloat color.green, Rgba.toFloat color.blue⟩

namespace Perceptual

/-- A color without chroma, or whose hue is not a number, has no hue. -/
def ofPolar (polar : Polar) : Perceptual :=
  let hue :=
    if isAchromatic (Binary64.ofFloat polar.chroma) || polar.hue.isNaN then none
    else some polar.hue
  ⟨some polar.lightness, some polar.chroma, hue⟩

/-- The coordinates of a hex color, computed by `measure`; alpha is
ignored. -/
def ofHexBy (measure : Measure) (text : Text) :
    Except Text (Option Perceptual) :=
  if isHexColor text then
    match Rgba.ofHex text with
    | .ok color =>
      (measure color.channels).map fun polar => some (ofPolar polar)
    | .error error => .error error.message
  else .ok none

/-- The coordinates of a hex color in OKLCH, if the text is one. -/
def ofHex? (text : Text) : Option Perceptual :=
  (ofHexBy Measure.oklch text).toOption.join

end Perceptual

end OklchGate
