import OklchGate.Pieces
import OklchGate.Text

/-!
# UTF-8

* `Utf8.encode` writes a text as bytes.
* `Utf8.decode` reads bytes.  It accepts exactly the well-formed sequences:
  no overlong forms, no surrogates, nothing above U+10FFFF.
* `Utf8.Fault` says what is wrong with a sequence and which bytes are to
  blame: the first byte, or the bytes up to the one that does not fit, or all
  bytes to the end of the data.
-/

namespace OklchGate

/-- The bytes of a file. -/
abbrev Bytes := List UInt8

namespace Utf8

/-! ## Encoding -/

/-- A continuation byte with the lowest six bits of a number. -/
def continuation (n : Nat) : UInt8 := UInt8.ofNat (0x80 + n % 64)

/-- The bytes of a character. -/
def encodeChar (c : Char) : Bytes :=
  let n := c.toNat
  if n < 0x80 then [UInt8.ofNat n]
  else if n < 0x800 then [UInt8.ofNat (0xC0 + n / 64), continuation n]
  else if n < 0x10000 then
    [UInt8.ofNat (0xE0 + n / 4096), continuation (n / 64), continuation n]
  else
    [UInt8.ofNat (0xF0 + n / 262144), continuation (n / 4096),
      continuation (n / 64), continuation n]

/-- The bytes of a text. -/
def encode (text : Text) : Bytes := text.flatMap encodeChar

/-! ## Faults -/

/-- What is wrong with a sequence. -/
inductive Cause where
  | badStart
  | badContinuation
  | endOfData
  deriving DecidableEq, Repr

/-- The wording of a cause. -/
def Cause.message : Cause → Text
  | badStart => "invalid start byte".toList
  | badContinuation => "invalid continuation byte".toList
  | endOfData => "unexpected end of data".toList

/-- A fault in some data: `count` bytes from `offset` on, the first of which is
`byte`. -/
structure Fault where
  cause : Cause
  offset : Nat
  count : Nat
  byte : UInt8
  deriving DecidableEq, Repr

/-- A byte in two hexadecimal digits. -/
def byteText (byte : UInt8) : Text :=
  let digit (n : Nat) : Char := (Nat.toDigits 16 n).headD '0'
  [digit (byte.toNat / 16), digit (byte.toNat % 16)]

/-- The wording of a fault. -/
def Fault.message (fault : Fault) : Text :=
  "'utf-8' codec can't decode ".toList ++
    (if fault.count = 1 then
      "byte 0x".toList ++ byteText fault.byte ++ " in position ".toList ++
        Text.ofNat fault.offset
    else
      "bytes in position ".toList ++ Text.ofNat fault.offset ++ ['-'] ++
        Text.ofNat (fault.offset + fault.count - 1)) ++
    [':', ' '] ++ fault.cause.message

/-! ## Decoding -/

/-- What a first byte announces: the bits that it carries, and the least and
the greatest value of each continuation byte. -/
def announced? (first : UInt8) : Option (Nat × List (Nat × Nat)) :=
  let n := first.toNat
  let any : Nat × Nat := (0x80, 0xBF)
  if n < 0x80 then some (n, [])
  else if n < 0xC2 then none
  else if n < 0xE0 then some (n - 0xC0, [any])
  else if n = 0xE0 then some (0, [(0xA0, 0xBF), any])
  else if n = 0xED then some (0xD, [(0x80, 0x9F), any])
  else if n < 0xF0 then some (n - 0xE0, [any, any])
  else if n = 0xF0 then some (0, [(0x90, 0xBF), any, any])
  else if n < 0xF4 then some (n - 0xF0, [any, any, any])
  else if n = 0xF4 then some (4, [(0x80, 0x8F), any, any])
  else none

/-- Reads continuation bytes onto the bits `value`.  A fault comes with the
number of bytes that fit. -/
def readContinuations (value : Nat) :
    List (Nat × Nat) → Bytes → Except (Cause × Nat) Nat
  | [], _ => .ok value
  | _ :: _, [] => .error (.endOfData, 0)
  | (least, greatest) :: bounds, byte :: rest =>
    if least ≤ byte.toNat ∧ byte.toNat ≤ greatest then
      (readContinuations (64 * value + byte.toNat % 64) bounds rest).mapError
        fun (cause, count) => (cause, count + 1)
    else .error (.badContinuation, 0)

/-- Reads one character: the character and the number of continuation bytes,
or a fault and the number of bytes to blame. -/
def readChar (first : UInt8) (rest : Bytes) :
    Except (Cause × Nat) (Char × Nat) :=
  match announced? first with
  | none => .error (.badStart, 1)
  | some (bits, bounds) =>
    match readContinuations bits bounds rest with
    | .ok value => .ok (Char.ofNat value, bounds.length)
    | .error (cause, count) => .error (cause, count + 1)

/-- Reads bytes as text. -/
def decode (data : Bytes) : Except Fault Text :=
  let (text, length) :=
    Pieces.run (fun first rest => (readChar first rest).toOption) data
  match data.drop length with
  | [] => .ok text
  | first :: rest =>
    match readChar first rest with
    | .ok _ => .ok text
    | .error (cause, count) => .error ⟨cause, length, count, first⟩

end Utf8

end OklchGate
