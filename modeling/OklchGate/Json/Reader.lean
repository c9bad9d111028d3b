import OklchGate.Json.Value
import OklchGate.Number.Numeral
import OklchGate.Pieces
import OklchGate.Text.Line

/-!
# Reading JSON

The reader takes standard JSON and also the words `NaN`, `Infinity` and
`-Infinity`.  It stops at the first fault and names its place.

* `Json.Error` is a cause with its line, column and offset.
* `readString` and `readNumber?` read scalars.
* `readValue`, `readItems` and `readMembers` read values; their first argument
  bounds the depth of the recursion, and `Json.parse` gives a bound that the
  text cannot reach.
-/

namespace OklchGate.Json

/-! ## Errors -/

/-- Why a text is no JSON. -/
inductive Cause where
  | expectedValue
  | expectedName
  | expectedColon
  | expectedComma
  | extraData
  | openString
  | controlCharacter
  | badEscape
  | badUnicodeEscape
  | byteOrderMark
  deriving DecidableEq, Repr

/-- The wording of a cause. -/
def Cause.message : Cause → Text
  | expectedValue => "Expecting value".toList
  | expectedName => "Expecting property name enclosed in double quotes".toList
  | expectedColon => "Expecting ':' delimiter".toList
  | expectedComma => "Expecting ',' delimiter".toList
  | extraData => "Extra data".toList
  | openString => "Unterminated string starting at".toList
  | controlCharacter => "Invalid control character at".toList
  | badEscape => "Invalid \\escape".toList
  | badUnicodeEscape => "Invalid \\uXXXX escape".toList
  | byteOrderMark => "Unexpected UTF-8 BOM (decode using utf-8-sig)".toList

/-- A cause and the offset it is about. -/
structure Fault where
  cause : Cause
  offset : Nat
  deriving DecidableEq, Repr

/-- A fault and its place in the text. -/
structure Error where
  fault : Fault
  position : Position
  deriving DecidableEq, Repr

/-- The wording of an error. -/
def Error.message (error : Error) : Text :=
  error.fault.cause.message ++ ": line ".toList ++
    Text.ofNat error.position.line ++
    " column ".toList ++ Text.ofNat error.position.column ++ " (char ".toList ++
    Text.ofNat error.fault.offset ++ [')']

/-! ## Cursors -/

/-- An offset in a text and what follows it. -/
structure Cursor where
  offset : Nat
  rest : Text

namespace Cursor

/-- Goes on by some characters. -/
def skip (cursor : Cursor) (count : Nat) : Cursor :=
  ⟨cursor.offset + count, cursor.rest.drop count⟩

/-- Goes on to the next character that is no white space. -/
def skipSpace (cursor : Cursor) : Cursor :=
  cursor.skip (cursor.rest.takeWhile fun c =>
    c = ' ' || c = '\t' || c = '\n' || c = '\r').length

/-- The next character is `c`. -/
def at? (cursor : Cursor) (c : Char) : Bool := cursor.rest.head? = some c

/-- A fault at the cursor. -/
def fault {α : Type} (cursor : Cursor) (cause : Cause) : Except Fault α :=
  .error ⟨cause, cursor.offset⟩

end Cursor

/-! ## Strings -/

/-- The number that the next four characters write in base sixteen. -/
def fourHex? (text : Text) : Option Nat :=
  let digits := text.take 4
  if digits.length = 4 && digits.all isHexDigit then
    some (digits.foldl (fun n c => 16 * n + hexDigitValue c) 0)
  else none

/-- A code unit that starts a surrogate pair. -/
def isHighSurrogate (n : Nat) : Bool := 0xD800 ≤ n && n < 0xDC00

/-- A code unit that ends a surrogate pair. -/
def isLowSurrogate (n : Nat) : Bool := 0xDC00 ≤ n && n < 0xE000

/-- The character of a code unit; a surrogate that stands alone becomes
U+FFFD. -/
def unitChar (n : Nat) : Char :=
  if isHighSurrogate n || isLowSurrogate n then '\uFFFD' else Char.ofNat n

/-- Reads the text after `\u`.  The answer counts characters from the
backslash, which is not counted itself. -/
def readUnicodeEscape (text : Text) : Except (Cause × Nat) (Char × Nat) :=
  if text.length ≤ 4 then .error (.badUnicodeEscape, 1)
  else
    match fourHex? text with
    | none => .error (.badUnicodeEscape, 1)
    | some high =>
      if isHighSurrogate high && 10 < text.length &&
          text.slice 4 6 = ['\\', 'u'] then
        match fourHex? (text.drop 6) with
        | none => .error (.badUnicodeEscape, 7)
        | some low =>
          if isLowSurrogate low then
            .ok (Char.ofNat (0x10000 + 1024 * (high - 0xD800) + (low - 0xDC00)),
              11)
          else .ok (unitChar high, 5)
      else .ok (unitChar high, 5)

/-- Reads the text after the backslash of an escape: the character that is
meant and the number of characters read, or a cause and its distance from the
backslash. -/
def readEscape : Text → Except (Cause × Nat) (Char × Nat)
  | [] => .error (.openString, 0)
  | 'u' :: rest => readUnicodeEscape rest
  | '"' :: _ => .ok ('"', 1)
  | '\\' :: _ => .ok ('\\', 1)
  | '/' :: _ => .ok ('/', 1)
  | 'b' :: _ => .ok ('\x08', 1)
  | 'f' :: _ => .ok ('\x0c', 1)
  | 'n' :: _ => .ok ('\n', 1)
  | 'r' :: _ => .ok ('\r', 1)
  | 't' :: _ => .ok ('\t', 1)
  | _ => .error (.badEscape, 0)

/-- Reads one character of a string.  It refuses a quote, a control character
and a bad escape. -/
def readStringChar (c : Char) (rest : Text) : Option (Char × Nat) :=
  if c = '"' ∨ c.toNat ≤ 0x1F then none
  else if c = '\\' then (readEscape rest).toOption
  else some (c, 0)

/-- Reads a string after its opening quote. -/
def readString (cursor : Cursor) : Except Fault (Text × Cursor) :=
  let (text, length) := Pieces.run readStringChar cursor.rest
  let stop := cursor.skip length
  let opening : Nat := cursor.offset - 1
  match stop.rest with
  | [] => .error ⟨.openString, opening⟩
  | '"' :: _ => .ok (text, stop.skip 1)
  | '\\' :: rest =>
    match readEscape rest with
    | .error (.openString, _) => .error ⟨.openString, opening⟩
    | .error (cause, distance) => .error ⟨cause, stop.offset + distance⟩
    | .ok _ => .ok (text, stop)
  | _ => stop.fault .controlCharacter

/-! ## Numbers -/

/-- A size that no binary64 number reaches, as a power of ten. -/
def greatestPower : Int := 400

/-- The binary64 number nearest to `digits * 10 ^ exponent`. -/
def realOf (negative : Bool) (digits : Text) (exponent : Int) : Binary64 :=
  let mantissa := digitsValue digits
  let power := (digits.length : Int) + exponent
  if mantissa = 0 ∨ power < -greatestPower then .finite ⟨negative, 0, 0⟩
  else if greatestPower < exponent then .infinite negative
  else
    let size := Float.ofScientific mantissa (exponent < 0) exponent.natAbs
    Binary64.ofFloat (if negative then -size else size)

/-- The value of the exponent that a text writes after its mark. -/
def exponentValue : Text → Int
  | _ :: '-' :: digits => -(digitsValue digits : Int)
  | _ :: '+' :: digits => digitsValue digits
  | _ :: digits => digitsValue digits
  | [] => 0

/-- The length of the whole part of a number: a zero, or digits that do not
start with zero. -/
def wholeLength : Text → Nat
  | '0' :: _ => 1
  | text => digitLength text

/-- Reads a number: its value and its length. -/
def readNumber? (text : Text) : Option (JsonValue × Nat) :=
  let sign := if text.head? = some '-' then 1 else 0
  let whole := wholeLength (text.drop sign)
  let fraction := fractionLength (text.drop (sign + whole))
  let exponent := exponentLength (text.drop (sign + whole + fraction))
  let negative := sign = 1
  let wholeDigits := text.slice sign (sign + whole)
  if whole = 0 then none
  else if fraction = 0 ∧ exponent = 0 then
    let size : Int := digitsValue wholeDigits
    some (.integer (if negative then -size else size), sign + whole)
  else
    let fractionDigits :=
      text.slice (sign + whole + 1) (sign + whole + fraction)
    let power := exponentValue (text.slice (sign + whole + fraction)
      (sign + whole + fraction + exponent))
    some (.real (realOf negative (wholeDigits ++ fractionDigits)
      (power - fractionDigits.length)), sign + whole + fraction + exponent)

/-- The words that stand for values. -/
def words : List (Text × JsonValue) :=
  [("null".toList, .null), ("true".toList, .bool true),
   ("false".toList, .bool false), ("NaN".toList, .real .nan),
   ("Infinity".toList, .real (.infinite false)),
   ("-Infinity".toList, .real (.infinite true))]

/-- Reads a word or a number. -/
def readScalar (cursor : Cursor) : Except Fault (JsonValue × Cursor) :=
  match words.find? fun word => word.1.isPrefixOf cursor.rest with
  | some (word, value) => .ok (value, cursor.skip word.length)
  | none =>
    match readNumber? cursor.rest with
    | some (value, length) => .ok (value, cursor.skip length)
    | none => cursor.fault .expectedValue

/-! ## Values -/

mutual

/-- Reads a value that starts at the cursor. -/
def readValue : Nat → Cursor → Except Fault (JsonValue × Cursor)
  | 0, cursor => cursor.fault .expectedValue
  | bound + 1, cursor =>
    if cursor.at? '"' then do
      let (text, cursor) ← readString (cursor.skip 1)
      return (.string text, cursor)
    else if cursor.at? '[' then
      let inner := (cursor.skip 1).skipSpace
      if inner.at? ']' then .ok (.array [], inner.skip 1)
      else do
        let (items, cursor) ← readItems bound inner
        return (.array items, cursor)
    else if cursor.at? '\x7b' then
      let inner := (cursor.skip 1).skipSpace
      if inner.at? '\x7d' then .ok (.object [], inner.skip 1)
      else do
        let (members, cursor) ← readMembers bound inner
        return (.object members, cursor)
    else readScalar cursor

/-- Reads the items of an array up to and with its closing bracket. -/
def readItems : Nat → Cursor → Except Fault (List JsonValue × Cursor)
  | 0, cursor => cursor.fault .expectedValue
  | bound + 1, cursor => do
    let (item, cursor) ← readValue bound cursor
    let cursor := cursor.skipSpace
    if cursor.at? ']' then return ([item], cursor.skip 1)
    else if cursor.at? ',' then do
      let (items, cursor) ← readItems bound (cursor.skip 1).skipSpace
      return (item :: items, cursor)
    else cursor.fault .expectedComma

/-- Reads the members of an object up to and with its closing brace. -/
def readMembers : Nat → Cursor → Except Fault (List (Text × JsonValue) × Cursor)
  | 0, cursor => cursor.fault .expectedValue
  | bound + 1, cursor => do
    if !cursor.at? '"' then cursor.fault .expectedName
    else
      let (name, cursor) ← readString (cursor.skip 1)
      let cursor := cursor.skipSpace
      if !cursor.at? ':' then cursor.fault .expectedColon
      else
        let (value, cursor) ← readValue bound (cursor.skip 1).skipSpace
        let cursor := cursor.skipSpace
        if cursor.at? '\x7d' then return ([(name, value)], cursor.skip 1)
        else if cursor.at? ',' then do
          let (members, cursor) ← readMembers bound (cursor.skip 1).skipSpace
          return ((name, value) :: members, cursor)
        else cursor.fault .expectedComma

end

/-- Reads a whole text as one value. -/
def readAll (text : Text) : Except Fault JsonValue := do
  if text.head? = some '\uFEFF' then .error ⟨.byteOrderMark, 0⟩
  else
    let (value, cursor) ←
      readValue (2 * text.length + 2) (Cursor.mk 0 text).skipSpace
    let stop := cursor.skipSpace
    if stop.rest.isEmpty then return value else stop.fault .extraData

/-- Reads a text as JSON. -/
def parse (text : Text) : Except Error JsonValue :=
  (readAll text).mapError fun fault =>
    ⟨fault, Position.advance {} (text.take fault.offset)⟩

end OklchGate.Json
