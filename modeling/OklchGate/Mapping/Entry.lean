import OklchGate.Color.Oklch
import OklchGate.Pieces

/-!
# Hex entries of a mapping literal

A design-token file holds a mapping literal with entries `'key': '#hex'` in
single quotes.  The entries are found in the raw text, from left to right.

* `readEntry?` reads one entry, and `hexPairs` all of them.
* `put` adds an entry to the mapping that they make: a key that comes again
  keeps its place and takes the later value.
* `scan` converts the colors on the way, and a `Scan` holds the entries and
  what does not convert.
-/

namespace OklchGate.Mapping

/-- A key with a hex color and the text that the color converts to. -/
structure Entry where
  key : Text
  hex : Text
  oklch : Text
  deriving DecidableEq, Repr

/-- Reads an entry after its first quote: the key, the hex text with its `#`,
and the number of characters read.  Blanks may stand after the colon, and the
hex text has three to eight digits. -/
def readEntry? (text : Text) : Option (Text × Text × Nat) :=
  let key := text.takeWhile (· ≠ '\'')
  match text.drop key.length with
  | '\'' :: ':' :: rest =>
    let blanks := rest.takeWhile isBlank
    match rest.drop blanks.length with
    | '\'' :: '#' :: value =>
      let digits := value.takeWhile isHexDigit
      if 3 ≤ digits.length ∧ digits.length ≤ 8 ∧
          (value.drop digits.length).head? = some '\'' then
        some (key, '#' :: digits,
          key.length + blanks.length + digits.length + 5)
      else none
    | _ => none
  | _ => none

/-- The keys and hex texts of all entries, in the order of the text. -/
def hexPairs (content : Text) : List (Text × Text) :=
  (Pieces.cut (fun c rest =>
    if c = '\'' then
      match readEntry? rest with
      | some (key, hex, length) => (some (key, hex), length)
      | none => (none, 0)
    else (none, 0)) content).filterMap id

/-- Puts an entry into a list of entries with different keys: in the place of
the entry with its key, or at the end. -/
def put (entry : Entry) : List Entry → List Entry
  | [] => [entry]
  | other :: rest =>
    if other.key = entry.key then entry :: rest else other :: put entry rest

/-- What is found in a mapping literal. -/
structure Scan where
  entries : List Entry
  failures : List Text
  deriving DecidableEq, Repr

/-- Adds a pair to a scan.  Hex texts of five or seven digits are no
colors. -/
def Scan.add (convert : Converter) (scan : Scan) (pair : Text × Text) : Scan :=
  if isHexColor pair.2 then
    match convert pair.2 with
    | some oklch =>
      { scan with entries := put ⟨pair.1, pair.2, oklch⟩ scan.entries }
    | none =>
      { scan with failures := scan.failures ++
        [pair.1 ++ [':', ' '] ++ pair.2] }
  else scan

/-- The hex colors of a mapping literal. -/
def scan (convert : Converter) (content : Text) : Scan :=
  (hexPairs content).foldl (Scan.add convert) ⟨[], []⟩

end OklchGate.Mapping
