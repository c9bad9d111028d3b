import OklchGate.Text.Blank

/-!
# Lines

Line breaks, the indent of a line, and the style in which a text breaks its
lines.

* `newlineStyle` is the first line break of a text, and `withNewlines`
  writes generated text in that style.  `unifyNewlines` leaves only LF.
* `lineIndent` is the white space before an offset on its line.
* `normalizeBreaks` gives the text on which positions are counted, and
  `lineStarts` the offsets at which the lines of the source start.
* `Position` is a line and a column.  `Position.offset` leads from a
  position in the normalized text back to the source.
-/

namespace OklchGate

/-! ## Line breaks in a source -/

/-- The first of CR LF, CR and LF in a text, and LF when it has none. -/
def newlineStyle : Text → Text
  | [] => ['\n']
  | '\r' :: '\n' :: _ => ['\r', '\n']
  | c :: rest => if c = '\r' ∨ c = '\n' then [c] else newlineStyle rest

/-- Text generated with LF, written in the newline style of `source`. -/
def withNewlines (source generated : Text) : Text :=
  Text.replaceChar '\n' (newlineStyle source) generated

/-- The text with every CR LF and CR turned into LF. -/
def unifyNewlines : Text → Text
  | [] => []
  | '\r' :: '\n' :: rest => '\n' :: unifyNewlines rest
  | c :: rest => (if c = '\r' then '\n' else c) :: unifyNewlines rest

/-- The part of a text after its last CR or LF. -/
def lastLine (text : Text) : Text :=
  (text.reverse.takeWhile fun c => c ≠ '\n' && c ≠ '\r').reverse

/-- The text between the start of the line that holds `offset` and `offset`,
if it is blank; otherwise nothing. -/
def lineIndent (source : Text) (offset : Nat) : Text :=
  let before := lastLine (source.take offset)
  if before.allBlank then before else []

/-! ## Positions -/

/-- The text with every CR LF, CR and form feed turned into LF and every NUL
turned into U+FFFD. -/
def normalizeBreaks : Text → Text
  | [] => []
  | '\r' :: '\n' :: rest => '\n' :: normalizeBreaks rest
  | c :: rest =>
    (if c = '\r' ∨ c = '\x0c' then '\n' else if c = '\x00' then '\uFFFD' else c)
      :: normalizeBreaks rest

/-- The offsets just after the line breaks of a text that starts at
`offset`. -/
def lineStartsFrom : Nat → Text → List Nat
  | _, [] => []
  | offset, '\r' :: '\n' :: rest =>
    (offset + 2) :: lineStartsFrom (offset + 2) rest
  | offset, c :: rest =>
    if c = '\r' ∨ c = '\n' ∨ c = '\x0c' then
      (offset + 1) :: lineStartsFrom (offset + 1) rest
    else lineStartsFrom (offset + 1) rest

/-- The offsets at which the lines of a source start. -/
def lineStarts (source : Text) : List Nat := 0 :: lineStartsFrom 0 source

/-- A place in a normalized text: a line and a column, both counted from
one. -/
structure Position where
  line : Nat := 1
  column : Nat := 1
  deriving DecidableEq, Repr, Inhabited

namespace Position

/-- The position after a character that stands at `position`. -/
def next (position : Position) (c : Char) : Position :=
  if c = '\n' then ⟨position.line + 1, 1⟩
  else ⟨position.line, position.column + 1⟩

/-- The position after a text that starts at `position`. -/
def advance (position : Position) (text : Text) : Position :=
  text.foldl next position

/-- The source offset of a position, where `starts` holds the offsets of the
lines of the source. -/
def offset (starts : List Nat) (position : Position) : Nat :=
  starts.getD (position.line - 1) 0 + position.column - 1

end Position

end OklchGate
