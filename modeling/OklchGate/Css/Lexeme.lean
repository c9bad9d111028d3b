import OklchGate.Pieces
import OklchGate.Number.Numeral
import OklchGate.Text.Line

/-!
# Lexemes of a style sheet

A normalized style sheet is a sequence of lexemes that stand one after the
other without gaps.  `Lexeme.ofText` finds them, and each lexeme carries its
text, so the texts of the lexemes put together give the style sheet back.

There are four groups.

* Character classes and the beginning of an identifier
  (`startsIdentifier`).
* Readers.  Each reader answers how many characters a construct takes:
  `readEscape`, `readName`, `numberLength`, `unicodeRangeLength`,
  `readString`, `readUrl`, `readComment`.
* The kinds of lexemes.  A construct that the end of the text cuts short is
  marked `closed := false`, and a construct that cannot be read is a
  `badString` or a `badUrl`.
* `Lexeme.read`, which decides the kind of the next lexeme, and
  `Lexeme.ofText`.
-/

namespace OklchGate.Css

/-! ## Character classes -/

/-- White space between tokens: space, line feed and tab. -/
def isSpace (c : Char) : Bool := c = ' ' || c = '\n' || c = '\t'

/-- A character that starts a name: a letter, a low line or any character
outside ASCII. -/
def isNameStart (c : Char) : Bool :=
  ('a' ≤ c && c ≤ 'z') || ('A' ≤ c && c ≤ 'Z') || c = '_' || c.toNat > 0x7F

/-- A character that continues a name. -/
def isNameChar (c : Char) : Bool := isNameStart c || isDigit c || c = '-'

/-- A backslash at the start of a text is an escape unless a line feed
follows it. -/
def startsEscape : Text → Bool
  | '\\' :: '\n' :: _ => false
  | '\\' :: _ => true
  | _ => false

/-- An identifier starts here. -/
def startsIdentifier : Text → Bool
  | [] => false
  | c :: rest =>
    if isNameStart c then true
    else if c = '-' then
      match rest with
      | d :: _ => isNameStart d || d = '-' || startsEscape rest
      | [] => false
    else startsEscape (c :: rest)

/-! ## Readers -/

/-- The character of a code point, and U+FFFD where there is none. -/
def charOfCodePoint (n : Nat) : Char :=
  if n = 0 ∨ ¬ n.isValidChar then '\uFFFD' else Char.ofNat n

/-- Reads the text after the backslash of an escape: one to six hexadecimal
digits and one space, or any character.  The answer is the character that is
meant and the number of characters read. -/
def readEscape (text : Text) : Char × Nat :=
  let digits := (text.take 6).takeWhile isHexDigit
  if digits.isEmpty then
    match text with
    | [] => ('\uFFFD', 0)
    | c :: _ => (c, 1)
  else
    let code := digits.foldl (fun n c => 16 * n + hexDigitValue c) 0
    let space := match text.drop digits.length with
      | c :: _ => if isSpace c then 1 else 0
      | [] => 0
    (charOfCodePoint code, digits.length + space)

/-- Reads a name with its escapes: the name that is meant and the number of
characters read. -/
def readName (text : Text) : Text × Nat :=
  Pieces.run (fun c rest =>
    if isNameChar c then some (c, 0)
    else if startsEscape (c :: rest) then some (readEscape rest)
    else none) text

/-- The number of spaces at the start of a text. -/
def spaceLength (text : Text) : Nat := (text.takeWhile isSpace).length

/-- The length of the number at the start of a text: a sign, digits, a
fraction and an exponent, with digits in the whole part or in the
fraction. -/
def numberLength (text : Text) : Option Nat :=
  let sign := signLength text
  let whole := digitLength (text.drop sign)
  let mantissa := sign + whole + fractionLength (text.drop (sign + whole))
  if mantissa = sign then none
  else some (mantissa + exponentLength (text.drop mantissa))

/-- The length of a Unicode range after its `u+`: at most six digits and
question marks together, and a second bound when there is no question
mark. -/
def unicodeRangeLength (text : Text) : Nat :=
  let digits := ((text.take 6).takeWhile isHexDigit).length
  let marks :=
    (((text.drop digits).take (6 - digits)).takeWhile (· = '?')).length
  if 0 < marks then digits + marks
  else
    match text.drop digits with
    | '-' :: rest =>
      let bound := ((rest.take 6).takeWhile isHexDigit).length
      if 0 < bound then digits + 1 + bound else digits
    | _ => digits

/-- How a construct with an end mark ended. -/
inductive Ending where
  /-- At its end mark. -/
  | closed
  /-- At the end of the text. -/
  | atEnd
  /-- At a character that it may not hold. -/
  | broken
  deriving DecidableEq, Repr

/-- Reads a string after its opening quote.  A backslash takes the next
character with it, and a line feed without a backslash breaks the string;
the length of a broken string does not count that line feed. -/
def readString (quote : Char) (text : Text) : Nat × Ending :=
  let body := (Pieces.run (fun c rest =>
    if c = quote ∨ c = '\n' then none
    else if c = '\\' then
      match rest with
      | '\n' :: _ => some ((), 1)
      | _ => some ((), (readEscape rest).2)
    else some ((), 0)) text).2
  match text.drop body with
  | [] => (body, .atEnd)
  | c :: _ => if c = quote then (body + 1, .closed) else (body, .broken)

/-- A control character that a plain URL may not hold. -/
def isNonPrintable (c : Char) : Bool :=
  let n := c.toNat
  n ≤ 0x08 || n = 0x0B || (0x0E ≤ n && n ≤ 0x1F) || n = 0x7F

/-- The length of the rest of a broken URL: up to and with the next
parenthesis that no backslash stands before. -/
def brokenUrlLength (text : Text) : Nat :=
  let body := (Pieces.run (fun c rest =>
    match c, rest with
    | ')', _ => none
    | '\\', ')' :: _ => some ((), 1)
    | _, _ => some ((), 0)) text).2
  if body < text.length then body + 1 else body

/-- Reads a URL after its opening parenthesis. -/
def readUrl (text : Text) : Nat × Ending :=
  let start := spaceLength text
  let body := start + (Pieces.run (fun c rest =>
    if c = ')' ∨ isSpace c then none
    else if startsEscape (c :: rest) then some ((), (readEscape rest).2)
    else if c = '"' ∨ c = '\'' ∨ c = '(' ∨ isNonPrintable c then none
    else some ((), 0)) (text.drop start)).2
  let stop := body + spaceLength (text.drop body)
  match text.drop stop with
  | [] => (stop, .atEnd)
  | ')' :: _ => (stop + 1, .closed)
  | _ => (stop + brokenUrlLength (text.drop stop), .broken)

/-- The length of a comment after its opening mark, and whether it is
closed. -/
def readComment (text : Text) : Nat × Bool :=
  match Text.find? ['*', '/'] text with
  | some body => (body + 2, true)
  | none => (text.length, false)

/-! ## Kinds of lexemes -/

/-- The kinds of brackets. -/
inductive Bracket where
  | curly
  | square
  | round
  deriving DecidableEq, Repr

/-- The character that opens a bracket. -/
def Bracket.opener : Bracket → Char
  | .curly => '\x7b'
  | .square => '['
  | .round => '('

/-- The character that closes a bracket. -/
def Bracket.closer : Bracket → Char
  | .curly => '\x7d'
  | .square => ']'
  | .round => ')'

/-- The bracket that a character opens. -/
def Bracket.ofOpener? (c : Char) : Option Bracket :=
  [Bracket.curly, .square, .round].find? fun b => b.opener = c

/-- The bracket that a character closes. -/
def Bracket.ofCloser? (c : Char) : Option Bracket :=
  [Bracket.curly, .square, .round].find? fun b => b.closer = c

namespace Lexeme

/-- What a lexeme is.  Names are given as they are meant, without escapes. -/
inductive Kind where
  | space
  | comment (closed : Bool)
  | identifier (name : Text)
  | atKeyword (name : Text)
  | hash (name : Text)
  /-- A number, a percentage or a number with a unit. -/
  | numeric
  | unicodeRange
  | string (closed : Bool)
  | badString
  | url (closed : Bool)
  | badUrl
  /-- An opening bracket; the opening of a function is a round one. -/
  | opening (bracket : Bracket)
  | closing (bracket : Bracket)
  /-- Any other character, or a few that belong together. -/
  | delimiter
  deriving DecidableEq, Repr

end Lexeme

/-- A piece of a style sheet with its text. -/
structure Lexeme where
  kind : Lexeme.Kind
  text : Text
  deriving DecidableEq, Repr

namespace Lexeme

/-! ## Reading lexemes -/

/-- The name of the function that opens a URL. -/
def isUrlName (name : Text) : Bool := name.map Char.toLower = ['u', 'r', 'l']

/-- A quote comes first after white space. -/
def startsQuoted (text : Text) : Bool :=
  match text.dropWhile isSpace with
  | c :: _ => c = '"' || c = '\''
  | [] => false

/-- Reads an identifier, a function or a URL. -/
def readIdentifierLike (text : Text) : Kind × Nat :=
  let (name, length) := readName text
  match text.drop length with
  | '(' :: rest =>
    if isUrlName name && !startsQuoted rest then
      match readUrl rest with
      | (n, .closed) => (.url true, length + 1 + n)
      | (n, .atEnd) => (.url false, length + 1 + n)
      | (n, .broken) => (.badUrl, length + 1 + n)
    else (.opening .round, length + 1)
  | _ => (.identifier name, length)

/-- Reads a number with the unit or the percent sign after it. -/
def readNumeric? (text : Text) : Option (Kind × Nat) :=
  (numberLength text).map fun length =>
    let rest := text.drop length
    let unit :=
      if startsIdentifier rest then (readName rest).2
      else if rest.head? = some '%' then 1
      else 0
    (.numeric, length + unit)

/-- The number of characters of the delimiter at the start of a text. -/
def delimiterLength (text : Text) : Nat :=
  if ['<', '!', '-', '-'].isPrefixOf text then 4
  else
    match text with
    | '|' :: '|' :: _ => 2
    | c :: '=' :: _ => if c ∈ ['~', '|', '^', '$', '*'] then 2 else 1
    | _ => 1

/-- The kind and the length of the lexeme at the start of a text. -/
def read (c : Char) (rest : Text) : Kind × Nat :=
  let text := c :: rest
  if isSpace c then (.space, spaceLength text)
  else if (c = 'u' || c = 'U') && rest.head? = some '+' &&
      (rest.drop 1).head?.any (fun d => isHexDigit d || d = '?') then
    (.unicodeRange, 2 + unicodeRangeLength (rest.drop 1))
  else if ['-', '-', '>'].isPrefixOf text then (.delimiter, 3)
  else if startsIdentifier text then readIdentifierLike text
  else
    match readNumeric? text with
    | some answer => answer
    | none =>
      if c = '@' && startsIdentifier rest then
        let (name, length) := readName rest
        (.atKeyword name, 1 + length)
      else if c = '#' && (rest.head?.any isNameChar || startsEscape rest) then
        let (name, length) := readName rest
        (.hash name, 1 + length)
      else
        match Bracket.ofOpener? c, Bracket.ofCloser? c with
        | some bracket, _ => (.opening bracket, 1)
        | none, some bracket => (.closing bracket, 1)
        | none, none =>
          if c = '"' || c = '\'' then
            match readString c rest with
            | (n, .closed) => (.string true, 1 + n)
            | (n, .atEnd) => (.string false, 1 + n)
            | (n, .broken) => (.badString, 1 + n)
          else if ['/', '*'].isPrefixOf text then
            let (n, closed) := readComment (rest.drop 1)
            (.comment closed, 2 + n)
          else (.delimiter, delimiterLength text)

/-- The lexemes of a normalized style sheet. -/
def ofText (text : Text) : List Lexeme :=
  Pieces.cut (fun c rest =>
    let (kind, length) := read c rest
    (⟨kind, (c :: rest).take length⟩, length - 1)) text

end Lexeme

end OklchGate.Css
