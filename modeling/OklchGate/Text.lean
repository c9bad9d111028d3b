/-!
# Texts

A text is the list of its characters, and an offset is a number of
characters from its start.  Every other module measures texts this way.

There are two groups.

* Parts of a text.  `Text.slice` is the part between two offsets, and
  `Text.joinWith` puts a separator between texts.
* Search.  `Text.find?` and `Text.findLast?` give the first and the last
  offset at which one text occurs in another.
-/

namespace OklchGate

/-- A text is the list of its characters. -/
abbrev Text := List Char

namespace Text

/-! ## Parts of a text -/

/-- The part of `text` from offset `start` up to offset `stop`.  It is empty
when `stop` is not after `start`. -/
def slice (text : Text) (start stop : Nat) : Text :=
  (text.drop start).take (stop - start)

/-- The texts one after the other with `separator` between neighbours. -/
def joinWith (separator : Text) : List Text → Text
  | [] => []
  | [text] => text
  | text :: rest => text ++ separator ++ joinWith separator rest

/-- The text with `replacement` in place of every `char`. -/
def replaceChar (char : Char) (replacement : Text) (text : Text) : Text :=
  text.flatMap fun c => if c = char then replacement else [c]

/-- The decimal digits of a number. -/
def ofNat (n : Nat) : Text := (Nat.repr n).toList

/-- The decimal digits of an integer, after a minus sign if it is negative. -/
def ofInt : Int → Text
  | .ofNat n => ofNat n
  | .negSucc n => '-' :: ofNat (n + 1)

/-! ## Search -/

/-- The first offset at which `needle` occurs in a text. -/
def find? (needle : Text) : Text → Option Nat
  | [] => if needle.isEmpty then some 0 else none
  | c :: rest =>
    if needle.isPrefixOf (c :: rest) then some 0
    else (find? needle rest).map (· + 1)

/-- The last offset at which `needle` occurs in a text.  The empty text
occurs last at the end. -/
def findLast? (needle : Text) : Text → Option Nat
  | [] => if needle.isEmpty then some 0 else none
  | c :: rest =>
    match findLast? needle rest with
    | some offset => some (offset + 1)
    | none => if needle.isPrefixOf (c :: rest) then some 0 else none

end Text

end OklchGate
