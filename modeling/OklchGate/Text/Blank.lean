import OklchGate.Text

/-!
# Blank characters

A blank is a character that is white space in Unicode or one of the four
information separators.  Trimming, the blank test of an indent and the
blanks inside patterns all use this one class; the style-sheet lexer has a
narrower class of its own, and around a number the separators do not count.
-/

namespace OklchGate

/-- A white-space character or one of the separators U+001C to U+001F. -/
def isBlank (c : Char) : Bool :=
  let n := c.toNat
  (0x09 ≤ n && n ≤ 0x0D) || (0x1C ≤ n && n ≤ 0x20) || n == 0x85 || n == 0xA0 ||
    n == 0x1680 || (0x2000 ≤ n && n ≤ 0x200A) || n == 0x2028 || n == 0x2029 ||
    n == 0x202F || n == 0x205F || n == 0x3000

/-- White space that may stand around a number: blanks other than the
information separators. -/
def isPadding (c : Char) : Bool :=
  isBlank c && !(0x1C ≤ c.toNat && c.toNat ≤ 0x1F)

namespace Text

/-- The text without the characters of a class around it. -/
def trimClass (isIn : Char → Bool) (text : Text) : Text :=
  ((text.dropWhile isIn).reverse.dropWhile isIn).reverse

/-- The text without the blanks at its start. -/
def trimStart (text : Text) : Text := text.dropWhile isBlank

/-- The text without the blanks at its end. -/
def trimEnd (text : Text) : Text := (text.reverse.dropWhile isBlank).reverse

/-- The text without the blanks around it. -/
def trim (text : Text) : Text := trimEnd (trimStart text)

/-- The text holds blanks only. -/
def allBlank (text : Text) : Bool := text.all isBlank

end Text

end OklchGate
