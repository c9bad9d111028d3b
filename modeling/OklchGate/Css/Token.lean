import OklchGate.Css.Lexeme

/-!
# Tokens of a style sheet

Tokens are lexemes with their positions, nested by brackets.  A block runs
from its opening bracket to the closing bracket that matches it, or to the
end of the text when there is none.  The opening of a function counts as a
round bracket.

* `Token.ofLexemes` nests lexemes, with the open blocks on a stack of
  `Frame`s.  A closing bracket that does not match the innermost open block
  stays a token of its own.
* `Token.ofText` gives the tokens of a source.
-/

namespace OklchGate.Css

/-- A lexeme with its position, or a block with what stands between its
brackets. -/
inductive Token where
  | leaf (position : Position) (lexeme : Lexeme)
  | block (position : Position) (opener : Lexeme) (bracket : Bracket)
      (content : List Token) (closed : Bool)

namespace Token

/-- Where a token starts. -/
def position : Token → Position
  | leaf position _ => position
  | block position _ _ _ _ => position

/-- A block that is open: its opening bracket, and the tokens before it in
the list that it stands in, the last one first. -/
structure Frame where
  position : Position
  opener : Lexeme
  bracket : Bracket
  before : List Token

/-- The block of a frame with its content, put after the tokens before it;
the last token first. -/
def Frame.close (frame : Frame) (content : List Token) (closed : Bool) :
    List Token :=
  block frame.position frame.opener frame.bracket content.reverse closed ::
    frame.before

/-- The tokens of a list of lexemes that starts at `position`.  `stack` holds
the open blocks, the innermost first, and `done` the tokens so far of the
innermost block, the last one first. -/
def nest (position : Position) (stack : List Frame) (done : List Token) :
    List Lexeme → List Token
  | [] =>
    (stack.foldl (fun tokens frame => frame.close tokens false) done).reverse
  | lexeme :: rest =>
    let after := position.advance lexeme.text
    match lexeme.kind, stack with
    | .opening bracket, _ =>
      nest after (⟨position, lexeme, bracket, done⟩ :: stack) [] rest
    | .closing bracket, frame :: outer =>
      if bracket = frame.bracket then
        nest after outer (frame.close done true) rest
      else nest after stack (leaf position lexeme :: done) rest
    | _, _ => nest after stack (leaf position lexeme :: done) rest

/-- The tokens of a list of lexemes. -/
def ofLexemes (lexemes : List Lexeme) : List Token := nest {} [] [] lexemes

/-- The tokens of a source. -/
def ofText (source : Text) : List Token :=
  ofLexemes (Lexeme.ofText (normalizeBreaks source))

/-! ## Kinds of tokens -/

/-- The kind of a token that is not a block. -/
def kind? : Token → Option Lexeme.Kind
  | leaf _ lexeme => some lexeme.kind
  | block .. => none

/-- The token is the delimiter `c`. -/
def isDelimiter (c : Char) : Token → Bool
  | leaf _ lexeme => lexeme.kind = .delimiter && lexeme.text = [c]
  | block .. => false

/-- The token is white space. -/
def isSpace (token : Token) : Bool := token.kind? = some .space

/-- The text between the marks of a comment. -/
def comment? : Token → Option Text
  | leaf _ ⟨.comment closed, text⟩ =>
    some (text.slice 2 (if closed then text.length - 2 else text.length))
  | _ => none

/-- The token is white space or a comment. -/
def isGap (token : Token) : Bool := token.isSpace || token.comment?.isSome

end Token

end OklchGate.Css
