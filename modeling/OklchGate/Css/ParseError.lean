import OklchGate.Css.Token

/-!
# Errors of the style-sheet reader

A style sheet is refused for the first of its faults, in this order: a token
that cannot be read or a closing bracket without a partner, then a comment
left open, then a curly block left open.

`firstLexicalError?` and `firstOpenComment?` find the first two; the third
comes up while the tree is built.
-/

namespace OklchGate.Css

/-- Why a style sheet is refused. -/
inductive ParseError.Cause where
  | brokenString
  | brokenUrl
  | openString
  | openUrl
  | unmatched (bracket : Bracket)
  | openComment
  | openBlock
  deriving DecidableEq, Repr

/-- A cause and the position of the construct it lies in. -/
structure ParseError where
  cause : ParseError.Cause
  position : Position
  deriving DecidableEq, Repr

namespace ParseError

/-- The wording of a cause. -/
def Cause.message : Cause → Text
  | brokenString => "Bad string token".toList
  | brokenUrl => "bad URL token".toList
  | openString => "EOF in string".toList
  | openUrl => "EOF in URL".toList
  | unmatched bracket => "Unmatched ".toList ++ [bracket.closer]
  | openComment => "Unclosed comment".toList
  | openBlock => "Unclosed block".toList

/-- A message with the line and the column it is about, if a line is
known.  A column that is not known is written `None`. -/
def located (message : Text) (line column : Option Int) : Text :=
  match line with
  | none => message
  | some line =>
    message ++ " at line ".toList ++ Text.ofInt line ++ ", column ".toList ++
      (column.elim "None".toList Text.ofInt)

/-- The wording of an error. -/
def message (error : ParseError) : Text :=
  located error.cause.message (some error.position.line)
    (some error.position.column)

/-- The fault of a lexeme, if it is none that a style sheet may hold. -/
def Cause.ofKind? : Lexeme.Kind → Option Cause
  | .badString => some brokenString
  | .badUrl => some brokenUrl
  | .string false => some openString
  | .url false => some openUrl
  | .closing bracket => some (unmatched bracket)
  | _ => none

end ParseError

open ParseError

mutual

/-- The first faulty lexeme of a token and its content. -/
def Token.lexicalError? : Token → Option ParseError
  | .leaf position lexeme => (Cause.ofKind? lexeme.kind).map (⟨·, position⟩)
  | .block _ _ _ content _ => firstLexicalError? content
termination_by structural token => token

/-- The first faulty lexeme of some tokens, in the order of the text. -/
def firstLexicalError? : List Token → Option ParseError
  | [] => none
  | token :: rest => token.lexicalError?.or (firstLexicalError? rest)
termination_by structural tokens => tokens

end

mutual

/-- The comment left open in a token and its content. -/
def Token.openComment? : Token → Option ParseError
  | .leaf position lexeme =>
    if lexeme.kind = .comment false then some ⟨.openComment, position⟩ else none
  | .block _ _ _ content _ => firstOpenComment? content
termination_by structural token => token

/-- The comment left open in some tokens. -/
def firstOpenComment? : List Token → Option ParseError
  | [] => none
  | token :: rest => token.openComment?.or (firstOpenComment? rest)
termination_by structural tokens => tokens

end

end OklchGate.Css
