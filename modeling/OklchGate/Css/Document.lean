import OklchGate.Css.Node
import OklchGate.Css.ParseError

/-!
# Reading a style sheet

`Document.parse` builds the tree of a source from its tokens.  In a list of
tokens, a curly block or a semicolon ends a segment, and each segment
becomes one node; a comment between segments becomes a node of its own.

There are four groups.

* `SourceText`, a source with the offsets of its lines, and `Piece`, a token
  with its span.  The span of a token ends where the next token of its list
  starts, or where the list ends.
* The parts of a node that are read from the text of a segment:
  `removeComments`, `splitImportant` and `declarationColon?`.
* The nodes of segments.
* `nodesOf`, the nodes of a list of tokens, and `Document.parse`.
-/

namespace OklchGate.Css

/-! ## Sources and pieces -/

/-- A source and the offsets at which its lines start. -/
structure SourceText where
  text : Text
  starts : List Nat

namespace SourceText

/-- A source with its lines. -/
def ofText (text : Text) : SourceText := ⟨text, lineStarts text⟩

/-- The source offset at which a token starts. -/
def startOf (source : SourceText) (token : Token) : Nat :=
  token.position.offset source.starts

/-- The source offset at which the first of some tokens starts, and `stop`
if there are none. -/
def startOfFirst (source : SourceText) (stop : Nat) : List Token → Nat
  | [] => stop
  | token :: _ => source.startOf token

end SourceText

/-- A token and its span in the source. -/
structure Piece where
  token : Token
  start : Nat
  stop : Nat

namespace Piece

/-- The span of a piece. -/
def span (piece : Piece) : Span := ⟨piece.start, piece.stop⟩

/-- The name of an at-keyword. -/
def atKeyword? (piece : Piece) : Option Text :=
  match piece.token.kind? with
  | some (.atKeyword name) => some name
  | _ => none

/-- The piece is an identifier. -/
def isIdentifier (piece : Piece) : Bool :=
  match piece.token.kind? with
  | some (.identifier _) => true
  | _ => false

end Piece

/-! ## Parts of a node -/

/-- The text without what looks like a comment, in strings too. -/
def removeComments (text : Text) : Text :=
  (Pieces.cut (fun c rest =>
    match c, rest with
    | '/', '*' :: body =>
      match Text.find? ['*', '/'] body with
      | some length => ([], length + 3)
      | none => (['/'], 0)
    | _, _ => ([c], 0)) text).flatten

/-- The character is the letter in either case; both dotted capital and
dotless small I count as `i`. -/
def isLetter (letter c : Char) : Bool :=
  c.toLower = letter || (letter = 'i' && (c = '\u0130' || c = '\u0131'))

/-- The text before `letters` at the end of a text, both written backwards. -/
def dropLetters : Text → Text → Option Text
  | [], text => some text
  | _ :: _, [] => none
  | letter :: letters, c :: rest =>
    if isLetter letter c then dropLetters letters rest else none

/-- Splits a trimmed value from the mark of importance at its end. -/
def splitImportant (value : Text) : Text × Bool :=
  match dropLetters "important".toList.reverse value.reverse with
  | none => (value, false)
  | some before =>
    match before.dropWhile isBlank with
    | '!' :: rest => ((rest.dropWhile isBlank).reverse, true)
    | _ => (value, false)

/-- The offset after the colon that comes first among some pieces, white space
and comments apart. -/
def declarationColon? : List Piece → Option Nat
  | [] => none
  | piece :: rest =>
    if piece.token.isGap then declarationColon? rest
    else if piece.token.isDelimiter ':' then some piece.stop
    else none

/-! ## The nodes of segments -/

/-- The node of a segment without a block.  `first` is its first piece and
`others` are the pieces after it. -/
def statementNode (source : Text) (first : Piece) (others : List Piece) :
    Node :=
  let last := others.getLast?.getD first
  let bodyStop := if last.token.isDelimiter ';' then last.start else last.stop
  let origin := Origin.parsed ⟨first.start, last.stop⟩
  match first.atKeyword? with
  | some name =>
    let params := Text.trim (removeComments (source.slice first.stop bodyStop))
    .container origin none (.atRule name params false) []
  | none =>
    match (if first.isIdentifier then declarationColon? others else none) with
    | some colon =>
      let (value, important) :=
        splitImportant
          (Text.trim (removeComments (source.slice colon bodyStop)))
      .leaf origin (.declaration (source.slice first.start first.stop) value
        important)
    | none => .leaf origin (.statement (source.slice first.start last.stop))

/-- The node of a segment without a block, or none if the segment is
empty. -/
def segmentNodes (source : Text) : List Piece → List Node
  | [] => []
  | first :: others => [statementNode source first others]

/-- The node of the pieces that no semicolon ends, the last piece first.
White space and comments at their end belong to no node. -/
def unfinishedNodes (source : Text) (pieces : List Piece) : List Node :=
  segmentNodes source (pieces.dropWhile fun piece => piece.token.isGap).reverse

/-- The head of a block that starts at `blockStart` after the given pieces. -/
def headOf (source : Text) (before : List Piece) (blockStart : Nat) : Head :=
  match before with
  | [] => .rule []
  | first :: _ =>
    match first.atKeyword? with
    | some name =>
      .atRule name
        (Text.trim (removeComments (source.slice first.stop blockStart))) true
    | none => .rule (Text.trim (source.slice first.start blockStart))

/-- The container of a block and the pieces before it. -/
def blockNode (source : Text) (before : List Piece) (block : Span)
    (children : List Node) : Node :=
  let start := (before.head?.map Piece.start).getD block.start
  .container (.parsed ⟨start, block.stop⟩)
    (some ⟨block.start + 1, block.stop - 1⟩)
    (headOf source before block.start) children

/-! ## The nodes of tokens -/

/-- The token is a block between braces. -/
def Token.isCurly : Token → Bool
  | leaf .. => false
  | block _ _ bracket _ _ => bracket = .curly

mutual

/-- The nodes of the content of a block that ends at `stop`; a leaf has
none. -/
def Token.contentNodes (source : SourceText) (stop : Nat) :
    Token → Except ParseError (List Node)
  | .leaf .. => .ok []
  | .block _ _ _ content _ => nodesOf source stop [] content
termination_by structural token => token

/-- The nodes of a list of tokens that ends at `stop`.  `segment` holds the
pieces since the last end of a segment, the last one first.  A curly block
has to end in a closing brace. -/
def nodesOf (source : SourceText) (stop : Nat) (segment : List Piece) :
    List Token → Except ParseError (List Node)
  | [] => .ok (unfinishedNodes source.text segment)
  | token :: rest =>
    let piece : Piece :=
      ⟨token, source.startOf token, source.startOfFirst stop rest⟩
    if segment.isEmpty && token.isGap then do
      let nodes ← nodesOf source stop [] rest
      match token.comment? with
      | some text => return .leaf (.parsed piece.span) (.comment text) :: nodes
      | none => return nodes
    else if token.isCurly then
      if source.text.slice (piece.stop - 1) piece.stop = ['\x7d'] then do
        let children ← token.contentNodes source (piece.stop - 1)
        let nodes ← nodesOf source stop [] rest
        return blockNode source.text segment.reverse piece.span children ::
          nodes
      else .error ⟨.openBlock, token.position⟩
    else if token.isDelimiter ';' then do
      let nodes ← nodesOf source stop [] rest
      return segmentNodes source.text (piece :: segment).reverse ++ nodes
    else nodesOf source stop (piece :: segment) rest
termination_by structural tokens => tokens

end

/-- Reads a style sheet. -/
def Document.parse (source : Text) : Except ParseError Document :=
  let tokens := Token.ofText source
  match (firstLexicalError? tokens).or (firstOpenComment? tokens) with
  | some error => .error error
  | none => do
    let children ← nodesOf (SourceText.ofText source) source.length [] tokens
    return ⟨source, children⟩

end OklchGate.Css
