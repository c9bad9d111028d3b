import OklchGate.Text.Line

/-!
# The tree of a style sheet

A style sheet is a list of nodes over a source.  A node that was read
remembers its span in the source, and a node that was generated carries the
layout in which it is to be printed.

There are four groups.

* The types.  `Leaf` and `Head` say what a node is, `Origin` where it comes
  from.  `Document` is a source with its top-level nodes.
* Accessors of a node.
* Printing.  `Node.render` prints a node from its parts alone, and
  `Node.serialize` copies what was read and renders what was generated.
* Traversal.  `walk` lists the nodes below a list of nodes, each before its
  own children.
-/

namespace OklchGate.Css

/-! ## Types -/

/-- A part of a source, from `start` up to `stop`. -/
structure Span where
  start : Nat
  stop : Nat
  deriving DecidableEq, Repr

/-- The indent of one level where nothing else sets it. -/
def defaultUnit : Text := [' ', ' ', ' ', ' ']

/-- How a generated node is printed: the text before it, its own indent, and
the indent that each level of its children adds. -/
structure Layout where
  before : Text := []
  indent : Text := []
  unit : Text := defaultUnit
  deriving DecidableEq, Repr

/-- Where a node comes from. -/
inductive Origin where
  | parsed (span : Span)
  | generated (layout : Layout)
  deriving DecidableEq, Repr

/-- A node that holds no others. -/
inductive Leaf where
  | declaration (property value : Text) (important : Bool)
  | comment (text : Text)
  /-- Anything else that ends in a semicolon. -/
  | statement (text : Text)
  deriving DecidableEq, Repr

/-- What stands before the block of a container.  An at-rule may end in a
semicolon and then has no block. -/
inductive Head where
  | rule (selector : Text)
  | atRule (name params : Text) (hasBlock : Bool)
  deriving DecidableEq, Repr

/-- A node of the tree.  The `content` of a container that was read with a
block is what stands between its braces. -/
inductive Node where
  | leaf (origin : Origin) (item : Leaf)
  | container (origin : Origin) (content : Option Span) (head : Head)
      (children : List Node)

/-- A source and its top-level nodes. -/
structure Document where
  source : Text
  children : List Node

/-! ## Accessors -/

/-- A leaf is a comment. -/
def Leaf.isComment : Leaf → Bool
  | comment _ => true
  | _ => false

namespace Node

/-- Where a node comes from. -/
def origin : Node → Origin
  | leaf origin _ => origin
  | container origin _ _ _ => origin

/-- The span of a node that was read. -/
def span? (node : Node) : Option Span :=
  match node.origin with
  | .parsed span => some span
  | .generated _ => none

/-- The node was generated. -/
def isGenerated (node : Node) : Bool := node.span?.isNone

/-- The children of a node; a leaf has none. -/
def children : Node → List Node
  | leaf _ _ => []
  | container _ _ _ children => children

/-- The node is a comment. -/
def isComment : Node → Bool
  | leaf _ item => item.isComment
  | container .. => false

/-- The selector of a rule. -/
def selector? : Node → Option Text
  | container _ _ (.rule selector) _ => some selector
  | _ => none

/-- The node is a rule. -/
def isRule (node : Node) : Bool := node.selector?.isSome

/-- The node is a declaration. -/
def isDeclaration : Node → Bool
  | leaf _ (.declaration ..) => true
  | _ => false

end Node

/-! ## Printing -/

/-- The text of a leaf. -/
def Leaf.render : Leaf → Text
  | declaration property value important =>
    property ++ [':', ' '] ++ value ++
      (if important then " !important".toList else []) ++ [';']
  | comment text => ['/', '*'] ++ text ++ ['*', '/']
  | statement text => text

/-- The text of a head. -/
def Head.render : Head → Text
  | rule selector => selector
  | atRule name params _ =>
    '@' :: name ++ (if params.isEmpty then [] else ' ' :: params)

/-- The head is followed by a block. -/
def Head.opensBlock : Head → Bool
  | rule _ => true
  | atRule _ _ hasBlock => hasBlock

mutual

/-- A node printed from its parts: its own line at `indent`, and each level
of children indented by one more `unit`. -/
def Node.render (indent unit : Text) : Node → Text
  | .leaf _ item => indent ++ item.render
  | .container _ _ head children =>
    indent ++ head.render ++
      if head.opensBlock then
        [' ', '\x7b'] ++ renderLines (indent ++ unit) unit children ++
          ['\n'] ++ indent ++ ['\x7d']
      else [';']
termination_by structural node => node

/-- Nodes printed on a new line each. -/
def renderLines (indent unit : Text) : List Node → Text
  | [] => []
  | node :: rest =>
    '\n' :: node.render indent unit ++ renderLines indent unit rest
termination_by structural nodes => nodes

end

/-- The text of a generated node with the text before it, in the newline style
of the source. -/
def Node.print (source : Text) (layout : Layout) (node : Node) : Text :=
  withNewlines source (layout.before ++ node.render layout.indent layout.unit)

mutual

/-- The text of a node in a document with the given source.  What was read is
copied from the source, with generated children put in. -/
def Node.serialize (source : Text) : Node → Text
  | .leaf (.parsed span) _ => source.slice span.start span.stop
  | .leaf (.generated layout) item =>
    Node.print source layout (.leaf (.generated layout) item)
  | .container (.generated layout) content head children =>
    Node.print source layout
      (.container (.generated layout) content head children)
  | .container (.parsed span) none _ _ => source.slice span.start span.stop
  | .container (.parsed span) (some content) _ children =>
    source.slice span.start content.start ++
      serializeFrom source content.start content.stop children ++
      source.slice content.stop span.stop
termination_by structural node => node

/-- The text of some nodes and of the source around them, from `cursor` up to
`stop`. -/
def serializeFrom (source : Text) (cursor stop : Nat) : List Node → Text
  | [] => source.slice cursor stop
  | node :: rest =>
    match node.span? with
    | none => node.serialize source ++ serializeFrom source cursor stop rest
    | some span =>
      source.slice cursor span.start ++ node.serialize source ++
        serializeFrom source span.stop stop rest
termination_by structural nodes => nodes

end

/-- The text of a document. -/
def Document.toText (document : Document) : Text :=
  serializeFrom document.source 0 document.source.length document.children

/-! ## Traversal -/

mutual

/-- The nodes below a node, in the order of the text. -/
def Node.descendants : Node → List Node
  | .leaf _ _ => []
  | .container _ _ _ children => walk children
termination_by structural node => node

/-- Some nodes with the nodes below them, each before its own children. -/
def walk : List Node → List Node
  | [] => []
  | node :: rest => node :: node.descendants ++ walk rest
termination_by structural nodes => nodes

end

/-- The first of the nodes that is not a comment. -/
def firstSignificant? (nodes : List Node) : Option Node :=
  nodes.find? fun node => !node.isComment

end OklchGate.Css
