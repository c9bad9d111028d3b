import OklchGate.Gate.Scan

/-!
# Inserting feature gates

Every rule that the scan lists as a group gets a gate right after it, and the
top-level declarations get one gate for `:root` at the end of the style sheet.
Nodes that are there already stay as they are.

* `gateNode` builds a gate, and `ruleLayout` finds the indents with which it
  is printed.
* `gatedNodes` puts the gates of rules into a list of nodes.
* `insertGates` does all this to a document and counts what it did, and
  `transform` does it to a text.
-/

namespace OklchGate.Gate

/-! ## Gates -/

/-- A generated node that is printed inside its parent. -/
def inner : Css.Origin := .generated {}

/-- The declaration of an item in a gate. -/
def itemNode (item : Item) : Css.Node :=
  .leaf inner (.declaration item.property item.oklch item.important)

/-- A gate with one rule for the items. -/
def gateNode (layout : Css.Layout) (selector : Text) (items : List Item) :
    Css.Node :=
  .container (.generated layout) none (.atRule gateName condition true)
    [.container inner none (.rule selector) (items.map itemNode)]

/-- The indent of the line on which a node starts; a generated node counts as
standing at the end of the source. -/
def nodeIndent (source : Text) (node : Css.Node) : Text :=
  lineIndent source ((node.span?.map Css.Span.start).getD source.length)

/-- What the first declaration that is indented deeper than `base` adds to it,
and `unit` if there is none. -/
def indentUnit (source base unit : Text) (children : List Css.Node) : Text :=
  let deeper? (node : Css.Node) : Option Text :=
    let indent := nodeIndent source node
    if node.isDeclaration && base.isPrefixOf indent &&
      base.length < indent.length then
      some (indent.drop base.length)
    else none
  (children.findSome? deeper?).getD unit

/-- The layout of the gate of a rule: on a new line, indented like the rule
and its declarations. -/
def ruleLayout (source unit : Text) (rule : Css.Node) : Css.Layout :=
  let base := nodeIndent source rule
  { before := ['\n'], indent := base,
    unit := indentUnit source base unit rule.children }

/-- What gates are made from: the source, the way to convert colors, and the
indent of one level where the source shows none. -/
structure Setting where
  source : Text
  convert : Converter
  unit : Text

/-- The gate of a node, if it is a rule that gets one. -/
def gateFor? (setting : Setting) (inert : Bool) (node : Css.Node)
    (following : List Css.Node) : Option Css.Node :=
  match node with
  | .leaf _ _ => none
  | .container _ _ head children =>
    match scanHead? setting.convert inert head children following with
    | some rule =>
      if rule.isGroup then
        some (gateNode (ruleLayout setting.source setting.unit node)
          rule.selector rule.items)
      else none
    | none => none

/-! ## Nodes with their gates -/

mutual

/-- A node with the gates of the rules below it. -/
def gatedNode (setting : Setting) (inert : Bool) : Css.Node → Css.Node
  | .leaf origin item => .leaf origin item
  | .container origin content head children =>
    .container origin content head
      (gatedNodes setting (inert || isInert head) children)
termination_by structural node => node

/-- Some nodes with the gates of their rules, each right after its rule. -/
def gatedNodes (setting : Setting) (inert : Bool) :
    List Css.Node → List Css.Node
  | [] => []
  | node :: rest =>
    gatedNode setting inert node ::
      ((gateFor? setting inert node rest).toList ++
        gatedNodes setting inert rest)
termination_by structural nodes => nodes

end

/-- The gate of the top-level declarations, if they need one. -/
def rootGate? (unit : Text) (scan : Scan) : Option Css.Node :=
  if scan.rootItems.isEmpty || scan.rootPaired then none
  else some (gateNode { before := ['\n'], unit } rootSelector scan.rootItems)

/-! ## Documents and texts -/

/-- What an insertion of gates did. -/
structure Insertion where
  document : Css.Document
  rulesConverted : Nat
  colorsConverted : Nat
  rootColorsConverted : Nat
  /-- The selectors of the rules that were paired already. -/
  skipped : List Text
  failures : List Text
  alreadyProcessed : Bool

namespace Insertion

/-- A gate was inserted. -/
def changed (insertion : Insertion) : Bool :=
  insertion.rulesConverted ≠ 0 || insertion.rootColorsConverted ≠ 0

/-- The text of the document with its gates. -/
def output (insertion : Insertion) : Text := insertion.document.toText

end Insertion

/-- Inserts the gates of a document. -/
def insertGates (convert : Converter) (unit : Text) (document : Css.Document) :
    Insertion :=
  let scan := Gate.scan convert document
  let rootGate := rootGate? unit scan
  let rules := scan.groups.length
  let rootColors := if rootGate.isSome then scan.rootItems.length else 0
  { document :=
      { document with
        children :=
          gatedNodes ⟨document.source, convert, unit⟩ false document.children ++
            rootGate.toList }
    rulesConverted := rules
    colorsConverted := scan.groupItems + rootColors
    rootColorsConverted := rootColors
    skipped := scan.skipped
    failures := scan.failures
    alreadyProcessed :=
      rules = 0 && rootColors = 0 &&
        (!scan.skipped.isEmpty || scan.rootPaired) }

/-- Reads a style sheet and inserts its gates. -/
def transform (convert : Converter) (unit source : Text) :
    Except Css.ParseError Insertion :=
  (Css.Document.parse source).map (insertGates convert unit)

end OklchGate.Gate
