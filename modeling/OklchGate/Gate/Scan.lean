import OklchGate.Color.Oklch
import OklchGate.Css.Document
import OklchGate.Text.Lowercase

/-!
# Finding hex colors in a style sheet

A feature gate is a `@supports` rule.  A rule is eligible when it lies outside
every feature gate and every keyframes rule; of its direct declarations, those
with a hex color that converts are its items.  An eligible rule with items is
paired when the next sibling that is not a comment is a gate that holds a rule
with the same selector.

There are three groups.

* Gates and keyframes: `isGateHead`, `isInert` and `gateSelectors`.
* Conversion of declarations: `reading?` tells apart a declaration without a
  hex color, one that converts and one that fails.
* The scan: `RuleScan` is what is found in one eligible rule, `scanNodes`
  finds them all, and `scan` adds the top-level declarations.
-/

namespace OklchGate

namespace Gate

/-- The name of the at-rule of a feature gate. -/
def gateName : Text := "supports".toList

/-- The condition of a feature gate. -/
def condition : Text := "(color: oklch(0 0 0))".toList

/-- The selector of the rule that stands for top-level declarations. -/
def rootSelector : Text := ":root".toList

/-! ## Gates and keyframes -/

/-- The head of a feature gate, in any case. -/
def isGateHead : Css.Head → Bool
  | .atRule name _ _ => name.lower = gateName
  | .rule _ => false

/-- The head of a keyframes rule, with or without a vendor before the name. -/
def isKeyframesHead : Css.Head → Bool
  | .atRule name _ _ => "keyframes".toList.isSuffixOf name.lower
  | .rule _ => false

/-- No rule below this head is eligible. -/
def isInert (head : Css.Head) : Bool := isGateHead head || isKeyframesHead head

/-- The node is a feature gate. -/
def isGate : Css.Node → Bool
  | .container _ _ head _ => isGateHead head
  | .leaf _ _ => false

/-- The selectors of the rules right below a feature gate that has a
block. -/
def gateSelectors : Css.Node → List Text
  | .container _ _ head children =>
    if isGateHead head && head.opensBlock then
      children.filterMap Css.Node.selector?
    else []
  | .leaf _ _ => []

/-- The first significant node among `following` is a gate for the
selector. -/
def isPaired (selector : Text) (following : List Css.Node) : Bool :=
  match Css.firstSignificant? following with
  | some node => (gateSelectors node).contains selector
  | none => false

/-! ## Conversion of declarations -/

/-- A declaration of a hex color with the text that the color converts to. -/
structure Item where
  property : Text
  value : Text
  oklch : Text
  important : Bool
  deriving DecidableEq, Repr

/-- A property and a value, as failures are listed. -/
def failureText (property value : Text) : Text :=
  property ++ [':', ' '] ++ value

/-- What a declaration of a hex color converts to, or the text of the failure;
nothing for any other node. -/
def reading? (convert : Converter) : Css.Node → Option (Except Text Item)
  | .leaf _ (.declaration property value important) =>
    if isHexColor value then
      match convert value with
      | some oklch => some (.ok ⟨property, value, oklch, important⟩)
      | none => some (.error (failureText property value))
    else none
  | _ => none

/-- The items among some nodes. -/
def itemsOf (convert : Converter) (nodes : List Css.Node) : List Item :=
  nodes.filterMap fun node =>
    match reading? convert node with
    | some (.ok item) => some item
    | _ => none

/-- The failures among some nodes. -/
def failuresOf (convert : Converter) (nodes : List Css.Node) : List Text :=
  nodes.filterMap fun node =>
    match reading? convert node with
    | some (.error failure) => some failure
    | _ => none

/-! ## The scan -/

/-- What is found in one eligible rule. -/
structure RuleScan where
  selector : Text
  items : List Item
  failures : List Text
  paired : Bool
  deriving DecidableEq, Repr

namespace RuleScan

/-- The scan of a rule with the given children and the siblings after it. -/
def ofRule (convert : Converter) (selector : Text)
    (children following : List Css.Node) :
    RuleScan :=
  ⟨selector, itemsOf convert children, failuresOf convert children,
    isPaired selector following⟩

/-- The rule gets a gate. -/
def isGroup (rule : RuleScan) : Bool := !rule.items.isEmpty && !rule.paired

/-- The rule has items and is paired already. -/
def isSkipped (rule : RuleScan) : Bool := !rule.items.isEmpty && rule.paired

end RuleScan

/-- The scan of a container itself, if it is an eligible rule. -/
def scanHead? (convert : Converter) (inert : Bool) (head : Css.Head)
    (children following : List Css.Node) : Option RuleScan :=
  match head with
  | .rule selector =>
    if inert then none else some (.ofRule convert selector children following)
  | .atRule .. => none

mutual

/-- The scans of the eligible rules in a node.  `inert` tells that no rule here
is eligible, and `following` are the siblings after the node. -/
def scanNode (convert : Converter) (inert : Bool) (following : List Css.Node) :
    Css.Node → List RuleScan
  | .leaf _ _ => []
  | .container _ _ head children =>
    (scanHead? convert inert head children following).toList ++
      scanNodes convert (inert || isInert head) children
termination_by structural node => node

/-- The scans of the eligible rules in some nodes, in the order of the
text. -/
def scanNodes (convert : Converter) (inert : Bool) :
    List Css.Node → List RuleScan
  | [] => []
  | node :: rest =>
    scanNode convert inert rest node ++ scanNodes convert inert rest
termination_by structural nodes => nodes

end

/-- The properties that top-level gates with the usual condition declare for
`:root`. -/
def rootGateProperties (nodes : List Css.Node) : List Text :=
  nodes.flatMap fun
    | .container _ _ (.atRule name params hasBlock) children =>
      if isGateHead (.atRule name params hasBlock) && params = condition then
        children.flatMap fun child =>
          if child.selector? = some rootSelector then
            child.children.filterMap fun
              | .leaf _ (.declaration property _ _) => some property
              | _ => none
          else []
      else []
    | _ => []

/-- What is found in a style sheet: its eligible rules in order, and the items
and failures among its top-level declarations. -/
structure Scan where
  rules : List RuleScan
  rootItems : List Item
  rootFailures : List Text
  /-- There are top-level items, and each has its property in a gate. -/
  rootPaired : Bool
  deriving DecidableEq, Repr

namespace Scan

/-- The rules that get a gate. -/
def groups (scan : Scan) : List RuleScan := scan.rules.filter RuleScan.isGroup

/-- The selectors of the rules that are paired already. -/
def skipped (scan : Scan) : List Text :=
  (scan.rules.filter RuleScan.isSkipped).map RuleScan.selector

/-- All failures: those in rules, then those at top level. -/
def failures (scan : Scan) : List Text :=
  scan.rules.flatMap RuleScan.failures ++ scan.rootFailures

/-- The number of items in rules that get a gate. -/
def groupItems (scan : Scan) : Nat :=
  (scan.groups.flatMap RuleScan.items).length

/-- The number of items in rules that get a gate and at top level. -/
def colorsFound (scan : Scan) : Nat := scan.groupItems + scan.rootItems.length

end Scan

/-- An item with the scope that it is declared in. -/
structure Row where
  scope : Text
  property : Text
  hex : Text
  oklch : Text
  deriving DecidableEq, Repr

/-- The row of an item. -/
def Row.ofItem (scope : Text) (item : Item) : Row :=
  ⟨scope, item.property, item.value, item.oklch⟩

/-- The rows of a scan: rules first, then top-level declarations. -/
def Scan.rows (scan : Scan) : List Row :=
  (scan.groups.flatMap fun group =>
    group.items.map (Row.ofItem group.selector)) ++
    scan.rootItems.map (Row.ofItem rootSelector)

/-- The scan of a document. -/
def scan (convert : Converter) (document : Css.Document) : Scan :=
  let rootItems := itemsOf convert document.children
  let gated := rootGateProperties document.children
  { rules := scanNodes convert false document.children
    rootItems
    rootFailures := failuresOf convert document.children
    rootPaired := !rootItems.isEmpty && rootItems.all fun item =>
      gated.contains item.property }

end Gate

end OklchGate
