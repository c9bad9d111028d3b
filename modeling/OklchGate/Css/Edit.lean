import OklchGate.Css.Node
import OklchGate.Text.Quoted

/-!
# Places and edits in a document

A path of child indexes leads from a document to a node; the empty path means
the document itself.

* `Place` is a node with the siblings after it and the containers around it,
  and `Document.place?` follows a path.
* `Document.append` and `Document.insertAfter` add a node to the children of
  the document or of a container.  They fail when the path leads to no
  container, or when there is no child to insert after.
-/

namespace OklchGate.Css

/-! ## Places -/

/-- A node with what is around it: the siblings after it, and the containers
that hold it, the nearest first. -/
structure Place where
  node : Node
  following : List Node
  ancestors : List Node

/-- The next sibling; comments do not count when `significant`. -/
def Place.nextSibling? (place : Place) (significant : Bool) : Option Node :=
  if significant then firstSignificant? place.following
  else place.following.head?

/-- The node at the end of a path through some nodes that lie in `ancestors`.
The empty path leads to no node. -/
def placeIn (ancestors : List Node) : List Nat → List Node → Option Place
  | [], _ => none
  | [index], nodes =>
    nodes[index]?.map fun node => ⟨node, nodes.drop (index + 1), ancestors⟩
  | index :: path, nodes =>
    match nodes[index]? with
    | some node => placeIn (node :: ancestors) path node.children
    | none => none

/-- The node at the end of a path. -/
def Document.place? (document : Document) (path : List Nat) : Option Place :=
  placeIn [] path document.children

/-- The children of the document or of the node at the end of a path. -/
def Document.childrenAt? (document : Document) : List Nat → Option (List Node)
  | [] => some document.children
  | path => (document.place? path).map fun place => place.node.children

/-! ## Edits -/

/-- Why an edit fails.  Nodes are given by their indexes, so the wording is that
of whoever looks them up. -/
inductive EditError where
  /-- The path leads to no node, or there is no such child. -/
  | noSuchNode
  /-- The path leads to a node that holds no others. -/
  | notContainer
  deriving DecidableEq, Repr

/-- Changes the list of children at the end of a path with `change`. -/
def editChildren (change : List Node → Except EditError (List Node)) :
    List Nat → List Node → Except EditError (List Node)
  | [], nodes => change nodes
  | index :: path, nodes =>
    match nodes[index]? with
    | some (.container origin content head children) => do
      let children ← editChildren change path children
      return nodes.set index (.container origin content head children)
    | some (.leaf ..) => .error .notContainer
    | none => .error .noSuchNode

namespace Document

/-- Changes the children of the document or of a container in it. -/
def edit (document : Document) (path : List Nat)
    (change : List Node → Except EditError (List Node)) :
    Except EditError Document := do
  let children ← editChildren change path document.children
  return { document with children }

/-- Adds a node after the last child. -/
def append (document : Document) (path : List Nat) (node : Node) :
    Except EditError Document :=
  document.edit path fun nodes => .ok (nodes ++ [node])

/-- Adds a node after the child with the given index. -/
def insertAfter (document : Document) (path : List Nat) (index : Nat)
    (node : Node) :
    Except EditError Document :=
  document.edit path fun nodes =>
    if index < nodes.length then
      .ok (nodes.take (index + 1) ++ node :: nodes.drop (index + 1))
    else .error .noSuchNode

end Document

/-! ## Descriptions -/

/-- A short description of a node with its texts in quotes; comments and other
statements have none. -/
def Node.describe? : Node → Option Text
  | .container _ _ (.rule selector) _ =>
    some ("Rule(".toList ++ selector.quoted ++ [')'])
  | .container _ _ (.atRule name params _) _ =>
    some ("AtRule(".toList ++ name.quoted ++ [',', ' '] ++
      params.quoted ++ [')'])
  | .leaf _ (.declaration property value _) =>
    some ("Declaration(".toList ++ property.quoted ++ [',', ' '] ++
      value.quoted ++ [')'])
  | .leaf _ _ => none

end OklchGate.Css
