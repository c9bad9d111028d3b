import OklchGate.Gate.Insert

/-!
# What gates declare for `:root`

The top-level declarations of a style sheet are paired when its top-level gates
declare each of their properties for `:root`.  These properties are collected
node by node, so what holds of them follows from what holds of one node.

* `gateProperties` is what one node contributes, and `rootProperties` what one
  rule in a gate does; `rootGateProperties_eq` puts them together.
* `gateProperties_of_not_isGate`: only gates contribute, and they do with the
  declarations of their rules (`exists_of_mem_gateProperties`,
  `exists_of_mem_rootProperties`).
-/

namespace OklchGate.Gate

/-- The property that a node declares. -/
def property? : Css.Node → Option Text
  | .leaf _ (.declaration property _ _) => some property
  | _ => none

/-- The properties that a node in a gate declares for `:root`. -/
def rootProperties (child : Css.Node) : List Text :=
  if child.selector? = some rootSelector then child.children.filterMap property?
  else []

/-- The properties that a node declares for `:root` if it is a gate. -/
def gateProperties : Css.Node → List Text
  | .container _ _ (.atRule name params hasBlock) children =>
    if isGateHead (.atRule name params hasBlock) && params = condition then
      children.flatMap rootProperties
    else []
  | _ => []

theorem rootGateProperties_eq (nodes : List Css.Node) :
    rootGateProperties nodes = nodes.flatMap gateProperties :=
  rfl

theorem rootGateProperties_append (front back : List Css.Node) :
    rootGateProperties (front ++ back) = rootGateProperties front ++
      rootGateProperties back :=
  List.flatMap_append

theorem rootGateProperties_cons (node : Css.Node) (rest : List Css.Node) :
    rootGateProperties (node :: rest) = gateProperties node ++
      rootGateProperties rest := by
  rw [rootGateProperties_eq, rootGateProperties_eq, List.flatMap_cons]

/-- Only gates declare properties for `:root`. -/
theorem gateProperties_of_not_isGate {node : Css.Node}
    (h : isGate node = false) :
    gateProperties node = [] := by
  cases node with
  | leaf => rfl
  | container origin content head children =>
    cases head with
    | rule => rfl
    | atRule name params hasBlock =>
      have hhead : isGateHead (.atRule name params hasBlock) = false := h
      rw [gateProperties, hhead]
      rfl

/-- A property for `:root` stands in a rule in a gate. -/
theorem exists_of_mem_gateProperties {node : Css.Node} {property : Text}
    (h : property ∈ gateProperties node) :
    ∃ child ∈ node.children, property ∈ rootProperties child := by
  cases node with
  | leaf => cases h
  | container origin content head children =>
    cases head with
    | rule => cases h
    | atRule name params hasBlock =>
      rw [gateProperties] at h
      split at h
      · exact List.mem_flatMap.mp h
      · cases h

theorem exists_of_mem_rootProperties {child : Css.Node} {property : Text}
    (h : property ∈ rootProperties child) :
    ∃ declaration ∈ child.children, property? declaration = some property := by
  rw [rootProperties] at h
  split at h
  · exact List.mem_filterMap.mp h
  · cases h

end OklchGate.Gate
