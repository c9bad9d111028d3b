import OklchGate.Css.Edit
import OklchGate.Proofs.Css.Spans

/-!
# The places of a document

A place is a node with what is around it.  The places of a document are listed
in the order of the text, and they are the ends of its paths.

There are five groups.

* `placesOf`, the places of some nodes, and `mem_placesOf_iff`: they are those
  that paths lead to.
* `keptOf`, what is left of some nodes without the generated ones.
* `walk` along the list of nodes, and `sublist_walk_of_mem`, along the tree.
* `AllRead`: no node was generated.  The nodes of a source are such.
* `HoldsOfBuilt` and `of_mem_walk_parse`: what holds of the nodes that the
  builders make holds of all nodes of a style sheet.
-/

namespace OklchGate.Css

/-! ## Places -/

mutual

/-- The places of a node and of the nodes below it. -/
def placesIn (ancestors following : List Node) : Node → List Place
  | .leaf origin item => [⟨.leaf origin item, following, ancestors⟩]
  | .container origin content head children =>
    ⟨.container origin content head children, following, ancestors⟩ ::
      placesOf (.container origin content head children :: ancestors) children
termination_by structural node => node

/-- The places of some nodes and of the nodes below them, in the order of the
text. -/
def placesOf (ancestors : List Node) : List Node → List Place
  | [] => []
  | node :: rest => placesIn ancestors rest node ++ placesOf ancestors rest
termination_by structural nodes => nodes

end

/-- The places of a document. -/
def Document.places (document : Document) : List Place :=
  placesOf [] document.children

/-- The places of a node: its own, and those of its children. -/
theorem placesIn_eq (ancestors following : List Node) (node : Node) :
    placesIn ancestors following node =
      ⟨node, following, ancestors⟩ :: placesOf (node :: ancestors)
        node.children := by
  cases node <;> rfl

/-- A path into some nodes whose first index is not the first node leads into
the others. -/
theorem placeIn_succ (ancestors : List Node) (index : Nat) (path : List Nat)
    (node : Node) (rest : List Node) :
    placeIn ancestors ((index + 1) :: path) (node :: rest) =
      placeIn ancestors (index :: path) rest := by
  cases path with
  | nil => simp [placeIn]
  | cons next path => simp [placeIn]

/-- A path that starts with the first node leads to it or below it. -/
theorem placeIn_zero (ancestors : List Node) (path : List Nat) (node : Node)
    (rest : List Node) :
    placeIn ancestors (0 :: path) (node :: rest) =
      if path.isEmpty then some ⟨node, rest, ancestors⟩
      else placeIn (node :: ancestors) path node.children := by
  cases path with
  | nil => simp [placeIn]
  | cons next path => simp [placeIn]

theorem placeIn_nil (ancestors : List Node) (path : List Nat) :
    placeIn ancestors path [] = none := by
  cases path with
  | nil => rfl
  | cons index path =>
    cases path with
    | nil => simp [placeIn]
    | cons next path => simp [placeIn]

mutual

theorem mem_placesIn_iff {ancestors following : List Node} {node : Node}
    {place : Place} :
    place ∈ placesIn ancestors following node ↔
      place = ⟨node, following, ancestors⟩ ∨
        ∃ path, placeIn (node :: ancestors) path node.children =
          some place := by
  cases node with
  | leaf origin item =>
    rw [placesIn, List.mem_singleton]
    show _ ↔ _ ∨ ∃ path, placeIn _ path [] = some place
    simp [placeIn_nil]
  | container origin content head children =>
    rw [placesIn, List.mem_cons, mem_placesOf_iff]
    rfl

/-- A place is listed exactly when a path leads to it. -/
theorem mem_placesOf_iff {ancestors nodes : List Node} {place : Place} :
    place ∈ placesOf ancestors nodes ↔ ∃ path, placeIn ancestors path nodes =
      some place := by
  cases nodes with
  | nil => simp [placesOf, placeIn_nil]
  | cons node rest =>
    rw [placesOf, List.mem_append, mem_placesIn_iff, mem_placesOf_iff]
    constructor
    · rintro ((rfl | ⟨path, hpath⟩) | ⟨path, hpath⟩)
      · exact ⟨[0], by rw [placeIn_zero]; rfl⟩
      · refine ⟨0 :: path, ?_⟩
        rw [placeIn_zero]
        cases path with
        | nil => cases hpath
        | cons next path => exact hpath
      · cases path with
        | nil => cases hpath
        | cons index path =>
          exact ⟨(index + 1) :: path, by rw [placeIn_succ]; exact hpath⟩
    · rintro ⟨path, hpath⟩
      cases path with
      | nil => cases hpath
      | cons index path =>
        cases index with
        | zero =>
          rw [placeIn_zero] at hpath
          split at hpath
          · exact Or.inl (Or.inl (Option.some.inj hpath).symm)
          · exact Or.inl (Or.inr ⟨path, hpath⟩)
        | succ index =>
          rw [placeIn_succ] at hpath
          exact Or.inr ⟨index :: path, hpath⟩

end

/-! ## Without generated nodes -/

mutual

/-- A node without the generated nodes below it. -/
def Node.kept : Node → Node
  | .leaf origin item => .leaf origin item
  | .container origin content head children =>
    .container origin content head (keptOf children)
termination_by structural node => node

/-- Some nodes without the generated ones among them and below them. -/
def keptOf : List Node → List Node
  | [] => []
  | node :: rest =>
    if node.isGenerated then keptOf rest else node.kept :: keptOf rest
termination_by structural nodes => nodes

end

/-- A place without the generated nodes around it. -/
def Place.kept (place : Place) : Place :=
  ⟨place.node.kept, keptOf place.following, place.ancestors.map Node.kept⟩

theorem keptOf_generated {node : Node} (h : node.isGenerated = true)
    (rest : List Node) :
    keptOf (node :: rest) = keptOf rest := by
  rw [keptOf, if_pos h]

theorem keptOf_read {node : Node} (h : node.isGenerated = false)
    (rest : List Node) :
    keptOf (node :: rest) = node.kept :: keptOf rest := by
  rw [keptOf, h]
  rfl

mutual

theorem node_of_mem_placesIn {ancestors following : List Node} {node : Node}
    {place : Place} (h : place ∈ placesIn ancestors following node) :
    place.node ∈ node :: node.descendants := by
  cases node with
  | leaf origin item =>
    rw [placesIn, List.mem_singleton] at h
    rw [h]
    exact List.mem_cons_self
  | container origin content head children =>
    rw [placesIn, List.mem_cons] at h
    rcases h with rfl | h
    · exact List.mem_cons_self
    · exact List.mem_cons_of_mem _ (node_of_mem_placesOf h)

/-- The node of a place is one of the nodes. -/
theorem node_of_mem_placesOf {ancestors nodes : List Node} {place : Place}
    (h : place ∈ placesOf ancestors nodes) : place.node ∈ walk nodes := by
  cases nodes with
  | nil => cases h
  | cons node rest =>
    rw [placesOf, List.mem_append] at h
    rw [walk, List.mem_append]
    rcases h with h | h
    · exact Or.inl (node_of_mem_placesIn h)
    · exact Or.inr (node_of_mem_placesOf h)

end

mutual

theorem map_node_placesIn (ancestors following : List Node) (node : Node) :
    (placesIn ancestors following node).map Place.node =
      node :: node.descendants := by
  cases node with
  | leaf origin item => rfl
  | container origin content head children =>
    rw [placesIn, List.map_cons, map_node_placesOf]
    rfl

theorem map_node_placesOf (ancestors nodes : List Node) :
    (placesOf ancestors nodes).map Place.node = walk nodes := by
  cases nodes with
  | nil => rfl
  | cons node rest =>
    rw [placesOf, walk, List.map_append, map_node_placesIn, map_node_placesOf]

end

/-- The nodes of the places of a document are its nodes. -/
theorem map_node_places (document : Document) :
    document.places.map Place.node = walk document.children :=
  map_node_placesOf [] document.children

/-! ## Nodes in a traversal -/

theorem walk_append (a b : List Node) : walk (a ++ b) = walk a ++ walk b := by
  induction a with
  | nil => rfl
  | cons node rest ih =>
    rw [List.cons_append, walk, walk, ih, List.append_assoc]

theorem walk_cons (node : Node) (rest : List Node) :
    walk (node :: rest) = node :: (walk node.children ++ walk rest) := by
  cases node <;> rfl

theorem sublist_walk (nodes : List Node) : nodes.Sublist (walk nodes) := by
  induction nodes with
  | nil => exact List.Sublist.refl []
  | cons node rest ih =>
    rw [walk_cons]
    exact (ih.trans (List.sublist_append_right _ _)).cons_cons node

mutual

theorem Node.sublist_walk_children {node child : Node}
    (h : child ∈ node :: node.descendants) :
    (walk child.children).Sublist (node :: node.descendants) := by
  rcases List.mem_cons.mp h with rfl | h
  · refine List.Sublist.cons _ ?_
    cases child <;> exact List.Sublist.refl _
  · cases node with
    | leaf origin item => cases h
    | container origin content head children =>
      exact (sublist_walk_of_mem h).cons _

/-- The nodes below a node are met in the order in which they are met with the
others. -/
theorem sublist_walk_of_mem {nodes : List Node} {node : Node}
    (h : node ∈ walk nodes) :
    (walk node.children).Sublist (walk nodes) := by
  cases nodes with
  | nil => cases h
  | cons first rest =>
    rw [walk, List.mem_append] at h
    rw [walk]
    rcases h with h | h
    · exact (Node.sublist_walk_children h).trans (List.sublist_append_left _ _)
    · exact (sublist_walk_of_mem h).trans (List.sublist_append_right _ _)

end

theorem mem_walk {node : Node} {nodes : List Node} (h : node ∈ nodes) :
    node ∈ walk nodes :=
  (sublist_walk nodes).subset h

/-- The children of a node below some nodes are below them. -/
theorem mem_walk_of_mem {node child : Node} {nodes : List Node}
    (h : node ∈ walk nodes) (hchild : child ∈ node.children) :
    child ∈ walk nodes :=
  (sublist_walk_of_mem h).subset (mem_walk hchild)

/-! ## Nodes that were read -/

/-- No node was generated, at any depth. -/
def AllRead (nodes : List Node) : Prop :=
  ∀ node ∈ walk nodes, node.isGenerated = false

theorem allRead_cons {node : Node} {rest : List Node} :
    AllRead (node :: rest) ↔
      node.isGenerated = false ∧ AllRead node.children ∧ AllRead rest := by
  rw [AllRead, walk_cons]
  simp [AllRead, or_imp, forall_and]

mutual

theorem Node.Spans.allRead {start stop : Nat} {node : Node}
    (h : node.Spans start stop) :
    node.isGenerated = false ∧ AllRead node.children := by
  have hread : node.isGenerated = false := by
    rw [Node.isGenerated, h.span?_eq]
    rfl
  refine ⟨hread, ?_⟩
  cases node with
  | leaf origin item => exact nofun
  | container origin content head children =>
    cases content with
    | none =>
      obtain ⟨_, _, rfl⟩ := h
      exact nofun
    | some content => exact Tiles.allRead h.2.2.1

/-- Nodes that stand in order in a source were all read. -/
theorem Tiles.allRead {start stop : Nat} {nodes : List Node}
    (h : Tiles start stop nodes) :
    AllRead nodes := by
  cases nodes with
  | nil => exact nofun
  | cons node rest =>
    obtain ⟨_, _, _, hnode, hrest⟩ := h
    have hnode := Node.Spans.allRead hnode
    exact allRead_cons.mpr ⟨hnode.1, hnode.2, Tiles.allRead hrest⟩

end

/-- The nodes of a style sheet that is read were all read. -/
theorem allRead_of_parse {source : Text} {document : Document}
    (h : Document.parse source = .ok document) : AllRead document.children :=
  (tiles_of_parse h).2.allRead

mutual

/-- A node that was read and the nodes below it lie in its span. -/
theorem Node.Spans.inside {start stop : Nat} {node : Node}
    (h : node.Spans start stop) :
    ∀ other ∈ node :: node.descendants, ∃ span, other.span? = some span ∧
      start ≤ span.start ∧ span.start < span.stop ∧ span.stop ≤ stop := by
  rw [List.forall_mem_cons]
  refine ⟨⟨_, h.span?_eq, Nat.le_refl start, h.lt, Nat.le_refl stop⟩, ?_⟩
  cases node with
  | leaf origin item => exact nofun
  | container origin content head children =>
    cases content with
    | none =>
      obtain ⟨_, _, rfl⟩ := h
      exact nofun
    | some content =>
      intro other hother
      obtain ⟨span, hspan, hstart, hlt, hstop⟩ :=
        Tiles.inside h.2.2.1 other hother
      have hbefore := h.2.1
      have hafter := h.2.2.2
      exact ⟨span, hspan, by omega, hlt, by omega⟩

theorem Tiles.inside {start stop : Nat} {nodes : List Node}
    (h : Tiles start stop nodes) :
    ∀ other ∈ walk nodes, ∃ span, other.span? = some span ∧
      start ≤ span.start ∧ span.start < span.stop ∧ span.stop ≤ stop := by
  cases nodes with
  | nil => exact nofun
  | cons node rest =>
    obtain ⟨a, b, hstart, hnode, hrest⟩ := h
    have hle := hrest.le
    have hab := hnode.le
    intro other hother
    rw [walk, List.mem_append] at hother
    rcases hother with hother | hother
    · obtain ⟨span, hspan, hfrom, hlt, hto⟩ :=
        Node.Spans.inside hnode other hother
      exact ⟨span, hspan, by omega, hlt, by omega⟩
    · obtain ⟨span, hspan, hfrom, hlt, hto⟩ := Tiles.inside hrest other hother
      exact ⟨span, hspan, by omega, hlt, hto⟩

end

mutual

theorem Node.Spans.nodup {start stop : Nat} {node : Node}
    (h : node.Spans start stop) :
    (node :: node.descendants).Nodup := by
  cases node with
  | leaf origin item =>
    exact List.nodup_cons.mpr ⟨List.not_mem_nil, List.nodup_nil⟩
  | container origin content head children =>
    cases content with
    | none =>
      obtain ⟨_, _, rfl⟩ := h
      exact List.nodup_cons.mpr ⟨List.not_mem_nil, List.nodup_nil⟩
    | some content =>
      rw [List.nodup_cons]
      refine ⟨fun hmem => ?_, Tiles.nodup h.2.2.1⟩
      obtain ⟨span, hspan, _, _, hstop⟩ := Tiles.inside h.2.2.1 _ hmem
      rw [h.span?_eq] at hspan
      obtain rfl := Option.some.inj hspan
      exact absurd h.2.2.2 (Nat.not_lt_of_le hstop)

/-- Nodes that stand in order in a source are different. -/
theorem Tiles.nodup {start stop : Nat} {nodes : List Node}
    (h : Tiles start stop nodes) :
    (walk nodes).Nodup := by
  cases nodes with
  | nil => exact List.nodup_nil
  | cons node rest =>
    obtain ⟨a, b, _, hnode, hrest⟩ := h
    rw [walk, List.nodup_append]
    refine ⟨Node.Spans.nodup hnode, Tiles.nodup hrest, ?_⟩
    rintro other hother _ hmem rfl
    obtain ⟨span, hspan, _, hlt, hstop⟩ := Node.Spans.inside hnode other hother
    obtain ⟨again, hagain, hstart, _, _⟩ := Tiles.inside hrest other hmem
    obtain rfl := Option.some.inj (hspan.symm.trans hagain)
    omega

end

/-- The nodes of a style sheet that is read are different. -/
theorem nodup_walk_of_parse {source : Text} {document : Document}
    (h : Document.parse source = .ok document) :
    (walk document.children).Nodup :=
  (tiles_of_parse h).2.nodup

/-! ## Nodes by their builders -/

/-- The builders make only nodes of which `P` holds. -/
structure HoldsOfBuilt (source : Text) (P : Node → Prop) : Prop where
  comment : ∀ span text, P (.leaf (.parsed span) (.comment text))
  statement : ∀ first others, P (statementNode source first others)
  block : ∀ before block children, P (blockNode source before block children)

section Builders

variable {source : Text} {P : Node → Prop}

mutual

theorem Part.of_mem_walk_read (hbuilt : HoldsOfBuilt source P)
    {start stop : Nat} {nodes : List Node} (part : Part)
    (h : part.read source start stop = some nodes) :
    ∀ node ∈ walk nodes, P node := by
  cases part with
  | gap tree =>
    cases h
    exact nofun
  | comment tree =>
    cases h
    intro node hnode
    rw [walk, walk, List.append_nil, Node.descendants,
      List.mem_singleton] at hnode
    rw [hnode]
    exact hbuilt.comment _ _
  | statement first others =>
    cases h
    have hwalk : ∀ first others,
        (statementNode source first others).descendants = [] := by
      intro first others
      rw [statementNode]
      dsimp only
      split
      · rfl
      · split <;> rfl
    intro node hnode
    rw [piecesOf, segmentNodes, walk, walk, List.append_nil, hwalk,
      List.mem_singleton] at hnode
    rw [hnode]
    exact hbuilt.statement _ _
  | block before opener content closer =>
    rw [Part.read] at h
    split at h
    · obtain ⟨children, hchildren, rfl⟩ := Option.map_eq_some_iff.mp h
      intro node hnode
      rw [walk, walk, List.append_nil, List.mem_cons] at hnode
      rcases hnode with rfl | hnode
      · exact hbuilt.block _ _ _
      · exact of_mem_walk_readParts hbuilt content hchildren node hnode
    · exact absurd h nofun

/-- What holds of the nodes that the builders make holds of all nodes of some
parts. -/
theorem of_mem_walk_readParts (hbuilt : HoldsOfBuilt source P)
    {start stop : Nat} {nodes : List Node} (parts : List Part)
    (h : readParts source start stop parts = some nodes) :
    ∀ node ∈ walk nodes, P node := by
  cases parts with
  | nil =>
    cases h
    exact nofun
  | cons part rest =>
    obtain ⟨own, others, rfl, hown, hothers⟩ := exists_of_readParts_cons h
    intro node hnode
    rw [walk_append, List.mem_append] at hnode
    rcases hnode with hnode | hnode
    · exact part.of_mem_walk_read hbuilt hown node hnode
    · exact of_mem_walk_readParts hbuilt rest hothers node hnode

end

/-- What holds of the nodes that the builders make holds of all nodes of a style
sheet. -/
theorem of_mem_walk_parse (hbuilt : HoldsOfBuilt source P) {document : Document}
    (h : Document.parse source = .ok document) :
    ∀ node ∈ walk document.children, P node := by
  rw [parse_eq_ok_iff] at h
  obtain ⟨_, nodes, hnodes, rfl⟩ := h
  exact of_mem_walk_readParts hbuilt _ hnodes

end Builders

end OklchGate.Css
