import OklchGate.Proofs.Css.Gaps

/-!
# Traversal of a document

A traversal meets every node of a document once, each before its children.  In a
style sheet that was read, it meets them in the order in which they start in the
source.

There are four groups.

* `pathsOf`, the paths of some nodes in lexicographic order: `mem_pathsOf_iff`
  says that they are all paths, and `pairwise_pathsOf` that they ascend.
* `Document.Visits`: some nodes are those at the ends of all paths of a
  document, in the order of the paths.  `Document.visits_walk` says so of a
  traversal.
* `Ascending`: each of some nodes was read and starts before those after it.
* `Tiles.pairwise_walk`, by induction on nodes that stand in order, and
  `ascending_walk_of_parse`.
-/

namespace OklchGate.Css

/-! ## Paths -/

mutual

/-- The paths from a node to itself and to the nodes below it. -/
def Node.paths : Node → List (List Nat)
  | .leaf _ _ => [[]]
  | .container _ _ _ children => [] :: pathsOf children
termination_by structural node => node

/-- The paths to some nodes and to the nodes below them. -/
def pathsOf : List Node → List (List Nat)
  | [] => []
  | node :: rest =>
    node.paths.map (0 :: ·) ++ (pathsOf rest).map (List.modifyHead (· + 1))
termination_by structural nodes => nodes

end

theorem Node.paths_eq (node : Node) :
    node.paths = [] :: pathsOf node.children := by
  cases node <;> rfl

theorem nil_notMem_pathsOf (nodes : List Node) : [] ∉ pathsOf nodes := by
  induction nodes with
  | nil => exact List.not_mem_nil
  | cons node rest ih =>
    rw [pathsOf, List.mem_append, List.mem_map, List.mem_map]
    rintro (⟨path, _, hpath⟩ | ⟨path, hmem, hpath⟩)
    · cases hpath
    · rw [List.modifyHead_eq_nil_iff] at hpath
      exact ih (hpath ▸ hmem)

theorem exists_cons_of_mem_pathsOf {path : List Nat} {nodes : List Node}
    (h : path ∈ pathsOf nodes) : ∃ index tail, path = index :: tail :=
  List.exists_cons_of_ne_nil fun hnil => nil_notMem_pathsOf nodes (hnil ▸ h)

/-- A path that starts with the first node. -/
theorem zero_cons_mem_pathsOf {path : List Nat} {node : Node}
    {rest : List Node} :
    0 :: path ∈ pathsOf (node :: rest) ↔ path ∈ node.paths := by
  rw [pathsOf, List.mem_append, List.mem_map, List.mem_map]
  constructor
  · rintro (⟨own, hown, hpath⟩ | ⟨other, hother, hpath⟩)
    · rwa [← (List.cons.inj hpath).2]
    · obtain ⟨index, tail, rfl⟩ := exists_cons_of_mem_pathsOf hother
      cases hpath
  · exact fun h => Or.inl ⟨path, h, rfl⟩

/-- A path that starts with a node after the first one. -/
theorem succ_cons_mem_pathsOf {index : Nat} {path : List Nat} {node : Node}
    {rest : List Node} :
    (index + 1) :: path ∈ pathsOf (node :: rest) ↔
      index :: path ∈ pathsOf rest := by
  rw [pathsOf, List.mem_append, List.mem_map, List.mem_map]
  constructor
  · rintro (⟨own, hown, hpath⟩ | ⟨other, hother, hpath⟩)
    · cases hpath
    · obtain ⟨first, tail, rfl⟩ := exists_cons_of_mem_pathsOf hother
      cases hpath
      exact hother
  · exact fun h => Or.inr ⟨index :: path, h, rfl⟩

mutual

theorem Node.mem_paths_iff (ancestors : List Node) {path : List Nat}
    {node : Node} :
    path ∈ node.paths ↔
      path = [] ∨ (placeIn ancestors path node.children).isSome = true := by
  cases node with
  | leaf origin item =>
    show path ∈ [[]] ↔ _ ∨ (placeIn ancestors path []).isSome = true
    rw [placeIn_nil, List.mem_singleton]
    simp
  | container origin content head children =>
    rw [Node.paths, List.mem_cons, mem_pathsOf_iff ancestors]
    rfl

/-- The paths to some nodes are those that lead somewhere. -/
theorem mem_pathsOf_iff (ancestors : List Node) {path : List Nat}
    {nodes : List Node} :
    path ∈ pathsOf nodes ↔ (placeIn ancestors path nodes).isSome = true := by
  cases nodes with
  | nil => simp [pathsOf, placeIn_nil]
  | cons node rest =>
    match path with
    | [] => simp [nil_notMem_pathsOf, placeIn]
    | 0 :: path =>
      rw [zero_cons_mem_pathsOf, placeIn_zero,
        Node.mem_paths_iff (node :: ancestors)]
      cases path with
      | nil => simp
      | cons index path => simp
    | (index + 1) :: path =>
      rw [succ_cons_mem_pathsOf, placeIn_succ, mem_pathsOf_iff ancestors]

end

theorem modifyHead_succ_lt {path other : List Nat} (h : path < other) :
    path.modifyHead (· + 1) < other.modifyHead (· + 1) := by
  cases path with
  | nil =>
    cases other with
    | nil => exact h
    | cons index tail => exact List.nil_lt_cons _ _
  | cons first path =>
    cases other with
    | nil => exact absurd h (List.not_lt_nil _)
    | cons index tail =>
      rw [List.cons_lt_cons_iff] at h
      rw [List.modifyHead_cons, List.modifyHead_cons, List.cons_lt_cons_iff]
      exact h.imp Nat.succ_lt_succ fun h => ⟨congrArg Nat.succ h.1, h.2⟩

mutual

theorem Node.pairwise_paths (node : Node) : node.paths.Pairwise (· < ·) := by
  cases node with
  | leaf origin item => exact List.pairwise_singleton _ _
  | container origin content head children =>
    rw [Node.paths, List.pairwise_cons]
    refine ⟨fun path hpath => ?_, pairwise_pathsOf children⟩
    obtain ⟨index, tail, rfl⟩ := exists_cons_of_mem_pathsOf hpath
    exact List.nil_lt_cons _ _

/-- The paths to some nodes ascend: a path comes before those that go on from
it, and these before the ones that turn off later. -/
theorem pairwise_pathsOf (nodes : List Node) :
    (pathsOf nodes).Pairwise (· < ·) := by
  cases nodes with
  | nil => exact List.Pairwise.nil
  | cons node rest =>
    rw [pathsOf, List.pairwise_append, List.pairwise_map, List.pairwise_map]
    refine ⟨?_, ?_, ?_⟩
    · exact (Node.pairwise_paths node).imp fun h =>
        List.cons_lt_cons_iff.mpr (Or.inr ⟨rfl, h⟩)
    · exact (pairwise_pathsOf rest).imp modifyHead_succ_lt
    · intro own hown other hother
      obtain ⟨path, _, rfl⟩ := List.mem_map.mp hown
      obtain ⟨path, hpath, rfl⟩ := List.mem_map.mp hother
      obtain ⟨index, tail, rfl⟩ := exists_cons_of_mem_pathsOf hpath
      exact List.cons_lt_cons_iff.mpr (Or.inl (Nat.succ_pos index))

end

/-! ## Nodes at the ends of paths -/

mutual

theorem Node.map_placeIn_paths (ancestors rest : List Node) (node : Node) :
    node.paths.map (fun path => placeIn ancestors (0 :: path) (node :: rest)) =
      (placesIn ancestors rest node).map some := by
  have hbelow : (pathsOf node.children).map
      (fun path => placeIn (node :: ancestors) path node.children) =
        (placesOf (node :: ancestors) node.children).map some := by
    cases node with
    | leaf origin item => rfl
    | container origin content head children =>
      exact map_placeIn_pathsOf _ children
  rw [Node.paths_eq, placesIn_eq, List.map_cons, List.map_cons, placeIn_zero,
    ← hbelow]
  congr 1
  refine List.map_congr_left fun path hpath => ?_
  obtain ⟨index, tail, rfl⟩ := exists_cons_of_mem_pathsOf hpath
  rw [placeIn_zero, List.isEmpty_cons, if_neg Bool.false_ne_true]

/-- The paths to some nodes lead to their places, in the same order. -/
theorem map_placeIn_pathsOf (ancestors nodes : List Node) :
    (pathsOf nodes).map (fun path => placeIn ancestors path nodes) =
      (placesOf ancestors nodes).map some := by
  cases nodes with
  | nil => rfl
  | cons node rest =>
    rw [pathsOf, placesOf, List.map_append, List.map_append, List.map_map,
      List.map_map, ← Node.map_placeIn_paths ancestors rest node,
      ← map_placeIn_pathsOf ancestors rest]
    congr 1
    refine List.map_congr_left fun path hpath => ?_
    obtain ⟨index, tail, rfl⟩ := exists_cons_of_mem_pathsOf hpath
    exact placeIn_succ ancestors index tail node rest

end

/-- The nodes are those at the ends of the paths, and these are all paths of the
document, each once and in lexicographic order. -/
structure Document.Visits (document : Document) (paths : List (List Nat))
    (nodes : List Node) :
    Prop where
  complete : ∀ path, path ∈ paths ↔ (document.place? path).isSome = true
  ordered : paths.Pairwise (· < ·)
  ends : paths.map (fun path => (document.place? path).map Place.node) =
    nodes.map some

/-- A traversal meets the nodes at the ends of all paths of a document. -/
theorem Document.visits_walk (document : Document) :
    document.Visits (pathsOf document.children) (walk document.children) where
  complete := fun _ => mem_pathsOf_iff []
  ordered := pairwise_pathsOf document.children
  ends := by
    have hplaces := congrArg (List.map (Option.map Place.node))
      (map_placeIn_pathsOf [] document.children)
    rw [List.map_map, List.map_map] at hplaces
    rw [← map_node_places, List.map_map]
    exact hplaces

/-! ## Nodes by their starts -/

/-- Both nodes were read, and the first one starts before the other. -/
def Node.StartsBefore (node other : Node) : Prop :=
  ∃ own span, node.span? = some own ∧ other.span? = some span ∧ own.start <
    span.start

/-- Each of the nodes was read and starts before those after it. -/
structure Ascending (nodes : List Node) : Prop where
  read : ∀ node ∈ nodes, node.isGenerated = false
  ordered : nodes.Pairwise Node.StartsBefore

theorem Ascending.sublist {nodes others : List Node} (h : Ascending nodes)
    (hsublist : others.Sublist nodes) : Ascending others :=
  ⟨fun node hnode => h.read node (hsublist.subset hnode),
    h.ordered.sublist hsublist⟩

/-- The children of a node that is met are met in their order. -/
theorem Ascending.children {nodes : List Node} (h : Ascending (walk nodes))
    {node : Node} (hnode : node ∈ walk nodes) : Ascending node.children :=
  h.sublist ((sublist_walk node.children).trans (sublist_walk_of_mem hnode))

/-! ## Nodes of a source -/

/-- A node that was read with content starts before its content. -/
def Node.OpensBefore (node : Node) : Prop :=
  ∀ origin content head children,
    node = .container origin (some content) head children →
    ∃ span, origin = .parsed span ∧ span.start < content.start

mutual

theorem Node.Spans.pairwise_walk {start stop : Nat} {node : Node}
    (h : node.Spans start stop)
    (hopens : ∀ other ∈ node :: node.descendants, other.OpensBefore) :
    (node :: node.descendants).Pairwise Node.StartsBefore := by
  cases node with
  | leaf origin item => exact List.pairwise_singleton _ _
  | container origin content head children =>
    cases content with
    | none =>
      obtain ⟨_, _, rfl⟩ := h
      exact List.pairwise_singleton _ _
    | some content =>
      rw [List.forall_mem_cons] at hopens
      have hspan := h.span?_eq
      obtain ⟨horigin, _, hchildren, _⟩ := h
      obtain ⟨own, hown, hbefore⟩ := hopens.1 _ _ _ _ rfl
      rw [horigin] at hown
      cases hown
      -- The nodes below start in the content, so only its own start has to come
      -- before that.
      refine List.pairwise_cons.mpr ⟨fun other hother => ?_,
        hchildren.pairwise_walk hopens.2⟩
      obtain ⟨span, hother, hstart, _, _⟩ := hchildren.inside other hother
      exact ⟨_, span, hspan, hother, Nat.lt_of_lt_of_le hbefore hstart⟩

/-- Nodes that stand in order in a source are met in the order in which they
start. -/
theorem Tiles.pairwise_walk {start stop : Nat} {nodes : List Node}
    (h : Tiles start stop nodes)
    (hopens : ∀ other ∈ walk nodes, other.OpensBefore) :
    (walk nodes).Pairwise Node.StartsBefore := by
  cases nodes with
  | nil => exact List.Pairwise.nil
  | cons node rest =>
    obtain ⟨a, b, _, hnode, hrest⟩ := h
    rw [walk, List.forall_mem_append] at hopens
    rw [walk, List.pairwise_append]
    refine ⟨hnode.pairwise_walk hopens.1, hrest.pairwise_walk hopens.2, ?_⟩
    intro first hfirst second hsecond
    obtain ⟨own, hown, _, hlt, hstop⟩ := hnode.inside first hfirst
    obtain ⟨span, hspan, hstart, _, _⟩ := hrest.inside second hsecond
    exact ⟨own, span, hown, hspan, by omega⟩

end

/-- The builders give content only to a node that opens a block. -/
theorem holdsOfBuilt_opensBlock (source : Text) :
    HoldsOfBuilt source fun node => ∀ origin content head children,
      node = .container origin (some content) head children →
        head.opensBlock = true where
  comment := by
    rintro span text origin content head children ⟨⟩
  statement := by
    intro first others origin content head children hnode
    unfold statementNode at hnode
    dsimp only at hnode
    split at hnode
    · cases hnode
    · split at hnode <;> cases hnode
  block := by
    rintro before block children origin content head others ⟨⟩
    unfold headOf
    split
    · rfl
    · split <;> rfl

theorem filled_of_parse {source : Text} {document : Document}
    (h : Document.parse source = .ok document) :
    ∀ node ∈ walk document.children, node.Filled source := by
  rw [parse_eq_ok_iff] at h
  obtain ⟨hfaultless, nodes, hnodes, rfl⟩ := h
  exact (laid_of_readParts _ (standing_group hfaultless)
    (Part.spacedAll_group _ isSegment_nil) (Nat.zero_le _) hnodes).2

theorem opensBefore_of_parse {source : Text} {document : Document}
    (h : Document.parse source = .ok document) :
    ∀ node ∈ walk document.children, node.OpensBefore := by
  intro node hnode origin content head children hcontainer
  have hblock := of_mem_walk_parse (holdsOfBuilt_opensBlock source) h node hnode
  obtain ⟨span, inner, hspan, hinner, hlt, _⟩ :=
    filled_of_parse h node hnode _ _ _ _ hcontainer (hblock _ _ _ _ hcontainer)
  cases hinner
  exact ⟨span, hspan, hlt⟩

/-- A traversal of a style sheet meets its nodes in the order in which they
start. -/
theorem ascending_walk_of_parse {source : Text} {document : Document}
    (h : Document.parse source = .ok document) :
    Ascending (walk document.children) :=
  ⟨allRead_of_parse h,
    (tiles_of_parse h).2.pairwise_walk (opensBefore_of_parse h)⟩

end OklchGate.Css
