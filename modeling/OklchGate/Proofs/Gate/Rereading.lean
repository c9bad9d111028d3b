import OklchGate.Proofs.Css.Planting
import OklchGate.Proofs.Gate.Patches

/-!
# Reading the output of an insertion

The output of an insertion is read as the nodes of the source with the nodes of
the gates between them, if each gate is read as a gate by itself and the gate
for `:root` does not stand after an open segment.

There are four groups.

* `readBack`, the nodes of a text, and `readsAsGate`.
* `rereadNodes`, some nodes with the nodes of their gates.
* `GatesRead`, which says of the gates between some nodes that they are read as
  gates.
* `plant`, the parts of a source with the parts of the gates.  `planted_plant`
  says that they are put in after blocks, `textOf_plant` that they make up the
  output, and `shapesOf_plant` that their nodes are those of `rereadNodes`.
-/

namespace OklchGate.Gate

/-! ## Reading a gate back -/

/-- The nodes that a text is read as, and none if it is not read. -/
def readBack (text : Text) : List Css.Node :=
  match Css.Document.parse text with
  | .ok document => document.children
  | .error _ => []

/-- A text is well-formed and ends in a curly block, and its only node is a
feature gate. -/
def readsAsGate (text : Text) : Bool :=
  Css.Token.allClosed (Css.Token.ofText text) &&
    (Css.Token.ofText text).getLast?.any Css.Token.isCurly &&
    match readBack text with
    | [node] => isGate node
    | _ => false

theorem readBack_nil : readBack [] = [] := rfl

/-- What is read back is read. -/
theorem parse_of_readBack {text : Text} (h : readBack text ≠ []) :
    ∃ document, Css.Document.parse text = .ok document := by
  rw [readBack] at h
  split at h
  · rename_i document hparse
    exact ⟨document, hparse⟩
  · exact absurd rfl h

/-- The nodes of a text with steady parts have the shapes of its parts. -/
theorem bareOf_readBack {text : Text} (h : Css.Steady (Css.Part.ofText text)) :
    Css.bareOf (readBack text) = Css.shapesOf (Css.Part.ofText text) := by
  obtain ⟨nodes, hparse, hbare⟩ := h.parse
  rw [Css.Part.textOf_ofText] at hparse
  rw [readBack, hparse, hbare]

/-- What is known of a text that reads as a gate. -/
theorem readsAsGate_cases {text : Text} (h : readsAsGate text = true) :
    Css.Insertable text ∧ Css.Steady (Css.Part.ofText text) ∧
      ∃ gate, readBack text = [gate] ∧ isGate gate = true := by
  rw [readsAsGate, Bool.and_eq_true, Bool.and_eq_true] at h
  obtain ⟨⟨hclosed, hlast⟩, hgate⟩ := h
  obtain ⟨gate, hread, hgate⟩ : ∃ gate, readBack text = [gate] ∧ isGate gate =
      true := by
    split at hgate
    · rename_i gate hread
      exact ⟨gate, hread, hgate⟩
    · exact absurd hgate Bool.false_ne_true
  have hne : readBack text ≠ [] := by
    rw [hread]
    exact List.cons_ne_nil _ _
  obtain ⟨document, hparse⟩ := parse_of_readBack hne
  have hfaultless := (Css.parse_eq_ok_iff.mp hparse).1
  exact ⟨Css.insertable_of_curly hfaultless hclosed hlast,
    Css.steady_ofText hfaultless hclosed, gate, hread, hgate⟩

/-! ## Nodes with their gates read back -/

mutual

/-- A node with the gates of the rules below it, as they are read. -/
def rereadNode (setting : Setting) (inert : Bool) : Css.Node → Css.Node
  | .leaf origin item => .leaf origin item
  | .container origin content head children =>
    .container origin content head
      (rereadNodes setting (inert || isInert head) children)
termination_by structural node => node

/-- Some nodes with the gates of their rules, as they are read. -/
def rereadNodes (setting : Setting) (inert : Bool) :
    List Css.Node → List Css.Node
  | [] => []
  | node :: rest =>
    rereadNode setting inert node ::
      (readBack (gateText setting inert node rest) ++
        rereadNodes setting inert rest)
termination_by structural nodes => nodes

end

/-- A node without children gets no gate and stays as it is. -/
theorem gateText_of_childless (setting : Setting) (inert : Bool)
    {node : Css.Node} (following : List Css.Node) (h : node.children = []) :
    gateText setting inert node following = [] ∧
      gatedNode setting inert node = node ∧
      rereadNode setting inert node = node := by
  cases node with
  | leaf origin item => exact ⟨rfl, rfl, rfl⟩
  | container origin content head children =>
    have hchildren : children = [] := h
    subst hchildren
    exact ⟨by rw [gateText, gateFor?_of_no_children]; rfl, rfl, rfl⟩

/-! ## Gates that are read -/

/-- No node below the given one is eligible. -/
def inertBelow (inert : Bool) : Css.Node → Bool
  | .leaf .. => inert
  | .container _ _ head _ => inert || isInert head

/-- The gates that are put between some nodes are read as gates. -/
def GatesRead (setting : Setting) (inert : Bool) (nodes : List Css.Node) :
    Prop :=
  ∀ patch ∈ sitePatches setting (sitesOf setting.convert inert nodes),
    readsAsGate patch.text = true

namespace GatesRead

variable {setting : Setting} {inert : Bool} {node : Css.Node}
  {following : List Css.Node}

theorem tail (h : GatesRead setting inert (node :: following)) :
    GatesRead setting inert following := by
  intro patch hpatch
  apply h
  rw [sitesOf, sitePatches_append]
  exact List.mem_append_right _ hpatch

theorem children (h : GatesRead setting inert (node :: following)) :
    GatesRead setting (inertBelow inert node) node.children := by
  cases node with
  | leaf origin item => exact List.forall_mem_nil _
  | container origin content head children =>
    intro patch hpatch
    apply h
    rw [sitesOf, sitePatches_append, sitePatches_sitesIn]
    exact List.mem_append_left _ (List.mem_append_right _ hpatch)

/-- A node has no gate, or its gate is read as one. -/
theorem gateText_cases (h : GatesRead setting inert (node :: following)) :
    (gateFor? setting inert node following = none ∧
        gateText setting inert node following = []) ∨
      ((gateFor? setting inert node following).isSome = true ∧
        readsAsGate (gateText setting inert node following) = true) := by
  cases node with
  | leaf origin item => exact Or.inl ⟨rfl, rfl⟩
  | container origin content head children =>
    cases hgate : gateFor? setting inert
      (.container origin content head children) following with
    | none => exact Or.inl ⟨rfl, by rw [gateText, hgate]; rfl⟩
    | some gate =>
      right
      have hpatch := h ⟨stopOf (.container origin content head children),
        gate.serialize setting.source⟩ (by
          rw [sitesOf, sitePatches_append, sitePatches_sitesIn, hgate]
          simp)
      rw [gateText, hgate]
      exact ⟨rfl, hpatch⟩

theorem insertable (h : GatesRead setting inert (node :: following)) :
    Css.Insertable (gateText setting inert node following) := by
  rcases h.gateText_cases with ⟨_, hnil⟩ | ⟨_, hread⟩
  · rw [hnil]
    exact Css.insertable_nil
  · exact (readsAsGate_cases hread).1

/-- The parts of the gate of a node give the nodes that are read back. -/
theorem bareOf_readBack (h : GatesRead setting inert (node :: following)) :
    Css.bareOf (readBack (gateText setting inert node following)) =
      Css.shapesOf (Css.Part.ofText
        (gateText setting inert node following)) := by
  rcases h.gateText_cases with ⟨_, hnil⟩ | ⟨_, hread⟩
  · rw [hnil]
    rfl
  · exact Gate.bareOf_readBack (readsAsGate_cases hread).2.1

end GatesRead

/-! ## Gates among the parts -/

mutual

/-- A part that gives a node, with the gates of this node and of the nodes below
it. -/
def plantPart (setting : Setting) (inert : Bool) (node : Css.Node)
    (following : List Css.Node) : Css.Part → List Css.Part
  | .block before opener content closer =>
    .block before opener
      (plant setting (inertBelow inert node) node.children content) closer ::
      Css.Part.ofText (gateText setting inert node following)
  | part => [part]
termination_by structural part => part

/-- The parts that give some nodes, with the gates of these nodes. -/
def plant (setting : Setting) (inert : Bool) (nodes : List Css.Node) :
    List Css.Part → List Css.Part
  | [] => []
  | part :: rest =>
    if part.isGap then part :: plant setting inert nodes rest
    else
      match nodes with
      | [] => part :: plant setting inert [] rest
      | node :: following =>
        plantPart setting inert node following part ++
          plant setting inert following rest
termination_by structural parts => parts

end

/-- Gates are put in after blocks. -/
theorem planted_plant {setting : Setting} {inert : Bool} {nodes : List Css.Node}
    (parts : List Css.Part) (h : GatesRead setting inert nodes) :
    Css.Planted parts (plant setting inert nodes parts) := by
  match parts with
  | [] => exact .nil
  | .gap tree :: rest => exact .keep rfl (planted_plant rest h)
  | .comment tree :: rest =>
    cases nodes with
    | nil => exact .keep rfl (planted_plant rest h)
    | cons node following => exact .keep rfl (planted_plant rest h.tail)
  | .statement first others :: rest =>
    cases nodes with
    | nil => exact .keep rfl (planted_plant rest h)
    | cons node following => exact .keep rfl (planted_plant rest h.tail)
  | .block before opener content closer :: rest =>
    cases nodes with
    | nil =>
      exact .block (.refl content) Css.insertable_nil (planted_plant rest h)
    | cons node following =>
      exact .block (planted_plant content h.children) h.insertable
        (planted_plant rest h.tail)

/-! ## The nodes of parts with gates -/

theorem children_bare (node : Css.Node) :
    node.bare.children = Css.bareOf node.children := by
  cases node <;> rfl

theorem eq_nil_of_bareOf {nodes : List Css.Node} (h : Css.bareOf nodes = []) :
    nodes = [] := by
  cases nodes with
  | nil => rfl
  | cons => cases h

/-- A part that is neither a gap nor a block gives one node without children. -/
theorem shapes_of_childless {part : Css.Part} (hgap : part.isGap = false)
    (hblock : part.isBlock = false) :
    ∃ shape, part.shapes = [shape] ∧ shape.children = [] := by
  cases part with
  | gap tree => cases hgap
  | comment tree => exact ⟨_, rfl, rfl⟩
  | statement first others =>
    refine ⟨_, rfl, ?_⟩
    rw [children_bare, Css.children_statementNode]
    rfl
  | block => cases hblock

theorem plant_gap {setting : Setting} {inert : Bool} {nodes : List Css.Node}
    {part : Css.Part} (rest : List Css.Part) (hgap : part.isGap = true) :
    plant setting inert nodes (part :: rest) =
      part :: plant setting inert nodes rest := by
  rw [plant.eq_def]
  dsimp only
  rw [if_pos hgap]

theorem plant_node {setting : Setting} {inert : Bool} {node : Css.Node}
    {following : List Css.Node} {part : Css.Part} (rest : List Css.Part)
    (hgap : part.isGap = false) :
    plant setting inert (node :: following) (part :: rest) =
      plantPart setting inert node following part ++
        plant setting inert following rest := by
  rw [plant, hgap]
  rfl

theorem plantPart_childless {setting : Setting} {inert : Bool} {node : Css.Node}
    {following : List Css.Node} {part : Css.Part}
    (hblock : part.isBlock = false) :
    plantPart setting inert node following part = [part] := by
  cases part with
  | block => cases hblock
  | _ => rfl

/-- The nodes of parts with gates are those of the parts with the nodes of the
gates between them. -/
theorem shapesOf_plant {setting : Setting} {inert : Bool}
    {nodes : List Css.Node} (parts : List Css.Part)
    (hgates : GatesRead setting inert nodes)
    (h : Css.bareOf nodes = Css.shapesOf parts) :
    Css.shapesOf (plant setting inert nodes parts) =
      Css.bareOf (rereadNodes setting inert nodes) := by
  match parts with
  | [] =>
    rw [eq_nil_of_bareOf h]
    rfl
  | part :: rest =>
    rw [Css.shapesOf_cons] at h
    cases hgap : part.isGap with
    | true =>
      have hshapes : part.shapes = [] := by
        cases part with
        | gap tree => rfl
        | _ => cases hgap
      rw [hshapes, List.nil_append] at h
      rw [plant_gap rest hgap, Css.shapesOf_cons, hshapes, List.nil_append,
        shapesOf_plant rest hgates h]
    | false =>
      cases hblock : part.isBlock with
      | false =>
        obtain ⟨shape, hshapes, hchildless⟩ := shapes_of_childless hgap hblock
        rw [hshapes, List.singleton_append] at h
        cases nodes with
        | nil => cases h
        | cons node following =>
          rw [Css.bareOf_cons, List.cons.injEq] at h
          have hchildren : node.children = [] := by
            apply eq_nil_of_bareOf
            rw [← children_bare, h.1, hchildless]
          obtain ⟨htext, _, hnode⟩ :=
            gateText_of_childless setting inert following hchildren
          rw [plant_node rest hgap, plantPart_childless hblock,
            Css.shapesOf_append, shapesOf_plant rest hgates.tail h.2,
            rereadNodes, htext, hnode, readBack_nil, Css.bareOf_cons, h.1]
          simp [hshapes]
      | true =>
        cases part with
        | block before opener content closer =>
          rw [Css.Part.shapes, List.singleton_append] at h
          match nodes with
          | [] => cases h
          | .leaf origin item :: following =>
            rw [Css.bareOf_cons, List.cons.injEq] at h
            cases h.1
          | .container origin span head children :: following =>
            rw [Css.bareOf_cons, List.cons.injEq, Css.Node.bare,
              Css.Node.container.injEq] at h
            obtain ⟨⟨_, _, rfl, hchildren⟩, hrest⟩ := h
            have hcontent := shapesOf_plant content hgates.children hchildren
            rw [plant_node rest hgap, plantPart, Css.shapesOf_append,
              Css.shapesOf_cons, ← hgates.bareOf_readBack,
              shapesOf_plant rest hgates.tail hrest, Css.Part.shapes, hcontent,
              rereadNodes, Css.bareOf_cons, Css.bareOf_append, rereadNode,
              Css.Node.bare]
            simp [inertBelow, Css.Node.children]
        | _ => cases hblock

/-! ## The text of parts with gates -/

/-- The source before the first of some nodes is printed before them. -/
theorem serializeFrom_skip (setting : Setting) (inert : Bool)
    {nodes : List Css.Node} {a b stop : Nat} (hab : a ≤ b)
    (h : Css.Tiles b stop nodes) :
    Css.serializeFrom setting.source a stop (gatedNodes setting inert nodes) =
      setting.source.slice a b ++
        Css.serializeFrom setting.source b stop
          (gatedNodes setting inert nodes) := by
  cases nodes with
  | nil => exact (Text.slice_append_slice _ hab h).symm
  | cons node rest =>
    obtain ⟨x, y, hx, hnode, _⟩ := h
    rw [gatedNodes, Css.serializeFrom, Css.serializeFrom, span?_gatedNode,
      hnode.span?_eq]
    dsimp only
    rw [← Text.slice_append_slice _ hab hx]
    simp

/-- A node is printed with its gate, and then the nodes after it. -/
theorem serializeFrom_node (setting : Setting) (inert : Bool) {node : Css.Node}
    {a b : Nat} (following : List Css.Node) (stop : Nat)
    (h : node.span? = some ⟨a, b⟩) :
    Css.serializeFrom setting.source a stop
      (gatedNodes setting inert (node :: following)) =
      (gatedNode setting inert node).serialize setting.source ++
        (gateText setting inert node following ++
          Css.serializeFrom setting.source b stop
            (gatedNodes setting inert following)) := by
  rw [gatedNodes, Css.serializeFrom, span?_gatedNode, h]
  dsimp only
  rw [serializeFrom_gate, Text.slice_eq_nil _ (Nat.le_refl a), List.nil_append]

/-- A part that is neither a gap nor a block gives one node without children,
which is printed as it stands. -/
theorem serialize_of_childless {source front back : Text} {part : Css.Part}
    {node : Css.Node} (hgap : part.isGap = false)
    (hblock : part.isBlock = false)
    (hsource : source = front ++ part.text ++ back)
    (hlawful : Css.Tree.Lawful source part.trees)
    (hread : part.read source front.length (front.length + part.text.length) =
      some [node]) :
    node.children = [] ∧ node.serialize source = part.text := by
  constructor
  · cases part with
    | gap tree => cases hgap
    | comment tree =>
      cases hread
      rfl
    | statement first others =>
      cases hread
      exact Css.children_statementNode _ _ _
    | block => cases hblock
  · obtain ⟨_, hnode, hspan⟩ := Css.Part.read_node hgap hread
    cases hnode
    have hstanding : Css.Standing source front
        (front.length + (Css.Part.textOf [part]).length) [part] :=
      .of_append front back (by simpa using hsource) (by simpa using hlawful)
    rw [Css.Part.textOf_cons, Css.Part.textOf_nil, List.append_nil] at hstanding
    obtain ⟨a, b, _, hspans, _⟩ := part.tiles_of_read hstanding hread
    rw [hspans.span?_eq, Option.some.injEq, Css.Span.mk.injEq] at hspan
    rw [Css.Node.serialize_of_spans hspans, hspan.1, hspan.2, hsource,
      Text.slice_of_append]

/-- What a closed block is read as, with its content between the text up to its
opening brace and its closing brace. -/
theorem read_closed_block {source front back : Text} {before : List Css.Tree}
    {opener : Css.Word} {content : List Css.Part} {closer : Option Css.Word}
    {node : Css.Node}
    (hsource : source =
      front ++ (Css.Part.block before opener content closer).text ++ back)
    (hbraced : (Css.Part.block before opener content closer).Braced)
    (hread : (Css.Part.block before opener content closer).read source
      front.length (front.length +
      (Css.Part.block before opener content closer).text.length) =
      some [node]) :
    ∃ lead head children, lead = front ++ (Css.Tree.textOf before ++ ['\x7b']) ∧
      source = lead ++ Css.Part.textOf content ++ '\x7d' :: back ∧
      Css.readParts source lead.length
        (lead.length + (Css.Part.textOf content).length) content =
        some children ∧
      node = .container
        (.parsed ⟨front.length,
          lead.length + (Css.Part.textOf content).length + 1⟩)
        (some ⟨lead.length, lead.length + (Css.Part.textOf content).length⟩)
          head children := by
  obtain ⟨hopener, hcloser, _⟩ := hbraced
  have htext := Css.Part.text_block before content hopener hcloser
  obtain ⟨lead, hlead⟩ :
      ∃ lead, lead = front ++ (Css.Tree.textOf before ++ ['\x7b']) := ⟨_, rfl⟩
  have hleadLength :
      lead.length = front.length + (Css.Tree.textOf before).length + 1 := by
    rw [hlead, List.length_append, List.length_append, Nat.add_assoc]
    rfl
  have hstop : front.length +
    (Css.Part.block before opener content closer).text.length =
      lead.length + (Css.Part.textOf content).length + 1 := by
    rw [htext, hleadLength]
    simp only [List.length_append, List.length_cons, List.length_nil]
    omega
  have hinside : source = lead ++ Css.Part.textOf content ++
      '\x7d' :: back := by
    rw [hsource, htext, hlead]
    simp
  have hclose : source.slice (lead.length + (Css.Part.textOf content).length)
      (lead.length + (Css.Part.textOf content).length + 1) = ['\x7d'] := by
    have h := Text.slice_of_append (lead ++ Css.Part.textOf content)
      ['\x7d'] back
    rwa [List.append_assoc _ ['\x7d'], List.singleton_append, ← hinside,
      List.length_append] at h
  have hstart :
    ((Css.piecesOf front.length (front.length + (Css.Tree.textOf before).length)
      before).head?.map Css.Piece.start).getD
        (front.length + (Css.Tree.textOf before).length) =
        front.length := by
    cases before <;> rfl
  rw [hstop, Css.Part.read, Nat.add_sub_cancel, if_pos hclose, hopener,
    List.length_singleton, ← hleadLength, Option.map_eq_some_iff] at hread
  obtain ⟨children, hchildren, hnode⟩ := hread
  rw [Css.blockNode, hstart, ← hleadLength, Nat.add_sub_cancel] at hnode
  exact ⟨lead, _, children, hlead, hinside, hchildren,
    (List.cons.inj hnode).1.symm⟩

mutual

/-- A part with its gates makes up the text that is printed for its node and the
gate of this node. -/
theorem textOf_plantPart (setting : Setting) (inert : Bool) (front back : Text)
    {node : Css.Node} (following : List Css.Node) (part : Css.Part)
    (hgap : part.isGap = false)
    (hsource : setting.source = front ++ part.text ++ back)
    (hlawful : Css.Tree.Lawful setting.source part.trees)
    (hbraced : part.Braced)
    (hread : part.read setting.source front.length
      (front.length + part.text.length) = some [node]) :
    Css.Part.textOf (plantPart setting inert node following part) =
      (gatedNode setting inert node).serialize setting.source ++
        gateText setting inert node following := by
  cases hblock : part.isBlock with
  | false =>
    obtain ⟨hchildren, hprint⟩ :=
      serialize_of_childless hgap hblock hsource hlawful hread
    obtain ⟨htext, hgated, _⟩ :=
      gateText_of_childless setting inert following hchildren
    rw [plantPart_childless hblock, htext, hgated, hprint]
    simp
  | true =>
    cases part with
    | block before opener content closer =>
      obtain ⟨lead, head, children, hlead, hinside, hchildren, rfl⟩ :=
        read_closed_block hsource hbraced hread
      obtain ⟨hopener, hcloser, hcontentBraced⟩ := hbraced
      rw [Css.Part.trees, Css.Tree.lawful_append] at hlawful
      have hcontent :=
        fun inert => textOf_plant setting inert lead _ content hinside
        hlawful.2.block.2.2 hcontentBraced hchildren
      have hopen : setting.source.slice front.length lead.length =
          Css.Tree.textOf before ++ ['\x7b'] := by
        rw [hinside, hlead, List.append_assoc _ (Css.Part.textOf content),
          List.length_append, Text.slice_of_append]
      have hclose : setting.source.slice
        (lead.length + (Css.Part.textOf content).length)
          (lead.length + (Css.Part.textOf content).length + 1) = ['\x7d'] := by
        have h := Text.slice_of_append (lead ++ Css.Part.textOf content)
          ['\x7d'] back
        rwa [List.append_assoc _ ['\x7d'], List.singleton_append, ← hinside,
          List.length_append] at h
      rw [plantPart, Css.Part.textOf_cons, Css.Part.textOf_ofText,
        Css.Part.text_block before _ hopener hcloser]
      congr 1
      rw [gatedNode, Css.Node.serialize]
      dsimp only [Css.Node.children, inertBelow]
      rw [hopen, hclose, hcontent]
      simp
    | _ => cases hblock

/-- Parts with gates make up the text that is printed for the nodes with their
gates. -/
theorem textOf_plant (setting : Setting) (inert : Bool) (front back : Text)
    {nodes : List Css.Node} (parts : List Css.Part)
    (hsource : setting.source = front ++ Css.Part.textOf parts ++ back)
    (hlawful : Css.Tree.Lawful setting.source (Css.Part.treesOf parts))
    (hbraced : Css.BracedAll parts)
    (hread : Css.readParts setting.source front.length
      (front.length + (Css.Part.textOf parts).length) parts = some nodes) :
    Css.Part.textOf (plant setting inert nodes parts) =
      Css.serializeFrom setting.source front.length
        (front.length + (Css.Part.textOf parts).length)
          (gatedNodes setting inert nodes) := by
  match parts with
  | [] =>
    cases hread
    exact (Text.slice_eq_nil _ (Nat.le_refl _)).symm
  | part :: rest =>
    obtain ⟨stop, hstop⟩ : ∃ stop, stop =
        front.length + (Css.Part.textOf (part :: rest)).length := ⟨_, rfl⟩
    obtain ⟨lead, hlead⟩ : ∃ lead, lead = front ++ part.text := ⟨_, rfl⟩
    have hlength : lead.length = front.length + part.text.length := by
      rw [hlead, List.length_append]
    have hrestStop : lead.length + (Css.Part.textOf rest).length = stop := by
      rw [hstop, hlength, Css.Part.textOf_cons, List.length_append,
        Nat.add_assoc]
    have hend : Css.endOf stop lead.length rest = lead.length := by
      cases rest with
      | nil => exact hrestStop.symm
      | cons => rfl
    rw [← hstop] at hread
    obtain ⟨own, others, rfl, hown, hothers⟩ :=
      Css.exists_of_readParts_cons hread
    rw [← hlength, hend] at hown
    rw [← hlength] at hothers
    rw [Css.Part.treesOf_cons, Css.Tree.lawful_append] at hlawful
    have hrestSource : setting.source = lead ++ Css.Part.textOf rest ++
        back := by
      rw [hsource, hlead, Css.Part.textOf_cons]
      simp
    have hpartSource : setting.source = front ++ part.text ++
        (Css.Part.textOf rest ++ back) := by
      rw [hrestSource, hlead]
      simp
    have htiles : Css.Tiles lead.length stop others := by
      have hstanding := Css.Standing.of_append lead back hrestSource hlawful.2
      rw [hrestStop] at hstanding
      exact Css.tiles_of_readParts rest hstanding (by omega) hothers
    have hrest :=
      textOf_plant setting inert lead back rest hrestSource hlawful.2 hbraced.2
      (by rw [hrestStop]; exact hothers)
    rw [hrestStop] at hrest
    have hslice : setting.source.slice front.length lead.length =
        part.text := by
      rw [hpartSource, hlength, Text.slice_of_append]
    rw [← hstop]
    cases hgap : part.isGap with
    | true =>
      have hnil : own = [] := by
        cases part with
        | gap tree =>
          cases hown
          rfl
        | _ => cases hgap
      rw [hnil, List.nil_append, plant_gap rest hgap,
        Css.Part.textOf_cons, hrest,
        serializeFrom_skip setting inert (a := front.length) (by omega) htiles,
          hslice]
    | false =>
      obtain ⟨node, rfl, hspan⟩ := Css.Part.read_node hgap hown
      rw [hlength] at hown
      have hpart := textOf_plantPart setting inert front _ others part hgap
        hpartSource hlawful.1 hbraced.1 hown
      rw [List.singleton_append, plant_node rest hgap, Css.Part.textOf_append,
        hrest, serializeFrom_node setting inert others stop hspan,
        ← List.append_assoc, hpart]

end

end OklchGate.Gate
